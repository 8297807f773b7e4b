import Mos6510.Proofs.Includes
import Mos6510.Proofs.Pieces
import Mos6510.Proofs.Seams
import Mos6510.Proofs.Splice

/-!
# Including a file, or weaving in its tokens

A directive starts a statement wherever it stands, so an include cuts the tokens of a
file between statements.  The tokens of the included file can stand in its place, if
binary files keep their names.

* `Kept`: tokens in which nothing is replaced;
* `kept_of_readLines`, `include_of_readLines`: tokens that are read without fault are
  such tokens with includes between them;
* `Woven`: lexemes in which each include is replaced by the lexemes of its file, and
  these in turn;
* `Woven.reads`: so their lines are spliced.
-/

namespace Mos6510

open Parse
open Text (Glyph)

/-! ## Reading on -/

/-- What was read before stays behind what is read. -/
theorem readLines_eq (file : String) (done : List Line) (ts : List Token) :
    readLines file done ts = ((readLines file [] ts).1 ++ done, (readLines file [] ts).2) := by
  induction hn : ts.length using Nat.strongRecOn generalizing ts done with
  | ind n ih =>
  cases ts with
  | nil => rw [readLines, readLines, List.nil_append]
  | cons t rest =>
      rw [readLines, readLines]
      by_cases hend : t.lexeme = .endOfFile
      · rw [if_pos hend, if_pos hend, List.nil_append]
      · rw [if_neg hend, if_neg hend]
        dsimp only
        cases hrest : (Statement.linesAfter t file rest).rest with
        | error err => simp only [List.append_nil]
        | ok last =>
            have hlt : last.val.length < n := by
              have hle := last.property
              rw [List.length_cons] at hn
              omega
            dsimp only
            rw [ih _ hlt _ last.val rfl, ih _ hlt (_ ++ []) last.val rfl, List.append_nil,
              List.append_assoc]

theorem readLines_endOfFile {t : Token} (hend : t.lexeme = .endOfFile) (file : String)
    (done : List Line) : readLines file done [t] = (done, none) := by
  rw [readLines, if_pos hend]

namespace Parse

variable {file : String} {ts rest : List Token}

theorem Reads.of_quoted {text : String} (h : Reads quoted file ts text rest) :
    ∃ bytes line, ts = ⟨.string text bytes, line⟩ :: rest := by
  obtain ⟨_, _, hpeek, h⟩ := h.of_bind
  obtain ⟨rfl, rfl⟩ := reads_peek.unique hpeek
  split at h
  · rename_i text' bytes hfront
    cases ts with
    | nil => cases hfront
    | cons t more =>
        obtain ⟨l, line⟩ := t
        obtain rfl : l = .string text' bytes := hfront
        obtain ⟨_, _, hnext, h⟩ := h.of_bind
        obtain ⟨-, rfl⟩ := (reads_next _).unique hnext
        obtain ⟨rfl, rfl⟩ := (Reads.pure _).unique h
        exact ⟨bytes, line, rfl⟩
  · obtain ⟨_, hfail, -⟩ := h
    cases hfail

end Parse

/-- A binary file is included by its name. -/
theorem Statement.binaryAfter_reads {file : String} {ts rest : List Token} {loc : Location}
    {s : Statement} (h : Reads (binaryAfter loc) file ts s rest) :
    ∃ name bytes line more skip length, ts = ⟨.string name bytes, line⟩ :: more ∧
      s = .includeBinary name skip length := by
  unfold binaryAfter at h
  obtain ⟨name, more, hquoted, hafter⟩ := h.of_bind
  obtain ⟨bytes, line, rfl⟩ := hquoted.of_quoted
  refine ⟨name, bytes, line, more, ?_⟩
  suffices hs : ∃ skip length, s = .includeBinary name skip length by
    obtain ⟨skip, length, hs⟩ := hs
    exact ⟨skip, length, rfl, hs⟩
  obtain ⟨comma, _, -, h⟩ := hafter.of_bind
  cases comma with
  | false => exact ⟨_, _, ((Reads.pure _).unique h).1.symm⟩
  | true =>
      obtain ⟨skip, _, -, h⟩ := Reads.of_bind h
      obtain ⟨comma, _, -, h⟩ := h.of_bind
      cases comma with
      | false => exact ⟨_, _, ((Reads.pure _).unique h).1.symm⟩
      | true =>
          obtain ⟨length, _, -, h⟩ := Reads.of_bind h
          exact ⟨_, _, ((Reads.pure _).unique h).1.symm⟩

/-! ## Tokens that are kept -/

/-- Tokens without includes of source text, in which the names of binary files have a
property. -/
inductive Kept (N : String → Prop) : List Token → Prop
  | nil : Kept N []
  | token {t : Token} {ts : List Token} :
      t.lexeme ≠ .endOfFile → ¬t.lexeme.includes → Kept N ts → Kept N (t :: ts)
  | binary {t s : Token} {name : String} {bytes : List UInt8} {ts : List Token} :
      t.lexeme = .directive "INCBIN" → s.lexeme = .string name bytes → N name → Kept N ts →
        Kept N (t :: s :: ts)

namespace Kept

variable {N : String → Prop} {as bs ts ts' : List Token}

theorem append (h : Kept N as) (h' : Kept N bs) : Kept N (as ++ bs) := by
  induction h with
  | nil => exact h'
  | token hend hplain _ ih => exact .token hend hplain ih
  | binary ht hs hname _ ih => exact .binary ht hs hname ih

/-- The same lexemes are joined in front of any seam. -/
theorem joined {J : Seam} (h : Kept N ts) (hsame : ts'.map Token.lexeme = ts.map Token.lexeme)
    (hN : ∀ name, N name → J.names name name) : J.Joined (ts ++ J.tokens) (ts' ++ J.tokens') := by
  induction h generalizing ts' with
  | nil =>
      obtain rfl := List.map_eq_nil_iff.mp hsame
      exact .seam
  | @token t ts hend hplain _ ih =>
      obtain ⟨⟨l', line'⟩, more', rfl, hl, hmore⟩ := List.map_eq_cons_iff.mp hsame
      obtain ⟨l, line⟩ := t
      cases hl
      exact .token hend hplain (ih hmore)
  | @binary t s name bytes ts ht hs hname _ ih =>
      obtain ⟨⟨l', line'⟩, after', rfl, hl, hafter⟩ := List.map_eq_cons_iff.mp hsame
      obtain ⟨⟨l₂', nameLine'⟩, more', rfl, hl₂, hmore⟩ := List.map_eq_cons_iff.mp hafter
      obtain ⟨l, line⟩ := t
      obtain ⟨l₂, nameLine⟩ := s
      cases hl
      cases hl₂
      cases ht
      cases hs
      exact .binary (hN name hname) (ih hmore)

end Kept

variable {file : String} {N : String → Prop} {seam ts before : List Token} {all : List Line}

/-- Tokens up to a seam are read as statements. -/
theorem Kept.readLines (h : Kept N ts) (hends : Ends seam)
    (hread : readLines file [] (ts ++ seam) = (all, none)) :
    ∃ lines, Mos6510.readLines file [] (ts ++ seam) = Mos6510.readLines file lines seam := by
  let J : Seam := ⟨file, file, fun n n' => n = n', seam, seam, hends, hends.begins⟩
  have hjoined : J.Joined (ts ++ seam) (ts ++ seam) := h.joined rfl fun _ _ => rfl
  obtain ⟨lines, -, hlines, -⟩ := Seam.readLines_joined hjoined hread
  exact ⟨_, hlines⟩

/-- What is read first is among all lines. -/
theorem mem_of_readLines {t : Token} {rest : List Token} {done lines : List Line}
    (hend : t.lexeme ≠ .endOfFile) (h : (Statement.linesAfter t file ts).Is lines rest)
    (hread : readLines file done (t :: ts) = (all, none)) : ∀ l ∈ lines, l ∈ all := by
  intro l hl
  rw [readLines_of_is hend h, readLines_eq] at hread
  have hall := congrArg Prod.fst hread
  dsimp only at hall
  rw [← hall]
  exact List.mem_append_right _ (List.mem_append_left _ (List.mem_reverse.mpr hl))

theorem Ends.ne_string (h : Ends seam) (text : String) (bytes : List UInt8) (line : Nat)
    (more : List Token) : seam ≠ ⟨.string text bytes, line⟩ :: more := by
  rintro rfl
  rcases h with h | ⟨name, h⟩ <;> cases h

/-- Tokens without includes of source text are kept: a binary file is included at the
start of a statement, and by its name. -/
theorem kept_of_readLines (hends : Ends seam)
    (hplain : ∀ t ∈ ts, t.lexeme ≠ .endOfFile ∧ t.lexeme ≠ .directive "INCLUDE")
    (hbefore : Kept N before) (hread : readLines file [] (before ++ (ts ++ seam)) = (all, none))
    (hN : ∀ line name skip length, ⟨⟨file, line⟩, .includeBinary name skip length⟩ ∈ all → N name) :
    Kept N (before ++ ts) := by
  -- the tokens are kept one by one, and before the name of a binary file the text is cut
  induction hn : ts.length using Nat.strongRecOn generalizing before ts with
  | ind n ih =>
  cases ts with
  | nil => rwa [List.append_nil]
  | cons t more =>
      obtain ⟨⟨hend, hsource⟩, hmore⟩ := List.forall_mem_cons.mp hplain
      rw [List.length_cons] at hn
      by_cases hbinary : t.lexeme = .directive "INCBIN"
      · have hcut : Ends (t :: (more ++ seam)) := .inr ⟨_, hbinary⟩
        obtain ⟨lines, hlines⟩ := hbefore.readLines hcut hread
        have hread₀ := hread
        rw [List.cons_append, hlines] at hread
        obtain ⟨read, rest, his⟩ := exists_is_of_readLines hend hread
        have hmem := mem_of_readLines hend his hread
        obtain ⟨l, line⟩ := t
        obtain rfl : l = .directive "INCBIN" := hbinary
        obtain ⟨s, rfl, hs⟩ := Statement.single_is_iff.mp his
        obtain ⟨name, bytes, nameLine, after, skip, length, hcons, rfl⟩ :=
          Statement.binaryAfter_reads hs
        cases more with
        | nil => exact absurd hcons (hends.ne_string _ _ _ _)
        | cons s more =>
            obtain ⟨rfl, rfl⟩ := List.cons.inj hcons
            have hname := hN line name skip length (hmem _ List.mem_cons_self)
            let binary : List Token := [⟨.directive "INCBIN", line⟩, ⟨.string name bytes, nameLine⟩]
            have hkept : Kept N (before ++ binary) := hbefore.append (.binary rfl rfl hname .nil)
            have hall := ih more.length (by rw [List.length_cons] at hn; omega)
              (List.forall_mem_cons.mp hmore).2 hkept (by rw [List.append_assoc]; exact hread₀) rfl
            rwa [List.append_assoc] at hall
      · have hkept : Kept N (before ++ [t]) := by
          refine hbefore.append (.token hend ?_ .nil)
          rintro (h | h)
          · exact hsource h
          · exact hbinary h
        have hall := ih more.length (by omega) hmore hkept
          (by rw [List.append_assoc]; exact hread) rfl
        rwa [List.append_assoc] at hall

/-- A file is included by its name, at the start of a statement. -/
theorem include_of_readLines {t : Token} {done : List Line} (ht : t.lexeme = .directive "INCLUDE")
    (hread : readLines file done (t :: ts) = (all, none)) :
    ∃ name bytes line more, ts = ⟨.string name bytes, line⟩ :: more ∧
      ∀ done, readLines file done (t :: ts) =
        readLines file (⟨⟨file, t.line⟩, .includeSource name⟩ :: done) more := by
  have hend : t.lexeme ≠ .endOfFile := by rw [ht]; exact nofun
  obtain ⟨lines, rest, his⟩ := exists_is_of_readLines hend hread
  have hall : ∀ done, readLines file done (t :: ts) = readLines file (lines.reverse ++ done) rest :=
    fun done => readLines_of_is hend his
  obtain ⟨l, line⟩ := t
  obtain rfl : l = .directive "INCLUDE" := ht
  obtain ⟨s, rfl, hs⟩ := Statement.single_is_iff.mp his
  obtain ⟨name, more, hquoted, hs⟩ := hs.of_bind
  obtain ⟨rfl, rfl⟩ := (Reads.pure _).unique hs
  obtain ⟨bytes, nameLine, rfl⟩ := hquoted.of_quoted
  exact ⟨name, bytes, nameLine, _, rfl, hall⟩

/-- Tokens that are read without fault are cut at an include of source text. -/
theorem Kept.cut {t : Token} {lines : List Line} (h : Kept N before)
    (ht : t.lexeme = .directive "INCLUDE")
    (hread : Mos6510.readLines file [] (before ++ t :: ts) = (lines.reverse, none)) :
    ∃ (name : String) (bytes : List UInt8) (line : Nat) (more : List Token) (later : List Line),
      ts = ⟨.string name bytes, line⟩ :: more ∧
      Mos6510.readLines file [] more = (later.reverse, none) ∧
      (∃ first, lines = first ++ ⟨⟨file, t.line⟩, .includeSource name⟩ :: later) ∧
      ∀ first, Mos6510.readLines file [] (before ++ t :: ts) =
          Mos6510.readLines file (List.reverse first) (t :: ts) →
        lines = first ++ ⟨⟨file, t.line⟩, .includeSource name⟩ :: later := by
  have hcut : Ends (t :: ts) := .inr ⟨_, ht⟩
  obtain ⟨done, hdone⟩ := h.readLines hcut hread
  -- the tokens before the directive give the lines `done`, whatever comes behind it
  have hstart := hdone.symm.trans hread
  obtain ⟨name, bytes, line, more, rfl, hinclude⟩ := include_of_readLines ht hstart
  rw [hinclude, readLines_eq] at hstart
  obtain ⟨later, hlater⟩ : ∃ later : List Line,
      Mos6510.readLines file [] more = (later.reverse, none) :=
    ⟨_, Prod.ext (List.reverse_reverse _).symm (Prod.mk.inj hstart).2⟩
  have hall : ∀ first, Mos6510.readLines file [] (before ++ t :: ⟨.string name bytes, line⟩ :: more) =
      Mos6510.readLines file (List.reverse first) (t :: ⟨.string name bytes, line⟩ :: more) →
        lines = first ++ ⟨⟨file, t.line⟩, .includeSource name⟩ :: later := by
    intro first hfirst
    rw [hread, hinclude, readLines_eq, hlater] at hfirst
    refine List.reverse_injective ((Prod.mk.inj hfirst).1.trans ?_)
    rw [List.reverse_append, List.reverse_cons, List.append_assoc]
    rfl
  refine ⟨name, bytes, line, more, later, rfl, hlater, ⟨done.reverse, hall _ ?_⟩, hall⟩
  rw [List.reverse_reverse, hdone]

/-! ## Kept tokens in another file -/

/-- Lines that are read first are in the file. -/
theorem located_of_readLines {first : List Line}
    (h : readLines file [] ts = readLines file first seam) : ∀ l ∈ first, l.location.file = file := by
  have hall : ∀ l ∈ (readLines file [] ts).1, l.location.file = file := readLines_in nofun
  rw [h, readLines_eq] at hall
  exact fun l hl => hall l (List.mem_append_right _ hl)

/-- Statements that are alike in the names of binary files are so in fewer. -/
theorem Statement.Alike.mono {β β' : String → String → Prop} {s s' : Statement} (h : s.Alike β s')
    (hβ : ∀ n n', β n n' → β' n n') : s.Alike β' s' := by
  cases h with
  | includeBinary hname hskip hlength => exact .includeBinary (hβ _ _ hname) hskip hlength
  | _ => constructor <;> assumption

/-- The name stands for the same file in both files. -/
def Loader.Keeps (ld : Loader) (file file' name : String) : Prop :=
  ld.find name ⟨file, 1⟩ = ld.find name ⟨file', 1⟩

/-- Kept tokens are read as lines that are alike, in front of any other statement. -/
theorem Kept.carries {ld : Loader} {file' : String} {ts' tail' : List Token}
    (h : Kept (ld.Keeps file file') ts) (hsame : ts'.map Token.lexeme = ts.map Token.lexeme)
    (hends : Ends seam) (hbegins : Begins tail')
    (hread : Mos6510.readLines file [] (ts ++ seam) = (all, none)) :
    ∃ lines lines', Mos6510.readLines file [] (ts ++ seam) = Mos6510.readLines file lines.reverse seam ∧
      (∀ done, Mos6510.readLines file' done (ts' ++ tail') =
        Mos6510.readLines file' (lines'.reverse ++ done) tail') ∧
      List.Forall₂ (Line.Alike ld.sameFile) lines lines' ∧ Begins (ts' ++ tail') := by
  let J : Seam := ⟨file, file', fun n n' => n' = n ∧ ld.Keeps file file' n, seam, tail', hends, hbegins⟩
  have hjoined : J.Joined (ts ++ seam) (ts' ++ tail') := h.joined hsame fun _ hn => ⟨rfl, hn⟩
  obtain ⟨lines, lines', hlines, hlines', halike⟩ := Seam.readLines_joined hjoined hread
  rw [List.append_nil] at hlines
  refine ⟨lines, lines', hlines, hlines', ?_, hjoined.begins hread⟩
  -- the lines are in their files, where the names stand for the same
  have hin : ∀ l ∈ lines, l.location.file = file :=
    fun l hl => located_of_readLines hlines l (List.mem_reverse.mpr hl)
  have hin' : ∀ l ∈ lines', l.location.file = file' := by
    have hall := located_of_readLines (hlines' [])
    rw [List.append_nil] at hall
    exact fun l hl => hall l (List.mem_reverse.mpr hl)
  clear hlines hlines'
  induction halike with
  | nil => exact .nil
  | @cons l l' _ _ hl _ ih =>
      obtain ⟨hfile, hin⟩ := List.forall_mem_cons.mp hin
      obtain ⟨hfile', hin'⟩ := List.forall_mem_cons.mp hin'
      refine .cons (hl.mono ?_) (ih hin hin')
      rintro n _ ⟨rfl, hkeeps⟩
      rw [← hfile, ← hfile'] at hkeeps
      exact hkeeps

/-! ## Weaving -/

/-- Lexemes in which each include is replaced by the lexemes of its file, and these in
turn. -/
inductive Woven (ld : Loader) : String → List Lexeme → List Lexeme → Prop
  | kept {file : String} {ls : List Lexeme} : .directive "INCLUDE" ∉ ls → Woven ld file ls ls
  | source {file inner name : String} {bytes content : List UInt8}
      {ls ils ils' rest rest' : List Lexeme} :
      .directive "INCLUDE" ∉ ls → ld.find name ⟨file, 1⟩ = some inner →
        ld.library.source inner = .ok content →
        Lexer.Makes ld.reader.defines [] (Glyph.ofBytes content) ils →
        Woven ld inner ils ils' → Woven ld file rest rest' →
          Woven ld file (ls ++ .directive "INCLUDE" :: .string name bytes :: rest) (ls ++ (ils' ++ rest'))

/-- The tokens of a file that is read without fault. -/
theorem Reader.Reads.tokens {r : Reader} {text : List Glyph} {ls : List Lexeme} {lines : List Line}
    (h : r.Reads file text lines) (hmakes : Lexer.Makes r.defines [] text ls) :
    ∃ (ts : List Token) (last : Token), ts.map Token.lexeme = ls ∧
      (∀ t ∈ ts, t.lexeme ≠ .endOfFile) ∧ last.lexeme = .endOfFile ∧
      readLines file [] (ts ++ [last]) = (lines.reverse, none) := by
  obtain ⟨ts, last, rfl, hscan⟩ := hmakes.scan_eq
  refine ⟨ts, ⟨.endOfFile, last⟩, rfl, fun t ht => ?_, rfl, ?_⟩
  · exact hmakes.ne_endOfFile _ (List.mem_map_of_mem ht)
  · have hlines := h.lines
    rw [hscan] at hlines
    obtain ⟨hlines, hnone⟩ := Prod.mk.inj hlines
    exact Prod.ext (List.reverse_eq_iff.mp hlines) hnone

/-- Lines of files in which all files of source text can be found and read, outside of
blocks, and binary files keep their names in another file. -/
structure Loader.Closed (ld : Loader) (file' : String) (P : List Line → Prop) : Prop where
  outside : ∀ lines, P lines → IncludesOutside lines
  binaries : ∀ lines, P lines → ∀ loc name skip length,
    ⟨loc, .includeBinary name skip length⟩ ∈ lines → ld.find name loc = ld.find name ⟨file', 1⟩
  sources : ∀ lines, P lines → ∀ loc name, ⟨loc, .includeSource name⟩ ∈ lines →
    ∃ file bytes inner, ld.find name loc = some file ∧ ld.library.source file = .ok bytes ∧
      ld.reader.Reads file (Glyph.ofBytes bytes) inner ∧ P inner

/-- Their tokens between includes are kept. -/
theorem Loader.Closed.kept {ld : Loader} {file' : String} {P : List Line → Prop}
    (h : ld.Closed file' P) {whole lines : List Line} (hwhole : P whole)
    (hsub : ∀ l ∈ lines, l ∈ whole) (hends : Ends seam)
    (hplain : ∀ t ∈ ts, t.lexeme ≠ .endOfFile) (hnone : .directive "INCLUDE" ∉ ts.map Token.lexeme)
    (hread : readLines file [] (ts ++ seam) = (lines.reverse, none)) :
    Kept (ld.Keeps file file') ts := by
  have hsource : ∀ t ∈ ts, t.lexeme ≠ .endOfFile ∧ t.lexeme ≠ .directive "INCLUDE" :=
    fun t ht => ⟨hplain t ht, fun hsource => hnone (hsource ▸ List.mem_map_of_mem ht)⟩
  refine kept_of_readLines hends hsource .nil hread fun line name skip length hl => ?_
  have hbinary := hsub _ (List.mem_reverse.mp hl)
  exact h.binaries whole hwhole ⟨file, line⟩ name skip length hbinary

namespace Woven

variable {ld : Loader} {file' : String} {P : List Line → Prop} {ls ls' : List Lexeme}

/-- Woven tokens are read as spliced lines, in front of any other statement. -/
theorem reads (hclosed : ld.Closed file' P) (h : Woven ld file ls ls') {whole lines : List Line}
    {last : Token} {ts' tail' : List Token} (hts : ts.map Token.lexeme = ls)
    (hplain : ∀ t ∈ ts, t.lexeme ≠ .endOfFile) (hlast : last.lexeme = .endOfFile)
    (hread : readLines file [] (ts ++ [last]) = (lines.reverse, none)) (hwhole : P whole)
    (hsub : ∀ l ∈ lines, l ∈ whole) (hts' : ts'.map Token.lexeme = ls') (hbegins : Begins tail') :
    ∃ lines', (∀ done, readLines file' done (ts' ++ tail') =
        readLines file' (lines'.reverse ++ done) tail') ∧
      Spliced ld lines lines' ∧ Begins (ts' ++ tail') := by
  induction h generalizing ts whole lines last ts' tail' with
  | @kept file ls hnone =>
      have hends : Ends [last] := .inl hlast
      have hkept := hclosed.kept hwhole hsub hends hplain (hts ▸ hnone) hread
      obtain ⟨lines₁, lines', hlines, hlines', halike, hbegins'⟩ :=
        hkept.carries (hts'.trans hts.symm) hends hbegins hread
      rw [hlines, readLines_endOfFile hlast] at hread
      obtain rfl : lines₁ = lines := List.reverse_injective (congrArg Prod.fst hread)
      exact ⟨lines', hlines', .lines halike, hbegins'⟩
  | @source file inner name bytes content ls ils ils' rest rest' hnone hfind hcontent hmakes
      _ _ ihinner ihrest =>
      obtain ⟨before, after, rfl, rfl, hafter⟩ := List.map_eq_append_iff.mp hts
      obtain ⟨t, after, rfl, ht, hafter⟩ := List.map_eq_cons_iff.mp hafter
      obtain ⟨s, more, rfl, hs, rfl⟩ := List.map_eq_cons_iff.mp hafter
      obtain ⟨before', after', rfl, hbefore', hafter'⟩ := List.map_eq_append_iff.mp hts'
      obtain ⟨inside', more', rfl, hinside', hmore'⟩ := List.map_eq_append_iff.mp hafter'
      rw [List.append_assoc] at hread
      have hcut : Ends (t :: s :: (more ++ [last])) := .inr ⟨_, ht⟩
      obtain ⟨hplain₁, hplain⟩ := List.forall_mem_append.mp hplain
      have hkept := hclosed.kept hwhole hsub hcut hplain₁ hnone hread
      obtain ⟨name', bytes', line, more₀, later, hcons, hlater, ⟨first, hfirst⟩, hall⟩ :=
        hkept.cut ht hread
      obtain ⟨rfl, rfl⟩ := List.cons.inj hcons
      cases hs
      obtain ⟨-, hsub⟩ := List.forall_mem_append.mp (hfirst ▸ hsub)
      obtain ⟨hincluded, hsub⟩ := List.forall_mem_cons.mp hsub
      -- the rest, then the file, then what is before them
      obtain ⟨later', hlater', hspliced, hbegins⟩ :=
        ihrest rfl (List.forall_mem_cons.mp (List.forall_mem_cons.mp hplain).2).2 hlast hlater hwhole
          hsub hmore' hbegins
      obtain ⟨inner', content', lines₂, hfind', hcontent', hreads, hinner⟩ :=
        hclosed.sources whole hwhole _ _ hincluded
      obtain rfl : inner = inner' := Option.some.inj (hfind.symm.trans hfind')
      obtain rfl : content = content' := Except.ok.inj (hcontent.symm.trans hcontent')
      obtain ⟨inside, insideLast, hinside, hplain₂, hlast₂, hread₂⟩ := hreads.tokens hmakes
      obtain ⟨lines₂', hlines₂', hspliced₂, hbegins⟩ :=
        ihinner hinside hplain₂ hlast₂ hread₂ hinner (fun _ hl => hl) hinside' hbegins
      obtain ⟨lines₁, lines₁', hlines₁, hlines₁', halike, hbegins⟩ :=
        hkept.carries hbefore' hcut hbegins hread
      obtain rfl := hall lines₁ hlines₁
      refine ⟨lines₁' ++ (lines₂' ++ later'), fun done => ?_, ?_, ?_⟩
      · rw [List.append_assoc, List.append_assoc, hlines₁', hlines₂', hlater']
        simp only [List.reverse_append, List.append_assoc]
      · exact .source halike hfind hcontent hreads (hclosed.outside _ hinner) hspliced₂ hspliced
      · rw [List.append_assoc, List.append_assoc]
        exact hbegins

/-- Text that makes the woven lexemes is read as spliced lines. -/
theorem reads_text (hclosed : ld.Closed file' P) (h : Woven ld file ls ls') {text text' : List Glyph}
    {lines : List Line} (hmakes : Lexer.Makes ld.reader.defines [] text ls)
    (hmakes' : Lexer.Makes ld.reader.defines [] text' ls') (hreads : ld.reader.Reads file text lines)
    (hlines : P lines) :
    ∃ lines', ld.reader.Reads file' text' lines' ∧ Spliced ld lines lines' := by
  obtain ⟨ts, last, hts, hplain, hlast, hread⟩ := hreads.tokens hmakes
  obtain ⟨ts', last', hts', hscan⟩ := hmakes'.scan_eq
  have hbegins : Begins [⟨.endOfFile, last'⟩] := trivial
  obtain ⟨lines', hlines', hspliced, -⟩ :=
    h.reads hclosed hts hplain hlast hread hlines (fun _ hl => hl) hts' hbegins
  refine ⟨lines', ⟨congrArg Scan.error hscan, ?_⟩, hspliced⟩
  rw [hscan, linesOf]
  dsimp only
  rw [hlines', readLines_endOfFile rfl, List.append_nil, List.reverse_reverse]

end Woven

end Mos6510
