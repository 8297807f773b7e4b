import Mos6510.Proofs.Weaving

/-!
# Including a file, or pasting its text

A file that is included outside all blocks does what its text does in place of the
directive, on lines of its own.

* `Loader.Loads`: an assembly that succeeds has read all files that are included;
* `Pasted`: text in which each include is replaced by the text of its file, between
  new lines;
* `exists_pasted_of_readLines`: there is such a text where all files were read;
* `Loader.pasted_assembles`: it assembles to the same program.
-/

namespace Mos6510

open Outcome
open Text (Glyph)
open Lexer (Makes)

/-! ## Files that are loaded -/

namespace Builder

variable {a : Action} {b b' : Builder}

/-- An action outside all macros: one of the builder, or of what it has set aside. -/
inductive Holds (a : Action) (b : Builder) : Prop
  | outside : (∀ blk ∈ b.blocks, blk.isFlow = true) → a ∈ b.actions.toList → Holds a b
  | aside {flow : List Block} {start : Location} {name : String} {params : List String}
      {before : Array Action} :
      b.blocks = flow ++ [.definition start name params before] → (∀ blk ∈ flow, blk.isFlow = true) →
        a ∈ before.toList → Holds a b

/-- Below the conditions and loops, a statement leaves the blocks as they were. -/
theorem Adds.blocks_append {loc : Location} {ids ids' : Ids} {stmt : Statement} {acts : List Action}
    {blocks blocks' flow outer : List Block} (h : Adds loc ids stmt blocks acts ids' blocks')
    (hblocks : blocks = flow ++ outer) (hflow : ∀ blk ∈ flow, blk.isFlow = true)
    (houter : ∀ blk ∈ outer, blk.isFlow = false) :
    ∃ flow', blocks' = flow' ++ outer ∧ ∀ blk ∈ flow', blk.isFlow = true := by
  have hpush : ∀ {blk : Block}, blk.isFlow = true → ∃ flow', blk :: blocks = flow' ++ outer ∧
      ∀ blk ∈ flow', blk.isFlow = true :=
    fun hblk => ⟨_ :: flow, by rw [hblocks]; rfl, List.forall_mem_cons.mpr ⟨hblk, hflow⟩⟩
  -- the innermost block is a condition or a loop
  have hpop : ∀ {blk : Block} {rest : List Block}, blocks = blk :: rest → blk.isFlow = true →
      ∃ more, rest = more ++ outer ∧ ∀ blk ∈ more, blk.isFlow = true := by
    intro blk rest hcons hblk
    cases flow with
    | nil =>
        rw [hblocks, List.nil_append] at hcons
        rw [houter blk (by rw [hcons]; exact List.mem_cons_self)] at hblk
        cases hblk
    | cons _ more =>
        rw [hblocks, List.cons_append] at hcons
        cases hcons
        exact ⟨more, rfl, (List.forall_mem_cons.mp hflow).2⟩
  cases h with
  | simple => exact ⟨flow, hblocks, hflow⟩
  | openIf | openRepeat | openWhile => exact hpush rfl
  | closeIf | closeRepeat | closeWhile => exact hpop rfl rfl
  | elseIf | otherwise =>
      obtain ⟨more, rfl, hmore⟩ := hpop rfl rfl
      exact ⟨_ :: more, rfl, List.forall_mem_cons.mpr ⟨rfl, hmore⟩⟩

theorem Issued.holds {loc : Location} {stmt : Statement} (h : Issued loc stmt b b') (ha : b.Holds a) :
    b'.Holds a := by
  cases h with
  | @adds _ _ acts ids blocks hadds _ =>
      cases ha with
      | outside hflow ha =>
          have hnone : ∀ blk ∈ ([] : List Block), blk.isFlow = false := nofun
          obtain ⟨flow, hblocks, hflow'⟩ :=
            hadds.blocks_append (List.append_nil _).symm hflow hnone
          rw [List.append_nil] at hblocks
          refine .outside (hblocks ▸ hflow') ?_
          rw [Array.toList_appendList]
          exact List.mem_append_left _ ha
      | aside hblocks hflow ha =>
          obtain ⟨flow', hblocks', hflow'⟩ := hadds.blocks_append hblocks hflow
            (List.forall_mem_singleton.mpr rfl)
          exact .aside hblocks' hflow' ha
  | openMacro hblocks =>
      cases ha with
      | outside _ ha => exact .aside (List.nil_append _).symm nofun ha
      | aside hblocks' => simp [hblocks] at hblocks'
  | @closeMacro start name params before _ outer hblocks =>
      cases ha with
      | outside hflow => cases hflow _ (by rw [hblocks]; exact List.mem_cons_self)
      | @aside flow _ _ _ before' hblocks' hflow ha =>
          cases flow with
          | nil =>
              rw [hblocks, List.nil_append] at hblocks'
              cases hblocks'
              -- the definition that held the include closes, and its action goes where it opened
              refine .outside nofun ?_
              rw [Array.toList_appendList]
              exact List.mem_append_left _ ha
          | cons blk flow =>
              rw [hblocks, List.cons_append] at hblocks'
              cases hblocks'
              cases hflow _ List.mem_cons_self

/-- Every include of source is among the actions of a file. -/
theorem includeSource_mem {lines : List Line} {u : Unit} {loc : Location} {name : String}
    (h : issueAll lines b = .ok u b') (hopen : b'.blocks = [])
    (hl : ⟨loc, .includeSource name⟩ ∈ lines) :
    Action.plain loc (.includeSource name) ∈ b'.actions.toList := by
  obtain ⟨before, after, rfl⟩ := List.append_of_mem hl
  obtain ⟨b₁, -, h⟩ := issueAll_append_eq_ok h
  obtain ⟨b₂, hinclude, hafter⟩ := issueAll_cons_eq_ok h
  obtain ⟨hwithin, rfl⟩ := includeSource_eq_ok hinclude
  have hflow : ∀ blk ∈ b₁.blocks, blk.isFlow = true := by
    intro blk hblk
    unfold inMacro at hwithin
    rw [List.any_eq_false] at hwithin
    simpa [Block.isFlow, bne_iff_ne] using hwithin blk hblk
  have hstart : (b₁.add [Action.plain loc (.includeSource name)]).Holds
      (Action.plain loc (.includeSource name)) := by
    refine .outside hflow ?_
    rw [add, Array.toList_appendList]
    exact List.mem_append_right _ List.mem_cons_self
  cases issueAll_induction (fun _ _ _ _ hb hissued => hissued.holds hb) hstart hafter with
  | outside _ ha => exact ha
  | aside hblocks => simp [hopen] at hblocks

end Builder

namespace Loader

variable {ld : Loader}

/-- Can all files of source text that the lines include, and those that they include in
turn, be found and read?  Includes in blocks are not followed. -/
def Loads (ld : Loader) : Nat → List Line → Prop
  | 0, lines => ∀ loc name, ⟨loc, .includeSource name⟩ ∉ lines
  | levels + 1, lines => ∀ loc name, ⟨loc, .includeSource name⟩ ∈ lines →
    ∃ file bytes inner, ld.find name loc = some file ∧ ld.library.source file = .ok bytes ∧
      ld.reader.Reads file (Glyph.ofBytes bytes) inner ∧ ld.Loads levels inner

end Loader

namespace Assembler

variable {asm : Assembler} {ld : Loader}

/-- Each action that is replaced is so in some session. -/
theorem replaceEach_mem {f : Action → SessionM (List Action)} {acts r : List Action} {s s' : Session}
    (h : replaceEach f acts s = .ok r s') : ∀ a ∈ acts, ∃ s₁ bs s₂, f a s₁ = .ok bs s₂ := by
  induction acts generalizing s r with
  | nil => exact nofun
  | cons a rest ih =>
      obtain ⟨bs, rest', s₁, hfirst, hrest, -⟩ := replaceEach_cons_eq_ok h
      exact List.forall_mem_cons.mpr ⟨⟨s, bs, s₁, hfirst⟩, ih hrest⟩

/-- If all includes of a file can be resolved, then all files were found and read. -/
theorem loads_of_resolveIncludes (hasm : asm.includer = some ld.includer) {levels : Nat}
    {lines : List Line} {b b' : Builder} {u : Unit} {s s' : Session} {r : List Action}
    (hissue : Builder.issueAll lines b = .ok u b') (hclosed : b'.blocks = [])
    (h : asm.resolveIncludes levels b'.actions.toList s = .ok r s') : ld.Loads levels lines := by
  induction levels generalizing lines b b' u s s' r with
  -- no level is left, so a text with an include would have failed
  | zero =>
      intro loc name hl
      obtain ⟨s₁, bs, s₂, hinclude⟩ :=
        replaceEach_mem h _ (Builder.includeSource_mem hissue hclosed hl)
      rcases replaceInclude_eq_ok hinclude with ⟨-, -, hop⟩ | ⟨_, _, _, _, _, _, -, -, hnested, -⟩ |
        ⟨_, _, _, _, _, hop, -⟩
      · exact hop .source
      · cases hnested
      · cases hop
  | succ levels ih =>
      intro loc name hl
      obtain ⟨s₁, bs, s₂, hinclude⟩ :=
        replaceEach_mem h _ (Builder.includeSource_mem hissue hclosed hl)
      rcases replaceInclude_eq_ok hinclude with ⟨-, -, hop⟩ |
        ⟨_, inc, f, acts, s₃, s₄, hop, hinc, hnested, hsource, -, hacts⟩ | ⟨_, _, _, _, _, hop, -⟩
      · exact absurd .source hop
      · cases hop
        cases hnested
        obtain rfl := Option.some.inj (hasm.symm.trans hinc)
        obtain ⟨file, bytes, s₅, hfind, hbytes, -, hread⟩ := Loader.source_found hsource
        obtain ⟨inner, b₁, hreads, hissue', hclosed', rfl, -⟩ := Reader.reads_of_actions hread
        exact ⟨file, bytes, inner, hfind, hbytes, hreads, ih hissue' hclosed' hacts⟩
      · cases hop

end Assembler

/-! ## Pasting -/

/-- Text of a file in which each include is replaced by the text of the file that it
stands for, between new lines, and these in turn. -/
inductive Pasted (ld : Loader) : String → List Glyph → List Glyph → Prop
  | kept {file : String} {text : List Glyph} {ls : List Lexeme} :
      Makes ld.reader.defines [] text ls → .directive "INCLUDE" ∉ ls → Pasted ld file text text
  | source {file inner name : String} {bytes content : List UInt8}
      {before directive inside rest rest' : List Glyph} {ls : List Lexeme} :
      Makes ld.reader.defines (.char '.' :: directive ++ rest) before ls → .directive "INCLUDE" ∉ ls →
        Makes ld.reader.defines rest (.char '.' :: directive)
          [.directive "INCLUDE", .string name bytes] →
        ld.find name ⟨file, 1⟩ = some inner → ld.library.source inner = .ok content →
        Pasted ld inner (Glyph.ofBytes content) inside → Pasted ld file rest rest' →
          Pasted ld file (before ++ (.char '.' :: directive ++ rest))
            (before ++ .char '\n' :: (inside ++ .char '\n' :: rest'))

namespace Pasted

variable {ld : Loader} {file : String} {text text' : List Glyph}

/-- Pasted text makes woven lexemes. -/
theorem woven (h : Pasted ld file text text') :
    ∃ ls ls', Makes ld.reader.defines [] text ls ∧ Makes ld.reader.defines [] text' ls' ∧
      Woven ld file ls ls' := by
  induction h with
  | @kept file text ls hmakes hnone => exact ⟨ls, ls, hmakes, hmakes, .kept hnone⟩
  | @source file inner name bytes content before directive inside rest rest' ls hbefore hnone
      hdirective hfind hcontent _ _ ihinner ihrest =>
      obtain ⟨ils, ils', hmakes, hmakes', hinner⟩ := ihinner
      obtain ⟨more, more', hrest, hrest', hmore⟩ := ihrest
      have htext : Makes ld.reader.defines [] (before ++ (.char '.' :: directive ++ rest))
          (ls ++ ([.directive "INCLUDE", .string name bytes] ++ more)) := by
        rw [← List.append_nil rest] at hdirective
        rw [← List.append_nil (_ ++ rest)] at hbefore
        exact hbefore.append (hdirective.append hrest)
      -- the pieces end where a new line starts in place of a directive, or of nothing
      have hline : Lexer.Follows (.char '.' :: directive ++ rest)
          (.char '\n' :: (inside ++ .char '\n' :: rest') ++ []) := .inr ⟨rfl, .inr rfl⟩
      have hend : Lexer.Follows [] (.char '\n' :: rest' ++ []) := .inr ⟨rfl, .inl rfl⟩
      have hpasted := (hbefore.follows hline).append
        ((hmakes'.follows hend).append hrest'.newline).newline
      exact ⟨_, _, htext, hpasted, .source hnone hfind hcontent hmakes hinner hmore⟩

end Pasted

/-- Text is cut at a directive and the lexeme after it. -/
theorem makes_directive {defines : List (String × Int64)} {text : List Glyph}
    {first later : List Lexeme} {name : String} {l : Lexeme}
    (h : Makes defines [] text (first ++ .directive name :: l :: later)) :
    ∃ before directive rest, text = before ++ (.char '.' :: directive ++ rest) ∧
      Makes defines (.char '.' :: directive ++ rest) before first ∧
      Makes defines rest (.char '.' :: directive) [.directive name, l] ∧ Makes defines [] rest later := by
  obtain ⟨before, g, gs, behind, rfl, hbefore, hdirective, hdot, hbehind⟩ := h.split
  obtain rfl := hdot name rfl
  rw [← List.nil_append (l :: later)] at hbehind
  obtain ⟨blanks, g, gs', rest, rfl, hblanks, hl, -, hrest⟩ := hbehind.split
  simp only [List.append_nil] at hbefore hdirective hblanks hl
  have htext : .char '.' :: gs ++ (blanks ++ (g :: gs' ++ rest)) =
      .char '.' :: (gs ++ (blanks ++ g :: gs')) ++ rest := by
    simp only [List.cons_append, List.append_assoc]
  rw [← List.append_assoc] at hdirective
  rw [htext] at hbefore ⊢
  exact ⟨before, _, rest, rfl, hbefore, hdirective.append (hblanks.append hl), hrest⟩

/-- If all files can be found and read, then their text can be pasted. -/
theorem exists_pasted_of_readLines {ld : Loader} {n : Nat} {file : String} {text : List Glyph}
    {ts : List Token} {last : Token} {lines whole : List Line} (hloads : ld.Loads n whole)
    (hsub : ∀ l ∈ lines, l ∈ whole)
    (hmakes : Makes ld.reader.defines [] text (ts.map Token.lexeme))
    (hplain : ∀ t ∈ ts, t.lexeme ≠ .endOfFile) (hlast : last.lexeme = .endOfFile)
    (hread : readLines file [] (ts ++ [last]) = (lines.reverse, none)) :
    ∃ text', Pasted ld file text text' := by
  -- an included file has fewer levels left, and what comes after it is shorter
  induction n using Nat.strongRecOn generalizing file text ts last lines whole with
  | ind n ihn =>
  induction hlength : ts.length using Nat.strongRecOn generalizing text ts lines with
  | ind m ih =>
  by_cases hsource : .directive "INCLUDE" ∈ ts.map Token.lexeme
  · obtain ⟨first, later, hls, hnone⟩ := List.eq_append_cons_of_mem hsource
    obtain ⟨before, after, rfl, rfl, hafter⟩ := List.map_eq_append_iff.mp hls
    obtain ⟨t, after, rfl, ht, rfl⟩ := List.map_eq_cons_iff.mp hafter
    rw [List.append_assoc] at hread
    obtain ⟨hplain₁, hplain⟩ := List.forall_mem_append.mp hplain
    have hcut : Ends (t :: (after ++ [last])) := .inr ⟨_, ht⟩
    have hkept : Kept (fun _ => True) before := by
      refine kept_of_readLines hcut (fun t ht => ⟨hplain₁ t ht, fun hl => ?_⟩) .nil hread
        fun _ _ _ _ _ => trivial
      exact hnone (hl ▸ List.mem_map_of_mem ht)
    obtain ⟨name, bytes, line, more, later, hcons, hlater, ⟨front, rfl⟩, -⟩ := hkept.cut ht hread
    obtain ⟨-, hsub⟩ := List.forall_mem_append.mp hsub
    obtain ⟨hincluded, hsub⟩ := List.forall_mem_cons.mp hsub
    cases after with
    | nil =>
        obtain ⟨rfl, -⟩ := List.cons.inj hcons
        cases hlast
    | cons s after =>
        obtain ⟨rfl, rfl⟩ := List.cons.inj hcons
        cases n with
        | zero => exact absurd hincluded (hloads _ _)
        | succ n =>
            obtain ⟨inner, content, lines₂, hfind, hcontent, hreads, hinner⟩ := hloads _ _ hincluded
            obtain ⟨ils, hmakes₂⟩ := Makes.of_scan hreads.scan
            obtain ⟨inside, insideLast, rfl, hplain₂, hlast₂, hread₂⟩ := hreads.tokens hmakes₂
            obtain ⟨inside', hinside⟩ :=
              ihn n (Nat.lt_succ_self n) hinner (fun _ hl => hl) hmakes₂ hplain₂ hlast₂ hread₂
            rw [hls] at hmakes
            obtain ⟨front, directive, rest, rfl, hfront, hdirective, hrest⟩ := makes_directive hmakes
            have hshorter : after.length < m := by
              rw [← hlength, List.length_append, List.length_cons, List.length_cons]
              omega
            obtain ⟨rest', hpasted⟩ := ih _ hshorter hsub hrest
              (List.forall_mem_cons.mp (List.forall_mem_cons.mp hplain).2).2 hlater rfl
            exact ⟨_, .source hfront hnone hdirective hfind hcontent hinside hpasted⟩
  · exact ⟨text, .kept hmakes hsource⟩

/-! ## Assembling the pasted text -/

namespace Loader

/-- The lines of a file of source text, and of the files that it includes, and so on. -/
inductive Brings (ld : Loader) (file : String) (text : List Glyph) : List Line → Prop
  | main {lines : List Line} : ld.reader.Reads file text lines → Brings ld file text lines
  | source {lines inner : List Line} {loc : Location} {name found : String} {bytes : List UInt8} :
      Brings ld file text lines → ⟨loc, .includeSource name⟩ ∈ lines → ld.find name loc = some found →
        ld.library.source found = .ok bytes → ld.reader.Reads found (Glyph.ofBytes bytes) inner →
          Brings ld file text inner

variable {ld : Loader} {file : String} {text : List Glyph} {lines : List Line}

/-- With a file, the files that it brings can be found and read. -/
theorem Brings.loads {n : Nat} (hloads : ∀ lines, ld.reader.Reads file text lines → ld.Loads n lines)
    (h : ld.Brings file text lines) : ∃ m, ld.Loads m lines := by
  induction h with
  | main hreads => exact ⟨n, hloads _ hreads⟩
  | @source lines inner loc name found bytes _ hmem hfind hbytes hreads ih =>
      obtain ⟨m, hm⟩ := ih
      cases m with
      | zero => exact absurd hmem (hm loc name)
      | succ m =>
          obtain ⟨found', bytes', inner', hfind', hbytes', hreads', hinner⟩ := hm loc name hmem
          obtain rfl : found = found' := Option.some.inj (hfind.symm.trans hfind')
          obtain rfl : bytes = bytes' := Except.ok.inj (hbytes.symm.trans hbytes')
          obtain rfl : inner = inner' := hreads.unique hreads'
          exact ⟨m, hinner⟩

/-- The files that they include are brought as well. -/
theorem Brings.sources {n : Nat} (h : ld.Brings file text lines)
    (hloads : ∀ lines, ld.reader.Reads file text lines → ld.Loads n lines) {loc : Location}
    {name : String} (hmem : ⟨loc, .includeSource name⟩ ∈ lines) :
    ∃ found bytes inner, ld.find name loc = some found ∧ ld.library.source found = .ok bytes ∧
      ld.reader.Reads found (Glyph.ofBytes bytes) inner ∧ ld.Brings file text inner := by
  obtain ⟨m, hm⟩ := h.loads hloads
  cases m with
  | zero => exact absurd hmem (hm loc name)
  | succ m =>
      obtain ⟨found, bytes, inner, hfound, hbytes, hinner, -⟩ := hm loc name hmem
      exact ⟨found, bytes, inner, hfound, hbytes, hinner, .source h hmem hfound hbytes hinner⟩

/-- If an assembly succeeds, then so does that of the text in which each include is
replaced by the text of its file, and the programs are the same but for locations.
Includes stand outside of blocks, and the names of binary files stand for the same files
seen from the file with the pasted text. -/
theorem pasted_assembles {asm : Assembler} (hasm : asm.includer = some ld.includer)
    {name main single : String} {bytes : List UInt8} (hfind : ld.find name {} = some main)
    (hbytes : ld.library.source main = .ok bytes)
    (hout : ∀ lines, ld.Brings main (Glyph.ofBytes bytes) lines → IncludesOutside lines)
    (hbinary : ∀ lines, ld.Brings main (Glyph.ofBytes bytes) lines → ∀ loc binary skip length,
      ⟨loc, .includeBinary binary skip length⟩ ∈ lines →
        ld.find binary loc = ld.find binary ⟨single, 1⟩)
    {s s₁ : Session} {a : Assembly} (hrun : (ld.topLevel name >>= asm.assemble) s = .ok a s₁) :
    (∃ text, Pasted ld main (Glyph.ofBytes bytes) text) ∧
      ∀ text, Pasted ld main (Glyph.ofBytes bytes) text → ∀ t : Session, t.ids.seq = s.ids.seq →
        ∃ a' t₁, (ld.reader.actions single text >>= asm.assemble) t = .ok a' t₁ ∧
          { a'.program with source := [] } = { a.program with source := [] } := by
  obtain ⟨acts, s₂, htop, hassemble⟩ := bind_eq_ok.mp hrun
  obtain ⟨main', bytes', s₃, hfind', hbytes', hids, hactions⟩ := source_found htop
  obtain rfl : main = main' := Option.some.inj (hfind.symm.trans hfind')
  obtain rfl : bytes = bytes' := Except.ok.inj (hbytes.symm.trans hbytes')
  obtain ⟨lines, b, hreads, hissue, hclosed, rfl, -⟩ := Reader.reads_of_actions hactions
  obtain ⟨included, u, u₁, hresolved⟩ := Assembler.resolves_of_assemble hassemble
  have hloads := Assembler.loads_of_resolveIncludes hasm hissue hclosed hresolved
  refine ⟨?_, fun text hpasted t hseq => ?_⟩
  · obtain ⟨ls, hmakes⟩ := Makes.of_scan hreads.scan
    obtain ⟨ts, last, rfl, hplain, hlast, hread⟩ := hreads.tokens hmakes
    exact exists_pasted_of_readLines hloads (fun _ hl => hl) hmakes hplain hlast hread
  -- every file brought in is closed, so the lines around an include can stand in one text
  · have hall : ld.Closed single (ld.Brings main (Glyph.ofBytes bytes)) :=
      ⟨hout, hbinary, fun _ h _ _ hmem =>
        h.sources (fun lines₁ hreads₁ => hreads.unique hreads₁ ▸ hloads) hmem⟩
    obtain ⟨ls, ls', hmakes, hmakes', hwoven⟩ := hpasted.woven
    obtain ⟨lines', hreads', hspliced⟩ :=
      hwoven.reads_text hall hmakes hmakes' hreads (.main hreads)
    have hrun₃ : (ld.reader.actions main (Glyph.ofBytes bytes) >>= asm.assemble) s₃ = .ok a s₁ :=
      bind_eq_ok.mpr ⟨_, s₂, hactions, hassemble⟩
    -- only the call numbers of the session enter the program
    have hseq₃ : s₃.ids.seq = t.ids.seq := by rw [hids, hseq]
    obtain ⟨a', t₁, hrun', hcore⟩ :=
      hspliced.assemble hasm hreads (hout _ (.main hreads)) hreads' hrun₃ hseq₃
    have hprogram : ∀ a : Assembly, { a.program with source := [] } =
        { Program.ofEngine a.engine.core with source := [] } := fun _ => rfl
    exact ⟨a', t₁, hrun', by rw [hprogram, hprogram, hcore]⟩

end Loader

/-- Lines that open no block have all includes outside of blocks. -/
theorem IncludesOutside.of_flat {lines : List Line} (h : ∀ l ∈ lines, l.statement.opens = 0) :
    IncludesOutside lines := by
  rintro before loc name after rfl
  induction before with
  | nil => rfl
  | cons l before ih =>
      obtain ⟨hl, hbefore⟩ := List.forall_mem_cons.mp h
      rw [openAfter, List.map_cons, List.sum_cons, hl, Int.zero_add]
      exact ih hbefore

/-- A file in memory is read by its name. -/
theorem Library.source_ofFiles {files : List (String × List UInt8)} {name : String}
    {bytes : List UInt8} (hname : Path.isBelow name = true) (hfile : files.lookup name = some bytes) :
    (Library.ofFiles files).source name = .ok bytes := by
  show readIn files name = _
  simp only [readIn, lookIn, hname, hfile, Bool.not_true, Bool.false_eq_true, if_false]

namespace Loader

/-- A file with `.INCLUDE "p"`, one with `@=0 X:.INCBIN "b"`, and a binary one. -/
def partFiles : List (String × List UInt8) :=
  [("m", [46, 73, 78, 67, 76, 85, 68, 69, 32, 34, 112, 34]),
    ("p", [64, 61, 48, 32, 88, 58, 46, 73, 78, 67, 66, 73, 78, 32, 34, 98, 34]), ("b", [33])]

def partLoader : Loader := { library := Library.ofFiles partFiles }

def partAssembler : Assembler := { includer := some partLoader.includer }

def partBytes (file : String) : List UInt8 := (partFiles.lookup file).getD []

def partLines (file : String) : List Line :=
  (linesOf file (Lexer.scan [] (Glyph.ofBytes (partBytes file))).tokens).1

/-- The lines open no block, and include the files by their names. -/
def isFlat (lines : List Line) : Bool :=
  lines.all fun l => l.statement.opens == 0 && match l.statement with
    | .includeSource name => partLoader.find name l.location == some "p"
    | .includeBinary name _ _ =>
      partLoader.find name l.location == some "b" && partLoader.find name ⟨"m", 1⟩ == some "b"
    | _ => true

theorem partLines_m : isFlat (partLines "m") = true := by cbv

theorem partLines_p : isFlat (partLines "p") = true := by cbv

theorem partLoader_source : partLoader.library.source "m" = .ok (partBytes "m") ∧
    partLoader.library.source "p" = .ok (partBytes "p") := by
  have hm : Path.isBelow "m" = true := by cbv
  have hp : Path.isBelow "p" = true := by cbv
  exact ⟨Library.source_ofFiles hm rfl, Library.source_ofFiles hp rfl⟩

theorem partLoader_find : partLoader.find "m" {} = some "m" := by cbv

theorem partLoader_assembles : isOkWith (fun a _ => a.program.labels == [("X", 0)])
    ((partLoader.topLevel "m" >>= partAssembler.assemble) {}) = true := by cbv

theorem pasted_assembles_partLoader :
    ∃ a s₁ text a' t₁, (partLoader.topLevel "m" >>= partAssembler.assemble) {} = .ok a s₁ ∧
      Pasted partLoader "m" (Glyph.ofBytes (partBytes "m")) text ∧
      (partLoader.reader.actions "m" text >>= partAssembler.assemble) {} = .ok a' t₁ ∧
      { a'.program with source := [] } = { a.program with source := [] } ∧
      a.program.labels = [("X", 0)] := by
  obtain ⟨a, s₁, hrun, hlabels⟩ := exists_of_isOkWith partLoader_assembles
  -- no other lines are brought than those of the two files
  have hall : ∀ lines, partLoader.Brings "m" (Glyph.ofBytes (partBytes "m")) lines →
      isFlat lines = true := by
    intro lines h
    induction h with
    | main hreads =>
        obtain rfl : partLines "m" = _ := congrArg Prod.fst hreads.lines
        exact partLines_m
    | @source lines inner loc name found bytes _ hmem hfound hbytes hreads ih =>
        have hname := List.all_eq_true.mp ih _ hmem
        rw [Bool.and_eq_true, beq_iff_eq, beq_iff_eq] at hname
        obtain rfl : found = "p" := Option.some.inj (hfound.symm.trans hname.2)
        obtain rfl : bytes = partBytes "p" := Except.ok.inj (hbytes.symm.trans partLoader_source.2)
        obtain rfl : partLines "p" = _ := congrArg Prod.fst hreads.lines
        exact partLines_p
  have hout : ∀ lines, partLoader.Brings "m" (Glyph.ofBytes (partBytes "m")) lines →
      IncludesOutside lines := by
    refine fun lines h => .of_flat fun l hl => ?_
    have hflat := List.all_eq_true.mp (hall lines h) l hl
    rw [Bool.and_eq_true, beq_iff_eq] at hflat
    exact hflat.1
  have hbinary : ∀ lines, partLoader.Brings "m" (Glyph.ofBytes (partBytes "m")) lines →
      ∀ loc binary skip length, ⟨loc, .includeBinary binary skip length⟩ ∈ lines →
        partLoader.find binary loc = partLoader.find binary ⟨"m", 1⟩ := by
    intro lines h loc binary skip length hl
    have hflat := List.all_eq_true.mp (hall lines h) _ hl
    simp only [Bool.and_eq_true, beq_iff_eq] at hflat
    exact hflat.2.1.trans hflat.2.2.symm
  obtain ⟨⟨text, hpasted⟩, hassembles⟩ := pasted_assembles (rfl : partAssembler.includer = _)
    partLoader_find partLoader_source.1 hout hbinary hrun
  obtain ⟨a', t₁, hrun', hsame⟩ := hassembles text hpasted {} rfl
  exact ⟨a, s₁, text, a', t₁, hrun, hpasted, hrun', hsame, beq_iff_eq.mp hlabels⟩

end Loader
end Mos6510
