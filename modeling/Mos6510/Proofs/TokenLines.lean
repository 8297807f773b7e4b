import Mos6510.Proofs.Encoding
import Mos6510.Proofs.Pieces

/-!
# The lines of tokens

`pieces` are the tokens of source text with the bytes that they are read from.  A step
counts the new lines of what it takes (`step_counts`), so a token has the line of its
first byte, but for a string, which has the line of its closing quote: the two differ
where a string goes over several lines.  `scan_lines` says so of all tokens of a text.
-/

namespace Mos6510

open Text (Glyph)

namespace Lexer

/-! ## New lines -/

/-- The new lines among bytes. -/
def newlines (bytes : List UInt8) : Nat := bytes.count 0x0A

/-- The new lines among glyphs. -/
def lineEnds (gs : List Glyph) : Nat := gs.countP (·.is '\n')

theorem newlines_append (bs bs' : List UInt8) : newlines (bs ++ bs') = newlines bs + newlines bs' :=
  List.count_append

theorem newlines_take_mono (bs : List UInt8) {m n : Nat} (h : m ≤ n) :
    newlines (bs.take m) ≤ newlines (bs.take n) :=
  (List.take_sublist_take_left h).count_le _

theorem lineEnds_append (gs gs' : List Glyph) : lineEnds (gs ++ gs') = lineEnds gs + lineEnds gs' :=
  List.countP_append

/-- No glyph is a new line. -/
theorem lineEnds_eq_zero {gs : List Glyph} (h : ∀ g ∈ gs, g.is '\n' = false) : lineEnds gs = 0 :=
  List.countP_eq_zero.mpr fun g hg => by rw [h g hg]; exact Bool.false_ne_true

theorem lineEnds_cons {g : Glyph} (hg : g.is '\n' = false) (gs : List Glyph) :
    lineEnds (g :: gs) = lineEnds gs :=
  List.countP_cons_of_neg (by rw [hg]; exact Bool.false_ne_true)

theorem lineEnds_takeWhile {p : Glyph → Bool} (hp : ∀ g, p g = true → g.is '\n' = false)
    (gs : List Glyph) : lineEnds (gs.takeWhile p) = 0 :=
  lineEnds_eq_zero fun g hg => hp g (List.mem_takeWhile_imp hg)

/-- The new lines among the glyphs of bytes are those among the bytes. -/
theorem newlines_flatMap {gs : List Glyph} (h : ∀ g ∈ gs, g ≠ .stray 0x0A) :
    newlines (gs.flatMap Glyph.bytes) = lineEnds gs := by
  induction gs with
  | nil => rfl
  | cons g gs ih =>
      obtain ⟨hg, hgs⟩ := List.forall_mem_cons.mp h
      rw [List.flatMap_cons, newlines_append, ih hgs, newlines, Glyph.count_bytes hg]
      exact (Nat.add_comm _ _).trans List.countP_cons.symm

/-! ## Steps -/

def isString (l : Lexeme) : Bool := l.kind == .string

/-- The step goes on behind the new lines that it takes of the text.  A string that it makes
is on the line where it goes on, any other token on the line where the step starts. -/
def Step.Counts (line : Nat) (text : List Glyph) : Step → Prop
  | .skip taken last => last = line + lineEnds (text.take taken)
  | .emit token taken last => last = line + lineEnds (text.take taken) ∧
      token.line = if isString token.lexeme then last else line
  | .fail _ _ => True

namespace Step.Counts

variable {line : Nat} {text : List Glyph}

theorem fail (err : Error) (last : Nat) : (Step.fail err last).Counts line text := trivial

/-- No new line is taken. -/
theorem skip {taken : Nat} (htaken : lineEnds (text.take taken) = 0) :
    (Step.skip taken line).Counts line text :=
  (congrArg (line + ·) htaken).symm

/-- No new line is taken, and the token is no string. -/
theorem emit {l : Lexeme} {taken : Nat} (hl : isString l = false)
    (htaken : lineEnds (text.take taken) = 0) :
    (Step.emit ⟨l, line⟩ taken line).Counts line text := by
  refine ⟨by rw [htaken, Nat.add_zero], ?_⟩
  rw [if_neg (by rw [hl]; exact Bool.false_ne_true)]

end Step.Counts

variable {line : Nat} {g : Glyph} {gs rest : List Glyph}

/-- What a class of glyphs takes is what is taken by its length. -/
theorem take_takeWhile (p : Glyph → Bool) (gs : List Glyph) :
    gs.take (gs.takeWhile p).length = gs.takeWhile p :=
  (List.prefix_iff_eq_take.mp (List.takeWhile_prefix p)).symm

theorem is_newline_of_isWordGlyph (g : Glyph) (h : isWordGlyph g = true) : g.is '\n' = false := by
  rw [Glyph.is, beq_eq_false_iff_ne]
  rintro rfl
  revert h
  decide +kernel

theorem counts_comment (gs : List Glyph) : (Step.skip (comment gs).length line).Counts line gs := by
  refine .skip ?_
  rw [comment, take_takeWhile]
  exact lineEnds_takeWhile (fun g h => by simpa using h) gs

theorem counts_directive (hg : g.is '\n' = false) : (directive line rest).Counts line (g :: rest) := by
  have hnone : lineEnds (word rest) = 0 := lineEnds_takeWhile is_newline_of_isWordGlyph rest
  unfold directive
  split
  · exact .fail _ _
  · refine .emit rfl ?_
    rw [Nat.add_comm, List.take_succ_cons, lineEnds_cons hg, word, take_takeWhile]
    exact hnone

/-! ### Strings and scripts -/

theorem lineAfter_eq (g : Glyph) (line : Nat) : lineAfter g line = line + lineEnds [g] := by
  unfold lineAfter lineEnds
  cases hg : g.is '\n' <;> simp [hg]

/-- A glyph in front of an inside that ends on the line that its new lines say. -/
theorem counts_cons {used last : Nat}
    (h : last = lineAfter g line + lineEnds (gs.take used)) :
    last = line + lineEnds ((g :: gs).take (used + 1)) := by
  rw [h, lineAfter_eq, List.take_succ_cons, Nat.add_assoc, ← lineEnds_append]
  rfl

theorem counts_stringBody {used last : Nat} {cs : List Char}
    (h : stringBody line gs = .ok (cs, used, last)) : last = line + lineEnds (gs.take used) := by
  fun_induction stringBody line gs generalizing cs used with
  | case1 | case4 | case5 => cases h
  | case2 line rest =>
      cases h
      rfl
  | case3 line e rest c hc ih =>
      obtain ⟨cs', used', hbody, rfl, rfl⟩ := Body.cons_eq_ok h
      have he : e.is '\n' = false := by
        rw [Glyph.is, beq_eq_false_iff_ne]
        rintro rfl
        cases hc
      rw [List.take_succ_cons, List.take_succ_cons, lineEnds_cons rfl, lineEnds_cons he]
      exact ih hbody
  | case6 line g rest hquote hescape hslash ih =>
      obtain ⟨cs', used', hbody, rfl, rfl⟩ := Body.cons_eq_ok h
      exact counts_cons (ih hbody)

theorem counts_scriptBody {depth used last : Nat} {cs : List Char}
    (h : scriptBody depth line gs = .ok (cs, used, last)) : last = line + lineEnds (gs.take used) := by
  fun_induction scriptBody depth line gs generalizing cs used with
  | case1 => cases h
  | case2 line rest =>
      cases h
      rfl
  | case3 depth line rest ih | case4 depth line rest ih =>
      obtain ⟨cs', used', hbody, rfl, rfl⟩ := Body.cons_eq_ok h
      rw [List.take_succ_cons, lineEnds_cons rfl]
      exact ih hbody
  | case5 depth line g rest hclose hclose' hopen ih =>
      obtain ⟨cs', used', hbody, rfl, rfl⟩ := Body.cons_eq_ok h
      exact counts_cons (ih hbody)

section

variable {lead : List Glyph}

/-- Behind what opens it, the new lines of an inside count. -/
theorem lineEnds_take_append (hlead : lineEnds lead = 0) (used : Nat) :
    lineEnds ((lead ++ gs).take (lead.length + used)) = lineEnds (gs.take used) := by
  rw [List.take_length_add_append, lineEnds_append, hlead, Nat.zero_add]

theorem counts_string (screen : Bool) (hlead : lineEnds lead = 0) :
    (string screen lead.length line gs).Counts line (lead ++ gs) := by
  unfold string
  split
  · exact .fail _ _
  · rename_i cs used last hbody
    refine ⟨?_, rfl⟩
    rw [lineEnds_take_append hlead]
    exact counts_stringBody hbody

theorem counts_script (defines : List (String × Int64)) (hlength : lead.length = 2)
    (hlead : lineEnds lead = 0) : (script defines line gs).Counts line (lead ++ gs) := by
  unfold script
  split
  · exact .fail _ _
  · rename_i cs used last hbody
    dsimp only
    split
    · refine ⟨?_, rfl⟩
      rw [← hlength, lineEnds_take_append hlead]
      exact counts_scriptBody hbody
    · exact .fail _ _

end

/-! ### Numbers, signs and names -/

theorem lineEnds_numberLead (gs : List Glyph) : lineEnds (gs.take (numberLead gs).2) = 0 := by
  unfold numberLead
  split <;> rfl

theorem counts_number (gs : List Glyph) : (number line gs).Counts line gs := by
  have hlead := lineEnds_numberLead gs
  unfold number
  generalize numberLead gs = lead at hlead ⊢
  obtain ⟨base, lead⟩ := lead
  dsimp only
  split
  · refine .emit rfl ?_
    have hdigits : lineEnds ((gs.drop lead).takeWhile
        fun g => (Text.digitIn? base g.toChar).isSome) = 0 := by
      refine lineEnds_takeWhile (fun g h => ?_) _
      rw [Glyph.is, beq_eq_false_iff_ne]
      rintro rfl
      simp [Glyph.toChar, Text.digitIn?, Text.digitValue?] at h
    rw [List.take_add, lineEnds_append, hlead, digitsOf, List.length_map, take_takeWhile, hdigits]
  · exact .fail _ _

theorem counts_sign {s : Sign} (h : sign? gs = some s) :
    (Step.emit ⟨.operator s, line⟩ s.chars.length line).Counts line gs := by
  have hfits := List.find?_some h
  have hprefix := List.prefix_iff_eq_take.mp (List.isPrefixOf_iff_prefix.mp hfits)
  rw [List.length_map] at hprefix
  refine .emit rfl ?_
  rw [← hprefix]
  cases s <;> rfl

theorem counts_name (gs : List Glyph) : (name line gs).Counts line gs := by
  have hword : lineEnds (gs.take (word gs).length) = 0 := by
    rw [word, take_takeWhile]
    exact lineEnds_takeWhile is_newline_of_isWordGlyph _
  unfold name
  dsimp only
  split
  · exact .fail _ _
  split
  · rename_i hcolon
    refine .emit rfl ?_
    rw [beq_iff_eq, List.head?_drop] at hcolon
    rw [List.take_add_one, hcolon, lineEnds_append, hword]
    rfl
  split
  · exact .emit rfl hword
  · exact .emit rfl hword

/-- A step counts the new lines of what it takes. -/
theorem step_counts (defines : List (String × Int64)) (line : Nat) (g : Glyph) (rest : List Glyph) :
    (step defines line g rest).Counts line (g :: rest) := by
  have hstarts := step_starts defines line g rest
  generalize step defines line g rest = s at hstarts ⊢
  cases hstarts with
  | newline => exact rfl
  | space _ hspace =>
      have hg : g.is '\n' = false := by
        rw [Glyph.is, beq_eq_false_iff_ne]
        rintro rfl
        cases hspace
      exact .skip (lineEnds_cons hg [])
  | comment => exact counts_comment _
  | directive => exact counts_directive rfl
  | lone _ hl hg =>
      simp only [lones, List.mem_cons, List.not_mem_nil, or_false] at hl
      rcases hl with rfl | rfl | rfl | rfl | rfl | rfl <;> exact .emit rfl (lineEnds_cons hg [])
  | string rest => exact @counts_string line rest [.char '"'] false rfl
  | marked screen rest hg => exact @counts_string line rest [g, .char '"'] screen (lineEnds_cons hg _)
  | script rest => exact @counts_script line rest [.char '$', .char '('] defines rfl rfl
  | number => exact counts_number _
  | sign _ hsign => exact counts_sign hsign
  | name => exact counts_name _
  | unknown => exact .fail _ _

/-! ## Places of tokens -/

/-- A token, with the bytes of the text before it and its own. -/
structure Piece where
  token : Token
  start : Nat
  size : Nat
  deriving DecidableEq

/-- The number of bytes of some glyphs. -/
def sizeOf (gs : List Glyph) : Nat := (gs.flatMap Glyph.bytes).length

/-- The tokens of text and their places, from a number of bytes on. -/
def piecesFrom (defines : List (String × Int64)) (line start : Nat) : List Glyph → List Piece
  | [] => []
  | g :: rest =>
    match stepAt defines line g rest with
    | ⟨.skip taken line, _⟩ =>
      piecesFrom defines line (start + sizeOf ((g :: rest).take taken)) ((g :: rest).drop taken)
    | ⟨.emit token taken line, _⟩ =>
      ⟨token, start, sizeOf ((g :: rest).take taken)⟩ ::
        piecesFrom defines line (start + sizeOf ((g :: rest).take taken)) ((g :: rest).drop taken)
    | ⟨.fail _ _, _⟩ => []
termination_by gs => gs.length
decreasing_by
  · rename_i hadvances
    exact length_drop_lt (hadvances rfl)
  · rename_i hadvances
    exact length_drop_lt (hadvances rfl)

/-- The tokens of source text and their places, up to the end of the file. -/
def pieces (defines : List (String × Int64)) (bytes : List UInt8) : List Piece :=
  piecesFrom defines 1 0 (Glyph.ofBytes bytes)

/-- The place is within the bytes.  A string is on the line of its end, any other token on the
line of its start. -/
structure Piece.Placed (bytes : List UInt8) (p : Piece) : Prop where
  size_pos : 0 < p.size
  end_le : p.start + p.size ≤ bytes.length
  line : p.token.line =
    1 + newlines (bytes.take (if isString p.token.lexeme then p.start + p.size else p.start))

section

variable {defines : List (String × Int64)} {before : List UInt8} {text : List Glyph}

/-- The line behind some bytes and glyphs of the text after them. -/
theorem line_behind (hgs : ∀ g ∈ gs, g ≠ .stray 0x0A) :
    1 + newlines before + lineEnds gs = 1 + newlines (before ++ gs.flatMap Glyph.bytes) := by
  rw [newlines_append, newlines_flatMap hgs, Nat.add_assoc]

theorem start_behind (before : List UInt8) (gs : List Glyph) :
    before.length + sizeOf gs = (before ++ gs.flatMap Glyph.bytes).length := by
  rw [List.length_append, sizeOf]

/-- The bytes of a token are behind the bytes before it. -/
theorem placed_behind {token : Token} (more : List UInt8)
    (hline : token.line = if isString token.lexeme
      then 1 + newlines (before ++ (g :: gs).flatMap Glyph.bytes) else 1 + newlines before) :
    Piece.Placed (before ++ (g :: gs).flatMap Glyph.bytes ++ more)
      ⟨token, before.length, sizeOf (g :: gs)⟩ := by
  have hend : before.length + sizeOf (g :: gs) = (before ++ (g :: gs).flatMap Glyph.bytes).length :=
    start_behind before (g :: gs)
  constructor
  · have hg : 0 < g.bytes.length := by
      cases g with
      | stray => exact Nat.one_pos
      | char c => exact List.length_pos_iff.mpr String.utf8EncodeChar_ne_nil
    rw [sizeOf, List.flatMap_cons, List.length_append]
    exact Nat.add_pos_left hg _
  · rw [hend]
    exact (List.sublist_append_left _ more).length_le
  · dsimp only
    rw [hline]
    split
    · rw [hend, List.take_left]
    · rw [List.append_assoc, List.take_left]

/-- Text behind some bytes, on the line behind them, is read as the tokens of its pieces. -/
theorem piecesFrom_placed {line start : Nat} {done : List Token} (hline : line = 1 + newlines before)
    (hstart : start = before.length) (hproper : ∀ g ∈ text, g ≠ .stray 0x0A)
    (h : (scanFrom defines line done text).error = none) :
    let ps := piecesFrom defines line start text
    let all := before ++ text.flatMap Glyph.bytes
    scanFrom defines line done text =
        ⟨done.reverse ++ (ps.map Piece.token ++ [⟨.endOfFile, 1 + newlines all⟩]), 1 + newlines all, none⟩ ∧
      (∀ p ∈ ps, before.length ≤ p.start ∧ p.Placed all) ∧
        ps.Pairwise fun p q => p.start + p.size ≤ q.start := by
  -- behind a step the bytes that it takes are among those before the text
  have hcut : ∀ {g : Glyph} {gs text : List Glyph} (before : List UInt8),
      before ++ (g :: (gs ++ text)).flatMap Glyph.bytes =
        before ++ (g :: gs).flatMap Glyph.bytes ++ text.flatMap Glyph.bytes := by
    intro g gs text before
    rw [List.append_assoc, ← List.flatMap_append, List.cons_append]
  have htake : ∀ (g : Glyph) (gs text : List Glyph), (g :: (gs ++ text)).take (gs.length + 1) = g :: gs :=
    fun g gs text => by rw [List.take_succ_cons, List.take_left]
  have hdrop : ∀ (g : Glyph) (gs text : List Glyph), (g :: (gs ++ text)).drop (gs.length + 1) = text :=
    fun g gs text => by rw [List.drop_succ_cons, List.drop_left]
  fun_induction piecesFrom defines line start text generalizing before done with
  | case1 line start =>
      subst hline
      simp only [scanFrom_nil, List.flatMap_nil, List.append_nil]
      exact ⟨by simp, fun p hp => absurd hp List.not_mem_nil, .nil⟩
  | case2 line start g rest taken line' _ hat ih =>
      have hstep : step defines line g rest = _ := congrArg Subtype.val hat
      have hcounts := step_counts defines line g rest
      obtain ⟨gs, text, rfl, rfl⟩ := step_cut (congrArg Step.takes? hstep)
      have hgs : ∀ g' ∈ g :: gs, g' ≠ .stray 0x0A := fun g' hg' =>
        hproper g' (List.mem_append_left text hg')
      rw [hstep, Step.Counts, htake, hline, line_behind hgs] at hcounts
      rw [scanFrom_skip hstep, hdrop] at h
      rw [scanFrom_skip hstep, hcut, htake, hdrop]
      rw [htake, hdrop] at ih
      obtain ⟨hscan, hplaced, hpairwise⟩ := ih hcounts (by rw [hstart, start_behind])
        (fun g' hg' => hproper g' (List.mem_cons_of_mem g (List.mem_append_right gs hg'))) h
      refine ⟨hscan, fun p hp => ⟨?_, (hplaced p hp).2⟩, hpairwise⟩
      have hle := (hplaced p hp).1
      rw [List.length_append] at hle
      omega
  | case3 line start g rest token taken line' _ hat ih =>
      have hstep : step defines line g rest = _ := congrArg Subtype.val hat
      have hcounts := step_counts defines line g rest
      obtain ⟨gs, text, rfl, rfl⟩ := step_cut (congrArg Step.takes? hstep)
      have hgs : ∀ g' ∈ g :: gs, g' ≠ .stray 0x0A := fun g' hg' =>
        hproper g' (List.mem_append_left text hg')
      rw [hstep, Step.Counts, htake, hline, line_behind hgs] at hcounts
      obtain ⟨hlast, htoken⟩ := hcounts
      rw [scanFrom_emit hstep, hdrop] at h
      rw [scanFrom_emit hstep, hcut, htake, hdrop]
      have hend : start + sizeOf (g :: gs) = (before ++ (g :: gs).flatMap Glyph.bytes).length := by
        rw [hstart, start_behind]
      rw [htake, hdrop] at ih
      obtain ⟨hscan, hplaced, hpairwise⟩ := ih hlast hend
        (fun g' hg' => hproper g' (List.mem_cons_of_mem g (List.mem_append_right gs hg'))) h
      refine ⟨?_, List.forall_mem_cons.mpr ⟨⟨hstart.ge, ?_⟩, fun p hp => ⟨?_, (hplaced p hp).2⟩⟩,
        List.pairwise_cons.mpr ⟨fun p hp => ?_, hpairwise⟩⟩
      · rw [hscan, List.reverse_cons, List.append_assoc]
        rfl
      · rw [hstart]
        exact placed_behind _ (by rw [htoken, hlast])
      · have hle := (hplaced p hp).1
        rw [List.length_append] at hle
        omega
      · rw [hend]
        exact (hplaced p hp).1
  | case4 line start g rest err line' _ hat =>
      have hstep : step defines line g rest = _ := congrArg Subtype.val hat
      rw [scanFrom_fail hstep] at h
      cases h

end

/-- A token is on the line of its first byte, unless it is a string with a new line in it. -/
theorem Piece.Placed.line_eq_iff {bytes : List UInt8} {p : Piece} (h : p.Placed bytes) :
    p.token.line = 1 + newlines (bytes.take p.start) ↔
      (isString p.token.lexeme = true → newlines ((bytes.drop p.start).take p.size) = 0) := by
  rw [h.line]
  split
  · rename_i hstring
    rw [List.take_add, newlines_append]
    exact ⟨fun heq _ => by omega, fun hnone => by rw [hnone hstring, Nat.add_zero]⟩
  · rename_i hno
    exact iff_of_true rfl fun hstring => absurd hstring hno

/-- Later tokens are on no earlier lines. -/
theorem Piece.Placed.line_le {bytes : List UInt8} {p q : Piece} (hp : p.Placed bytes)
    (hq : q.Placed bytes) (h : p.start + p.size ≤ q.start) : p.token.line ≤ q.token.line := by
  rw [hp.line, hq.line]
  refine Nat.add_le_add_left (newlines_take_mono bytes ?_) 1
  split <;> split <;> omega

theorem Piece.Placed.line_le_last {bytes : List UInt8} {p : Piece} (hp : p.Placed bytes) :
    p.token.line ≤ 1 + newlines bytes := by
  rw [hp.line]
  exact Nat.add_le_add_left ((List.take_sublist _ bytes).count_le _) 1

/-- Of every text that is read without fault: the tokens are those of its pieces, which are
behind each other, and then the end of the file on the last line, which is behind all new
lines.  A token has the line of its first byte, unless it is a string with a new line in it:
a string has the line of its end.  So the lines of tokens never decrease. -/
theorem scan_lines (defines : List (String × Int64)) (bytes : List UInt8)
    (h : (scan defines (Glyph.ofBytes bytes)).error = none) :
    scan defines (Glyph.ofBytes bytes) =
        ⟨(pieces defines bytes).map Piece.token ++ [⟨.endOfFile, 1 + newlines bytes⟩],
          1 + newlines bytes, none⟩ ∧
      (pieces defines bytes).Pairwise (fun p q => p.start + p.size ≤ q.start) ∧
      (∀ p ∈ pieces defines bytes, p.Placed bytes ∧
        (p.token.line = 1 + newlines (bytes.take p.start) ↔
          (isString p.token.lexeme = true → newlines ((bytes.drop p.start).take p.size) = 0))) ∧
      (scan defines (Glyph.ofBytes bytes)).tokens.Pairwise (fun t t' => t.line ≤ t'.line) := by
  have hproper : ∀ g ∈ Glyph.ofBytes bytes, g ≠ .stray 0x0A := fun g hg =>
    Glyph.ne_stray_of_mem_split hg (by decide)
  obtain ⟨hscan, hplaced, hpairwise⟩ := @piecesFrom_placed defines [] _ 1 0 [] rfl rfl hproper h
  rw [List.nil_append, Glyph.flatMap_bytes_ofBytes] at hscan hplaced
  refine ⟨hscan, hpairwise, fun p hp => ⟨(hplaced p hp).2, (hplaced p hp).2.line_eq_iff⟩, ?_⟩
  have htokens : (scan defines (Glyph.ofBytes bytes)).tokens = _ := congrArg Scan.tokens hscan
  rw [htokens, List.reverse_nil, List.nil_append]
  refine List.pairwise_append.mpr ⟨List.pairwise_map.mpr ?_, List.pairwise_singleton _ _, ?_⟩
  · exact hpairwise.imp_of_mem fun hp hq hle => (hplaced _ hp).2.line_le (hplaced _ hq).2 hle
  · intro t ht last hlast
    obtain ⟨p, hp, rfl⟩ := List.mem_map.mp ht
    obtain rfl := List.mem_singleton.mp hlast
    exact (hplaced p hp).2.line_le_last

/-- A text of a string and the program counter, on two lines. -/
def stringThenPc : List UInt8 := [0x22, 0x61, 0x22, 0x0A, 0x40]

theorem scan_lines_stringThenPc :
    (scan [] (Glyph.ofBytes stringThenPc)).error = none ∧
      ∀ p ∈ pieces [] stringThenPc, p.token.line = 1 + newlines (stringThenPc.take p.start) := by
  have herror : (scan [] (Glyph.ofBytes stringThenPc)).error = none := by decide +kernel
  obtain ⟨-, -, hplaced, -⟩ := scan_lines [] stringThenPc herror
  exact ⟨herror, fun p hp => (hplaced p hp).2.mpr fun _ => by revert p; decide +kernel⟩

/-- A string over two lines starts on the first, and has the second as its line. -/
theorem string_over_lines :
    (scan [] (Glyph.ofBytes [0x22, 0x61, 0x0A, 0x62, 0x22])).error = none ∧
      pieces [] [0x22, 0x61, 0x0A, 0x62, 0x22] = [⟨⟨.string "a\nb" [0x61, 0x0A, 0x62], 2⟩, 0, 5⟩] ∧
        1 + newlines (List.take 0 [0x22, 0x61, 0x0A, 0x62, 0x22]) = 1 := by
  decide +kernel

end Lexer

end Mos6510
