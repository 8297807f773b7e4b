import Mathlib
import Mos6510.Proofs.Modes
import Mos6510.Proofs.Phrases

/-!
# Statements read back

Phrases that are written one after another are read as the statements they
stand for, to the last token (`Reader.actions_phrases`).  The first token of a
phrase says which one it is (`Phrase.linesAfter_is`), and it ends where the
next phrase begins, or the file does.  Two forms of operands are at the
expense of others: after a branch there is no other than a destination or an
immediate value, so that parentheses group there (`branchIndirect_misread`).
-/

namespace Mos6510

open Parse

namespace Statement

variable {file : String} {rest : List Token}

/-! ## Reading lines -/

/-- The reading has the lines, and leaves the rest of the tokens. -/
def Reading.Is {ts : List Token} (r : Reading ts) (lines : List Line) (rest : List Token) : Prop :=
  r.lines = lines ∧ ∃ last, r.rest = .ok last ∧ last.val = rest

theorem single_is {p : Parse Statement} {s : Statement} (hp : Reads p file ts s rest)
    (loc : Location) : (Reading.single loc (p file ts)).Is [⟨loc, s⟩] rest := by
  obtain ⟨last, hp, rfl⟩ := hp
  rw [hp]
  exact ⟨rfl, last, rfl, rfl⟩

theorem dataItems_is (word : Bool) (file : String) {first : Item} {more : List (Nat × Item)}
    (hfits : (first.fits && more.all (·.2.fits)) = true) (hrest : Begins rest) :
    (dataItems word file (first.tokens ++ (behindCommas Item.tokens more ++ rest))).Is
      (Phrase.itemLines file word first more) rest := by
  induction more generalizing first with
  | nil =>
      obtain ⟨last, hitem, hval⟩ :=
        reads_dataItem word file (Bool.and_eq_true_iff.mp hfits).1 hrest.stops
      show (dataItems word file (first.tokens ++ rest)).Is _ _
      rw [dataItems, hitem]
      split
      · rename_i heq
        cases heq
      · rename_i heq
        cases heq
        exact absurd (by rw [← hval]; rfl) (hrest.front_ne (.inl rfl))
      · rename_i heq
        cases heq
        exact ⟨rfl, _, rfl, hval⟩
  | cons m more ih =>
      rw [List.all_cons, Bool.and_eq_true_iff] at hfits
      obtain ⟨hlines, last, hlast, hval⟩ := ih hfits.2
      -- the item ends at its comma, or at what begins the next statement
      have hstops := stops_behindCommas Item.tokens (m :: more) hrest
      rw [behindCommas_cons_append] at hstops ⊢
      obtain ⟨⟨_, hle⟩, hitem, rfl⟩ := reads_dataItem word file hfits.1 hstops
      rw [dataItems, hitem]
      simp only [hlast, hlines]
      exact ⟨rfl, _, rfl, hval⟩

theorem repeatedItems_is (word : Bool) (file : String) (loc : Location) {count : Term} (comma : Nat)
    {first : Item} {more : List (Nat × Item)} (hcount : count.fits 0 = true)
    (hfits : (first.fits && more.all (·.2.fits)) = true) (hrest : Begins rest) :
    (repeatedItems word loc file
      (count.tokens ++ ⟨.comma, comma⟩ :: (first.tokens ++ (behindCommas Item.tokens more ++ rest)))).Is
      (⟨loc, .openRepeat (count.expr file).actions⟩ :: Phrase.itemLines file word first more ++
        [⟨loc, .closeRepeat⟩]) rest := by
  have hread : Reads dataCount file
      (count.tokens ++ ⟨.comma, comma⟩ :: (first.tokens ++ (behindCommas Item.tokens more ++ rest)))
      (count.expr file).actions (first.tokens ++ (behindCommas Item.tokens more ++ rest)) :=
    (count.reads_expression hcount (stops_comma _ _)).bind ((reads_expect _ _).bind (.pure _))
  obtain ⟨hlines, last, hlast, hval⟩ := dataItems_is word file hfits hrest
  obtain ⟨⟨_, hle⟩, hread, rfl⟩ := hread
  rw [repeatedItems, hread]
  simp only [hlast, hlines]
  exact ⟨rfl, _, rfl, hval⟩

end Statement

open Statement

/-- What the first token of a phrase starts is the whole phrase. -/
theorem Phrase.linesAfter_is (file : String) {p : Phrase} {rest : List Token}
    (hfits : p.fits = true) (hclear : p.isClear = true) (hbranch : p.branchesSomewhere = true)
    (hrest : Begins rest) :
    ∃ t ts, p.tokens ++ rest = t :: ts ∧ t.lexeme ≠ .endOfFile ∧
      (linesAfter t file ts).Is (p.lines file) rest := by
  -- the first token decides which function reads on; the phrase is what that one takes
  cases p with
  | label line name => exact ⟨_, _, rfl, nofun, rfl, .all rest, rfl, rfl⟩
  | assign line name sign x =>
      refine ⟨_, _, rfl, nofun, single_is ?_ ⟨file, line⟩⟩
      exact (reads_expect _ _).bind ((x.reads_expression hfits hrest.stops).bind (.pure _))
  | assignPc line sign x =>
      refine ⟨_, _, rfl, nofun, single_is ?_ ⟨file, line⟩⟩
      exact (reads_expect _ _).bind ((x.reads_expression hfits hrest.stops).bind (.pure _))
  | instruction line m operand =>
      refine ⟨_, _, rfl, nofun, single_is ?_ ⟨file, line⟩⟩
      exact (reads_operand hfits hclear hbranch hrest).bind (.pure _)
  | data line word first more =>
      have hitems := dataItems_is word file hfits hrest
      refine ⟨_, _, rfl, nofun, ?_⟩
      rw [← List.append_assoc] at hitems
      cases word <;> exact hitems
  | repeated line word count comma first more =>
      simp only [fits, Bool.and_assoc] at hfits
      obtain ⟨hcount, hfits⟩ := Bool.and_eq_true_iff.mp hfits
      have hitems := repeatedItems_is word file ⟨file, line⟩ comma
        hcount hfits hrest
      refine ⟨_, _, rfl, nofun, ?_⟩
      rw [← List.append_assoc, ← List.cons_append, ← List.append_assoc] at hitems
      cases word <;> exact hitems
  | test line directive x =>
      refine ⟨_, _, rfl, nofun, ?_⟩
      have hx : Reads expression file (x.tokens ++ rest) (x.expr file).actions rest :=
        x.reads_expression hfits hrest.stops
      cases directive <;> exact single_is (hx.bind (.pure _)) ⟨file, line⟩
  | bare line directive =>
      refine ⟨_, _, rfl, nofun, ?_⟩
      cases directive <;> exact @single_is file _ _ _ _ (.pure _) ⟨file, line⟩
  | openMacro line name params =>
      exact ⟨_, _, rfl, nofun, single_is (reads_macroAfter name hfits hrest) ⟨file, line⟩⟩
  | call line name args =>
      exact ⟨_, _, rfl, nofun, single_is (reads_callAfter name hfits hrest) ⟨file, line⟩⟩
  | metaLabel line name =>
      exact ⟨_, _, rfl, nofun, single_is ((reads_identifier name).bind (.pure _)) ⟨file, line⟩⟩
  | goto line name =>
      exact ⟨_, _, rfl, nofun, single_is ((reads_identifier name).bind (.pure _)) ⟨file, line⟩⟩
  | includeSource line name =>
      exact ⟨_, _, rfl, nofun, single_is ((reads_quoted _ _).bind (.pure _)) ⟨file, line⟩⟩
  | includeBinary line name part =>
      exact ⟨_, _, rfl, nofun, single_is (reads_binaryAfter name hfits hrest) ⟨file, line⟩⟩
  | message line level formatted first more =>
      have hread := reads_messageAfter file ⟨file, line⟩ level formatted hfits hrest
      refine ⟨_, _, rfl, nofun, ?_⟩
      rw [← List.append_assoc] at hread
      cases level <;> cases formatted <;> exact single_is hread ⟨file, line⟩

/-- A phrase is read, and the lines after it. -/
theorem readLines_phrase {file : String} {p : Phrase} {rest : List Token}
    (hfits : p.fits = true) (hclear : p.isClear = true) (hbranch : p.branchesSomewhere = true)
    (hrest : Begins rest) (done : List Line) :
    readLines file done (p.tokens ++ rest) =
      readLines file ((p.lines file).reverse ++ done) rest := by
  obtain ⟨t, ts, htokens, hend, hlines, last, hlast, rfl⟩ :=
    Phrase.linesAfter_is file hfits hclear hbranch hrest
  rw [htokens, readLines, if_neg hend]
  simp only [hlines, hlast]

/-- All phrases are read, and the lines after them. -/
theorem readLines_phrases {file : String} {ps : List Phrase} {rest : List Token}
    (hfits : ∀ p ∈ ps, p.fits = true) (hclear : ∀ p ∈ ps, p.isClear = true)
    (hbranch : ∀ p ∈ ps, p.branchesSomewhere = true) (hrest : Begins rest) (done : List Line) :
    readLines file done (ps.flatMap Phrase.tokens ++ rest) =
      readLines file ((ps.flatMap (Phrase.lines file)).reverse ++ done) rest := by
  induction ps generalizing done with
  | nil => rfl
  | cons p ps ih =>
      obtain ⟨hfits, hfits'⟩ := List.forall_mem_cons.mp hfits
      obtain ⟨hclear, hclear'⟩ := List.forall_mem_cons.mp hclear
      obtain ⟨hbranch, hbranch'⟩ := List.forall_mem_cons.mp hbranch
      have hnext : Begins (ps.flatMap Phrase.tokens ++ rest) := by
        cases ps with
        | nil => exact hrest
        | cons q ps =>
            rw [List.flatMap_cons, List.append_assoc]
            exact begins_tokens q _
      rw [List.flatMap_cons, List.append_assoc, readLines_phrase hfits hclear hbranch hnext,
        ih hfits' hclear' hbranch', List.flatMap_cons, List.reverse_append, List.append_assoc]

/-- The tokens of a file with some phrases, which ends on a line. -/
def tokensOf (ps : List Phrase) (last : Nat) : List Token :=
  ps.flatMap Phrase.tokens ++ [⟨.endOfFile, last⟩]

theorem linesOf_tokensOf (file : String) {ps : List Phrase} (last : Nat)
    (hfits : ∀ p ∈ ps, p.fits = true) (hclear : ∀ p ∈ ps, p.isClear = true)
    (hbranch : ∀ p ∈ ps, p.branchesSomewhere = true) :
    linesOf file (tokensOf ps last) = (ps.flatMap (Phrase.lines file), none) := by
  have hend : Begins [⟨.endOfFile, last⟩] := trivial
  rw [tokensOf, linesOf, readLines_phrases hfits hclear hbranch hend, readLines, if_pos rfl]
  simp

/-- A scan without fault is its tokens and the line where it stops. -/
theorem Scan.eq_clean {s : Scan} {tokens : List Token} {line : Nat}
    (h : s.tokens = tokens ∧ s.line = line ∧ s.error.isNone = true) :
    s = ⟨tokens, line, none⟩ := by
  cases s
  obtain ⟨rfl, rfl, hclean⟩ := h
  exact congrArg (Scan.mk _ _) (Option.isNone_iff_eq_none.mp hclean)

namespace Reader

open Text (Glyph)

/-- Written statements are read back: from the tokens of phrases, one after
another, come the lines that these stand for, in order, and no token is left.
So the builder gets just these, up to the first that it refuses. -/
theorem actions_phrases {r : Reader} (file : String) {text : List Glyph} {ps : List Phrase}
    {last line : Nat} (hscan : Lexer.scan r.defines text = ⟨tokensOf ps last, line, none⟩)
    (hfits : ∀ p ∈ ps, p.fits = true) (hclear : ∀ p ∈ ps, p.isClear = true)
    (hbranch : ∀ p ∈ ps, p.branchesSomewhere = true) :
    (∀ done, readLines file done (tokensOf ps last) =
      readLines file ((ps.flatMap (Phrase.lines file)).reverse ++ done) [⟨.endOfFile, last⟩]) ∧
    linesOf file (tokensOf ps last) = (ps.flatMap (Phrase.lines file), none) ∧
    ∀ s, r.actions file text s = lower (ps.flatMap (Phrase.lines file)) none { s with
      log := s.log.addIf r.verbose (file ++ ": " ++ Text.decimal line ++ " lines, "
        ++ Text.decimal (tokensOf ps last).length ++ " tokens") } := by
  have hlines := linesOf_tokensOf file last hfits hclear hbranch
  refine ⟨readLines_phrases hfits hclear hbranch trivial, hlines, fun s => ?_⟩
  unfold actions
  simp only [hscan, hlines]
  rfl

/-- A label and a few statements, with no more space between them than names
need. -/
def mixedPhrases : List Phrase :=
  [.label 1 "A", .instruction 1 .asl (.accumulator 1), .assign 1 "A" 1 (.symbol 1 "A"),
    .instruction 1 .bne (.direct (.binary (.symbol 1 "A") 1 .add (.group 1 (.number 1 "1" 1) 1))),
    .data 1 false (.value (.unary 1 .lowByte (.symbol 1 "A"))) [(1, .value (.pc 1))],
    .assignPc 1 1 (.number 1 "2" 2)]

theorem actions_phrases_mixedPhrases :
    Lexer.scan [] (Glyph.ofString "a:asl a a=a bne a+(1) .db <a,@ @=2") =
      ⟨tokensOf mixedPhrases 1, 1, none⟩ ∧
    linesOf "m" (tokensOf mixedPhrases 1) = (mixedPhrases.flatMap (Phrase.lines "m"), none) := by
  have hscan : Lexer.scan [] (Glyph.ofString "a:asl a a=a bne a+(1) .db <a,@ @=2") =
      ⟨tokensOf mixedPhrases 1, 1, none⟩ := Scan.eq_clean (by decide +kernel)
  have hbne : Mnemonic.has .bne .implied = false :=
    Bool.eq_false_iff.mpr (mt Mnemonic.has_iff.mp (by decide +kernel))
  have hasl : Mnemonic.isBranch .asl = false :=
    Mnemonic.isBranch_of_has (show Mnemonic.has .asl .implied = true by decide +kernel) (by decide)
  have hclear : ∀ p ∈ mixedPhrases, p.isClear = true := by
    simp [mixedPhrases, Phrase.isClear, OperandPhrase.isClear, OperandPhrase.direct?, Term.head,
      hbne]
  have hbranch : ∀ p ∈ mixedPhrases, p.branchesSomewhere = true := by
    simp [mixedPhrases, Phrase.branchesSomewhere, OperandPhrase.isDestination, hasl]
  have hread := actions_phrases (r := {}) "m" hscan (by decide +kernel) hclear hbranch
  exact ⟨hscan, hread.2.1⟩

def branchIndirect : Phrase := .instruction 1 .bne (.indirect 1 (.symbol 1 "A") 1)

/-- A branch with its destination in parentheses. -/
def branchGrouped : Phrase := .instruction 1 .bne (.direct (.group 1 (.symbol 1 "A") 1))

def localMacro : Phrase := .openMacro 1 ⟨1, "M"⟩ [(1, ⟨1, "_P"⟩)]

/-- A branch takes no indirect operand: it is not refused, as that of other
instructions without this form is, but read as a destination in parentheses.
A local parameter is refused before the builder gets to know of the macro. -/
theorem branchIndirect_misread :
    (Lexer.scan [] (Glyph.ofString "bne (a)") = ⟨tokensOf [branchIndirect] 1, 1, none⟩ ∧
      branchIndirect.fits = true ∧ branchIndirect.isClear = true ∧
      (linesOf "m" (tokensOf [branchIndirect] 1)).1 = branchGrouped.lines "m" ∧
      branchGrouped.lines "m" ≠ [branchIndirect].flatMap (Phrase.lines "m")) ∧
    (Lexer.scan [] (Glyph.ofString ".macro m,_p") = ⟨tokensOf [localMacro] 1, 1, none⟩ ∧
      linesOf "m" (tokensOf [localMacro] 1) =
        ([], some (.inSource ⟨"m", 1⟩ (.localParameter "_P")))) := by
  have hscan : Lexer.scan [] (Glyph.ofString "bne (a)") =
      ⟨tokensOf [branchIndirect] 1, 1, none⟩ := Scan.eq_clean (by decide +kernel)
  have hbne : Mnemonic.isBranch .bne = true := Mnemonic.isBranch_iff.mpr (by decide +kernel)
  have hclear : branchGrouped.isClear = true ∧ branchIndirect.isClear = true := by
    simp [branchGrouped, branchIndirect, Phrase.isClear, OperandPhrase.isClear, hbne]
  have hlines : linesOf "m" (tokensOf [branchGrouped] 1) =
      ([branchGrouped].flatMap (Phrase.lines "m"), none) :=
    linesOf_tokensOf "m" 1 (by decide +kernel) (List.forall_mem_singleton.mpr hclear.1)
      (by decide +kernel)
  have hscan' : Lexer.scan [] (Glyph.ofString ".macro m,_p") =
      ⟨tokensOf [localMacro] 1, 1, none⟩ := Scan.eq_clean (by decide +kernel)
  have hlines' : linesOf "m" (tokensOf [localMacro] 1) =
      ([], some (.inSource ⟨"m", 1⟩ (.localParameter "_P"))) := by
    cbv
  exact ⟨⟨hscan, by decide +kernel, hclear.2, congrArg Prod.fst hlines, by rintro ⟨⟩⟩,
    hscan', hlines'⟩

end Reader

end Mos6510
