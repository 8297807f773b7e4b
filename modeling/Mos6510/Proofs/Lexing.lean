import Mathlib.Data.List.TakeWhile
import Mos6510.Source
import Mos6510.Proofs.Names
import Mos6510.Proofs.Parsing

/-!
# Names in source text

No name of a source text has a dollar sign, and none starts with two
underscores (`scan_over`).  So all names that the lines of a file hold are
written names (`Reader.lines_over`), and those that macro calls make are not
among them.
-/

namespace Mos6510

open Text (Glyph)

namespace Text

theorem toNat_ofNat_eq {n : Nat} {d : Char} (h : Char.ofNat n = d) (hd : d.toNat ≠ 0) : n = d.toNat := by
  by_cases hvalid : n.isValidChar
  · rw [Char.ofNat, dif_pos hvalid] at h
    exact congrArg Char.toNat h
  · rw [Char.ofNat, dif_neg hvalid] at h
    exact absurd (congrArg Char.toNat h).symm hd

/-- Signs and digits are the upper case of no other character. -/
theorem eq_of_upperChar {c d : Char} (hd : d.toNat ≠ 0 ∧ d.toNat < 65) (h : upperChar c = d) : c = d := by
  unfold upperChar at h
  split at h
  · rename_i hascii
    -- an ASCII character whose upper case is below the letters is its own upper case
    have hall : ∀ n < 128, (Char.ofNat n).toUpper.toNat < 65 → (Char.ofNat n).toUpper = Char.ofNat n := by
      decide
    have hsame := hall c.toNat hascii
    rw [Char.ofNat_toNat, h] at hsame
    exact (hsame hd.2).symm
  · split at h
    · rename_i r hfind
      have hmem := Array.mem_of_find?_eq_some hfind
      have hholds := Array.find?_some hfind
      have hlow : r.low ≤ c.toNat := by
        simp only [CaseRun.holds, Bool.and_eq_true, decide_eq_true_eq] at hholds
        exact hholds.1.1
      -- beyond ASCII no run of cases lands below the letters
      have hall : (caseRuns.all fun r => 64 < (r.low : Int) + r.shift) = true := by decide +kernel
      have hshift := of_decide_eq_true (Array.all_eq_true_iff_forall_mem.mp hall r hmem)
      have hcode := toNat_ofNat_eq h hd.1
      omega
    · exact h

theorem dollar_not_mem_upper {s : String} (h : '$' ∉ s.toList) : '$' ∉ (upper s).toList := by
  rw [upper, String.toList_map]
  intro hmem
  obtain ⟨c, hc, heq⟩ := List.mem_map.mp hmem
  exact h (eq_of_upperChar (by decide) heq ▸ hc)

end Text

namespace Lexer

/-- No part of a name is a dollar sign. -/
theorem plain_nameOf (gs : List Glyph) : Plain (nameOf (word gs)) := by
  refine Text.dollar_not_mem_upper ?_
  rw [Glyph.toText, String.toList_ofList]
  intro hmem
  obtain ⟨g, hg, heq⟩ := List.mem_map.mp hmem
  have hword : isWordGlyph g = true := List.mem_takeWhile_imp hg
  rw [isWordGlyph, heq] at hword
  exact absurd hword (by decide)

/-- A step over text makes tokens over certain names. -/
def Step.Over (N : String → Prop) : Step → Prop
  | .emit token _ _ => token.lexeme.Over N
  | _ => True

theorem name_over (line : Nat) (gs : List Glyph) : (name line gs).Over IsWritten := by
  unfold name
  dsimp only
  split
  · trivial
  · rename_i hmark
    have hwritten : IsWritten (nameOf (word gs)) :=
      ⟨plain_nameOf gs, fun h => hmark (List.isPrefixOf_iff_prefix.mpr h)⟩
    split
    · exact hwritten
    · split
      · trivial
      · exact hwritten

/-- A name starts with no digit. -/
theorem name_identifier (line : Nat) {g : Glyph} (hg : isNameStart g = true) (rest : List Glyph) :
    (name line (g :: rest)).Over IsIdentifier := by
  have hlead : g.toChar = '_' ∨ Text.isLetter g.toChar = true := by
    rcases Bool.or_eq_true_iff.mp hg with h | h
    · obtain rfl : g = .char '_' := beq_iff_eq.mp h
      exact .inl rfl
    · exact .inr h
  have hstart : (Text.upperChar g.toChar).isDigit = false := by
    by_contra hdigit
    have hcode : 48 ≤ (Text.upperChar g.toChar).toNat ∧ (Text.upperChar g.toChar).toNat ≤ 57 := by
      simpa [Char.isDigit, UInt32.le_iff_toNat_le] using hdigit
    -- only a digit has a digit for its upper case, and no name starts with one
    have hsame : g.toChar = Text.upperChar g.toChar := Text.eq_of_upperChar (by omega) rfl
    have hall : ∀ n ≤ 57, Char.ofNat n ≠ '_' ∧ Text.isLetter (Char.ofNat n) = false := by decide
    rw [← hsame] at hcode
    have hnone := hall g.toChar.toNat hcode.2
    rw [Char.ofNat_toNat] at hnone
    rcases hlead with h | h
    · exact hnone.1 h
    · exact Bool.false_ne_true (hnone.2.symm.trans h)
  have hhead : (nameOf (word (g :: rest))).toList.head? = some (Text.upperChar g.toChar) := by
    rw [nameOf, Text.upper, String.toList_map, Glyph.toText, String.toList_ofList, word,
      List.takeWhile_cons_of_pos (isWordGlyph_of_isNameStart hg)]
    rfl
  have hover := name_over line (g :: rest)
  unfold name at hover ⊢
  dsimp only at hover ⊢
  split
  · trivial
  · rename_i hmark
    rw [if_neg hmark] at hover
    split
    · rename_i hcolon
      rw [if_pos hcolon] at hover
      exact ⟨hover, _, hhead, hstart⟩
    · rename_i hcolon
      rw [if_neg hcolon] at hover
      split
      · trivial
      · rename_i hnone
        rw [hnone] at hover
        exact ⟨hover, _, hhead, hstart⟩

theorem number_over {N : String → Prop} (line : Nat) (gs : List Glyph) : (number line gs).Over N := by
  unfold number
  dsimp only
  split <;> trivial

theorem string_over {N : String → Prop} (screen : Bool) (before line : Nat) (gs : List Glyph) :
    (string screen before line gs).Over N := by
  unfold string
  split <;> trivial

theorem script_over {N : String → Prop} (defines : List (String × Int64)) (line : Nat)
    (gs : List Glyph) : (script defines line gs).Over N := by
  unfold script
  split
  · trivial
  · dsimp only
    split <;> trivial

theorem directive_over {N : String → Prop} (line : Nat) (gs : List Glyph) :
    (directive line gs).Over N := by
  unfold directive
  split <;> trivial

section

variable {N : String → Prop}
  (hname : ∀ (line : Nat) (g : Glyph) (rest : List Glyph), isNameStart g = true →
    (name line (g :: rest)).Over N)

include hname

theorem step_over (defines : List (String × Int64)) (line : Nat) (g : Glyph) (rest : List Glyph) :
    (step defines line g rest).Over N := by
  have hstarts := step_starts defines line g rest
  generalize step defines line g rest = s at hstarts ⊢
  cases hstarts with
  | newline | space | comment | unknown => trivial
  | directive => exact directive_over _ _
  | lone _ hl =>
      simp only [lones, List.mem_cons, List.not_mem_nil, or_false] at hl
      rcases hl with rfl | rfl | rfl | rfl | rfl | rfl <;> trivial
  | string | marked => exact string_over _ _ _ _
  | script => exact script_over _ _ _
  | number => exact number_over _ _
  | sign => trivial
  | name _ hstart => exact hname _ _ _ hstart

theorem scanFrom_over {defines : List (String × Int64)} {line : Nat} {done : List Token}
    {gs : List Glyph} (hdone : TokensOver N done) :
    TokensOver N (scanFrom defines line done gs).tokens := by
  have hreverse : ∀ {ts}, TokensOver N ts → TokensOver N ts.reverse :=
    fun h t ht => h t (List.mem_reverse.mp ht)
  fun_induction scanFrom defines line done gs with
  | case1 => exact hreverse (tokensOver_cons.mpr ⟨trivial, hdone⟩)
  | case2 line done g rest taken line' _ _ ih => exact ih hdone
  | case3 line done g rest token taken line' _ hstep ih =>
      have hover := step_over hname defines line g rest
      rw [show step defines line g rest = _ from congrArg Subtype.val hstep] at hover
      exact ih (tokensOver_cons.mpr ⟨hover, hdone⟩)
  | case4 => exact hreverse hdone

end

/-- The names of a source text are written names. -/
theorem scan_over (defines : List (String × Int64)) (gs : List Glyph) :
    TokensOver IsWritten (scan defines gs).tokens :=
  scanFrom_over (fun line g rest _ => name_over line (g :: rest)) .nil

/-- They are identifiers. -/
theorem scan_identifiers (defines : List (String × Int64)) (gs : List Glyph) :
    TokensOver IsIdentifier (scan defines gs).tokens :=
  scanFrom_over (fun line _ rest hg => name_identifier line hg rest) .nil

end Lexer

theorem isWritten_pcName : IsWritten pcName := by decide

/-- The lines of a source text are over written names. -/
theorem Reader.lines_over (r : Reader) (file : String) (text : List Glyph) :
    ∀ l ∈ (linesOf file (Lexer.scan r.defines text).tokens).1, l.Over IsWritten :=
  linesOf_over isWritten_pcName file (Lexer.scan_over r.defines text)

end Mos6510
