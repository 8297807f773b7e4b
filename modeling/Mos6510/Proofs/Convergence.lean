import Mos6510.Proofs.Flow
import Mos6510.Proofs.Lowered

/-!
# Forward references converge

A program may use symbols before they have a value.  As long as such values
reach nothing but operands and data, whose sizes do not depend on them, the
warm-up pass already finds the layout, and the passes after it agree.
-/

namespace Mos6510

open Outcome

namespace Assembler

/-- Forward references in places of fixed size always converge.  If no value
of an unset symbol steers the warm-up pass of a lowered program, and all three
passes complete, then they end with the same layout, the last two emit the
same bytes, and the assembly succeeds. -/
theorem clean_warmUp_converges (asm : Assembler) (actions : List Action) (s s₁ : Session)
    (code : Code) (e₀ w f n : Engine) (hlowered : Lowered actions)
    (hinc : ∀ inc, asm.includer = some inc → inc.Lowered)
    (hprepare : asm.prepare actions s = .ok (code, e₀) s₁)
    (hstages : Stages asm.verbose code { e₀ with log := s₁.log } w f n)
    (hclean : clean [] (code.passTrace .warmUp { e₀ with log := s₁.log }) = true) :
    Layout.ofEngine w = Layout.ofEngine f ∧ Layout.ofEngine f = Layout.ofEngine n ∧
      f.regions = n.regions ∧
      asm.assemble actions s = .ok ⟨code, n⟩ { s₁ with log := n.log } := by
  have hyields : Yields (asm.prepare actions) (code, e₀) := ⟨s, s₁, hprepare⟩
  have hdeclared : ({ e₀ with log := s₁.log } : Engine).Declared :=
    { prepare_declared hyields with }
  obtain ⟨hacts, htargets⟩ := prepare_speaks hlowered hinc hyields
  have hwf := first_layout_eq hdeclared hstages.warmUp hstages.first hclean
  obtain ⟨hregions, hfn⟩ := final_output_eq hstages.first hstages.final hwf hacts htargets
  refine ⟨hwf, hfn, hregions, ?_⟩
  exact assemble_eq_ok_iff.mpr ⟨e₀, s₁, w, f, hprepare, hstages, hfn.symm, rfl⟩

/-- Every included file holds a label and nothing else of note. -/
def tailIncluder : Includer where
  source := fun name _ => ({} : Reader).actions name (Text.Glyph.ofString "end: RTS")
  binary := fun _ _ => pure []

/-- A word, a branch and a message that refer to a label of an included file. -/
def forwardSource : List Text.Glyph :=
  Text.Glyph.ofString "@ = $1000 .IF @ .DW end .ENDIF BNE end .INFO end .INCLUDE \"tail\""

theorem clean_warmUp_converges_forwardSource :
    ∃ actions s s₁ code e₀ w f n, Lowered actions ∧ tailIncluder.Lowered ∧
      ({ includer := some tailIncluder } : Assembler).prepare actions s = .ok (code, e₀) s₁ ∧
      Stages false code { e₀ with log := s₁.log } w f n ∧
      clean [] (code.passTrace .warmUp { e₀ with log := s₁.log }) = true ∧
      Layout.ofEngine w = Layout.ofEngine f ∧ Layout.ofEngine f = Layout.ofEngine n ∧
      f.regions = n.regions ∧
      ({ includer := some tailIncluder } : Assembler).assemble actions s =
        .ok ⟨code, n⟩ { s₁ with log := n.log } := by
  have hrun : isOkWith (fun actions s =>
      isOkWith (fun p s₁ =>
        isOkWith (fun _ w =>
          isOkWith (fun _ f =>
            isOkWith (fun _ _ => clean [] (p.1.passTrace .warmUp { p.2 with log := s₁.log }))
              (runPass false p.1 .final f))
            (runPass false p.1 .first w))
          (runPass false p.1 .warmUp { p.2 with log := s₁.log }))
        (({ includer := some tailIncluder } : Assembler).prepare actions s))
      (({} : Reader).actions "main" forwardSource {}) = true := by
    decide +kernel
  obtain ⟨actions, s, hread, hrun⟩ := exists_of_isOkWith hrun
  obtain ⟨⟨code, e₀⟩, s₁, hprepare, hrun⟩ := exists_of_isOkWith hrun
  obtain ⟨_, w, hw, hrun⟩ := exists_of_isOkWith hrun
  obtain ⟨_, f, hf, hrun⟩ := exists_of_isOkWith hrun
  obtain ⟨_, n, hn, hclean⟩ := exists_of_isOkWith hrun
  have hlowered : Lowered actions := ⟨{}, "main", forwardSource, {}, s, hread⟩
  have hinc : tailIncluder.Lowered := fun name _ _ h => ⟨{}, name, _, h⟩
  have hstages : Stages false code { e₀ with log := s₁.log } w f n := ⟨hw, hf, hn⟩
  refine ⟨actions, s, s₁, code, e₀, w, f, n, hlowered, hinc, hprepare, hstages, hclean, ?_⟩
  refine clean_warmUp_converges _ actions s s₁ code e₀ w f n hlowered (fun inc h => ?_)
    hprepare hstages hclean
  cases h
  exact hinc

end Assembler

end Mos6510
