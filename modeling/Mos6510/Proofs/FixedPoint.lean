import Mos6510.Proofs.Repeat
import Mos6510.Proofs.Scope
import Mos6510.Proofs.Stages

/-!
# The final pass is a fixed point

The final pass is only compared with the first by the values of symbols and
the places of regions, not by bytes.  That is enough: a final pass that ends
with the layout it started from has read nothing stale.  Run once more, from
the engine it left, it reads the same values, takes the same way and emits
the same bytes; and so does any number of final passes after it.
-/

namespace Mos6510

open Outcome

/-- The second engine holds the output of the first: the same bytes at the
same places, the same value of every symbol, and the same source of every
byte. -/
structure Engine.SameOutput (e₁ e₂ : Engine) : Prop where
  regions : e₁.regions = e₂.regions
  labels : e₁.labels.values = e₂.labels.values
  vars : e₁.vars.values = e₂.vars.values
  pc : e₁.pc.value = e₂.pc.value
  source : e₁.source = e₂.source

namespace Engine.SameOutput

theorem refl (e : Engine) : SameOutput e e := ⟨rfl, rfl, rfl, rfl, rfl⟩

theorem trans {e₁ e₂ e₃ : Engine} (h : SameOutput e₁ e₂) (h' : SameOutput e₂ e₃) :
    SameOutput e₁ e₃ :=
  { regions := h.regions.trans h'.regions
    labels := h.labels.trans h'.labels
    vars := h.vars.trans h'.vars
    pc := h.pc.trans h'.pc
    source := h.source.trans h'.source }

theorem layout_eq {e₁ e₂ : Engine} (h : SameOutput e₁ e₂) :
    Assembler.Layout.ofEngine e₂ = Assembler.Layout.ofEngine e₁ := by
  unfold Assembler.Layout.ofEngine
  rw [h.regions, h.labels, h.vars, h.pc]

end Engine.SameOutput

/-- Engines that repeat each other have the same output, in the same pass. -/
theorem Engine.Repeats.sameOutput {e₁ e₂ : Engine} (h : Repeats True e₁ e₂) :
    SameOutput e₁ e₂ where
  regions := h.regions
  labels := h.labels.values_eq fun _ _ _ hcd => hcd.1
  vars := h.vars.values_eq fun _ _ _ hcd => hcd.1
  pc := h.pc.1
  source := h.source trivial

/-- What is set stays set, and with equal values the new table repeats the
old. -/
theorem SymbolTable.Grows.repeats {t u : SymbolTable} (h : t.Grows u) (hv : t.values = u.values) :
    Pointwise (fun _ => Cell.Repeats) t u :=
  (h.of_values_eq hv).imp fun _ _ _ hcd => ⟨hcd.2, hcd.1⟩

namespace Code

/-- Engines whose symbols repeat each other start strict passes alike, up to
the location left over from before. -/
theorem start_repeats (code : Code) {same : Prop} {p q : Pass} (hp : p.isStrict = true)
    (hq : q.isStrict = true) {e₁ e₂ : Engine}
    (hvars : SymbolTable.Pointwise (fun _ => Cell.Repeats) e₁.vars e₂.vars)
    (hlabels : SymbolTable.Pointwise (fun _ => Cell.Repeats) e₁.labels e₂.labels)
    (hpass : same → p = q)
    (hsource : same → (code.start p e₁).source = (code.start q e₂).source) (a : Action) :
    Engine.Repeats same ((code.start p e₁).atAction a) ((code.start q e₂).atAction a) where
  strict₁ := hp
  strict₂ := hq
  pass := hpass
  vars := hvars
  labels := hlabels
  pc := .refl _
  stack := rfl
  regions := rfl
  parent := rfl
  jump := rfl
  jumps := rfl
  counters := rfl
  location := rfl
  source := hsource

/-- What a strict run does is done again from an engine that repeats its
start. -/
theorem Runs.repeats {code : Code} {n : Nat} {k : List Action} {e₁ e₁' e₂ : Engine}
    {vs : List Visit} (h : code.Runs n k e₁ vs e₁')
    (hR : ∀ a, Engine.Repeats True (e₁.atAction a) (e₂.atAction a)) :
    ∃ ws e₂', code.Runs n k e₂ ws e₂' ∧
      ∀ a, Engine.Repeats True (e₁'.atAction a) (e₂'.atAction a) := by
  refine h.respects (R := fun e₁ e₂ => ∀ a, Engine.Repeats True (e₁.atAction a) (e₂.atAction a))
    (S := fun _ => True) ?_ ?_ ?_ (fun _ _ _ _ _ => trivial) (fun _ _ => trivial) hR
  · intro a _ e₁ e₂ h e₁' hrun
    obtain ⟨e₂', hrun', h'⟩ := Action.run_respects (repeats_respectful trivial) a (h a) hrun
    exact ⟨e₂', hrun', fun b => { h' with location := rfl }⟩
  · intro e₁ e₂ h
    exact (h default).jump
  · intro e₁ e₂ h a
    exact { h a with
      jump := rfl
      jumps := congrArg (· + 1) (h a).jumps }

end Code

namespace Assembler

/-- The report of a pass leaves the output alone. -/
theorem runPass_of_passes (verbose : Bool) {code : Code} {pass : Pass} {e e₁ : Engine}
    {vs : List Visit} (h : code.Passes pass e vs e₁) :
    ∃ e', runPass verbose code pass e = .ok () e' ∧ Engine.SameOutput e₁ e' :=
  ⟨_, runPass_eq_ok_iff.mpr ⟨vs, e₁, h, rfl⟩, ⟨rfl, rfl, rfl, rfl, rfl⟩⟩

/-- A final pass that keeps the layout it starts from repeats itself. -/
theorem runPass_final_again {verbose : Bool} {code : Code} {e n : Engine}
    (h : runPass verbose code .final e = .ok () n)
    (hlayout : Layout.ofEngine n = Layout.ofEngine e) :
    ∃ n', runPass verbose code .final n = .ok () n' ∧ Engine.SameOutput n n' := by
  obtain ⟨vs, e₁, hruns, hreport⟩ := runPass_eq_ok_iff.mp h
  obtain ⟨hgrowsVars, hgrowsLabels⟩ := runPass_grows h
  simp only [Layout.ofEngine, Layout.mk.injEq] at hlayout
  obtain ⟨hlabels, hvars, -⟩ := hlayout
  obtain ⟨ws, e₂, hagain, hrepeats⟩ := hruns.repeats
    (code.start_repeats rfl rfl (hgrowsVars.repeats hvars.symm) (hgrowsLabels.repeats hlabels.symm)
      (fun _ => rfl) (fun _ => rfl))
  obtain ⟨n', hn', hout⟩ := runPass_of_passes verbose hagain
  have hsame : Engine.SameOutput e₁ e₂ := { (hrepeats default).sameOutput with }
  refine ⟨n', hn', ?_⟩
  rw [hreport]
  exact { hsame.trans hout with }

/-- Any number of final passes. -/
def finalPasses (verbose : Bool) (code : Code) : Nat → EngineM Unit
  | 0 => pure ()
  | n + 1 => do
    runPass verbose code .final
    finalPasses verbose code n

/-- After a final pass that keeps its layout, all further ones succeed with
the same output. -/
theorem finalPasses_again {verbose : Bool} {code : Code} (count : Nat) {e n : Engine}
    (h : runPass verbose code .final e = .ok () n)
    (hlayout : Layout.ofEngine n = Layout.ofEngine e) :
    ∃ n', finalPasses verbose code count n = .ok () n' ∧ Engine.SameOutput n n' := by
  induction count generalizing e n with
  | zero => exact ⟨n, rfl, .refl n⟩
  | succ count ih =>
      obtain ⟨n₁, hagain, hsame⟩ := runPass_final_again h hlayout
      obtain ⟨n', hrest, hsame'⟩ := ih hagain hsame.layout_eq
      exact ⟨n', bind_eq_ok.mpr ⟨(), n₁, hagain, hrest⟩, hsame.trans hsame'⟩

/-- The output of an assembly is a fixed point: any number of further final
passes on the engine that it leaves succeed, and give the same regions, the
same value of every symbol and the same source of every byte. -/
theorem assemble_fixedPoint (asm : Assembler) (actions : List Action) (s s' : Session)
    (a : Assembly) (h : asm.assemble actions s = .ok a s') (count : Nat) :
    ∃ e, finalPasses asm.verbose a.code count a.engine = .ok () e ∧
      Engine.SameOutput a.engine e := by
  obtain ⟨e₀, s₁, w, f, -, hstages, hlayout, -⟩ := assemble_eq_ok_iff.mp h
  exact finalPasses_again count hstages.final hlayout

/-- A loop that loads from a label behind it, and a variable that counts how
often. -/
def forwardLoop : List Action :=
  [.load {} 0x1000, .set {} "@", .load {} 0, .set {} "n",
    .load {} 2, .plain {} (.counterSet 0), .plain {} (.target 0), .plain {} (.counterTest 0 1),
    .get {} "end", .plain {} (.width "LDA" .none),
    .get {} "n", .load {} 1, .plain {} (.binary .add), .set {} "n",
    .plain {} (.counterStep 0 0), .plain {} (.target 1),
    .plain {} (.label "end" false), .get {} "n", .plain {} (.data false)]

theorem assemble_fixedPoint_forwardLoop :
    ∃ a s', ({} : Assembler).assemble forwardLoop {} = .ok a s' ∧
      ∃ e, finalPasses false a.code 3 a.engine = .ok () e ∧ Engine.SameOutput a.engine e := by
  have hrun : isOkWith (fun _ _ => true) (({} : Assembler).assemble forwardLoop {}) = true := by
    decide +kernel
  obtain ⟨a, s', h, -⟩ := exists_of_isOkWith hrun
  exact ⟨a, s', h, assemble_fixedPoint {} forwardLoop {} s' a h 3⟩

end Assembler

end Mos6510
