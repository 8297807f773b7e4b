import Mos6510.Proofs.SymbolTable
import Mos6510.Proofs.Trace

/-!
# The stages of an assembly

An assembly first prepares its code, then takes it through three passes.

* `assemble_eq_ok_iff`: an assembly succeeds exactly where its preparation
  and the three passes do, and the last two passes agree on the layout;
* `assemble_eq_error`, `runPasses_eq_error`: once prepared, it fails only in
  one of its passes, or because these do not converge;
* `prepare_declared`: the engine that the passes start from has every symbol
  declared once and without a value.
-/

namespace Mos6510

open Outcome

/-! ## Preparation and passes -/

namespace Assembler

/-- All that comes before the passes: the code, and an engine that knows its
symbols. -/
def prepare (asm : Assembler) (actions : List Action) : SessionM (Code × Engine) := do
  asm.notePass .includes actions
  let seq ← asm.resolveIncludes includeDepth actions
  asm.notePass .macros seq
  let seq ← asm.expandMacros seq
  asm.notePass .gather seq
  let (seq, e) ← asm.gather seq
  match Code.ofActions seq with
  | .error err => throw err
  | .ok code => pure (code, e)

/-- What preparation comes to: each stage hands its actions to the next. -/
theorem yields_of_prepare {asm : Assembler} {actions : List Action} {code : Code} {e : Engine}
    (h : Yields (asm.prepare actions) (code, e)) :
    ∃ included expanded gathered,
      Yields (asm.resolveIncludes includeDepth actions) included ∧
      Yields (asm.expandMacros included) expanded ∧
      Yields (asm.gather expanded) (gathered, e) ∧ Code.ofActions gathered = .ok code := by
  unfold prepare at h
  obtain ⟨_, -, h⟩ := h.bind
  obtain ⟨included, hincluded, h⟩ := h.bind
  obtain ⟨_, -, h⟩ := h.bind
  obtain ⟨expanded, hexpanded, h⟩ := h.bind
  obtain ⟨_, -, h⟩ := h.bind
  obtain ⟨⟨gathered, e'⟩, hgathered, h⟩ := h.bind
  cases hcode : Code.ofActions gathered with
  | error err =>
      simp only [hcode] at h
      exact h.throw.elim
  | ok code' =>
      simp only [hcode] at h
      cases h.pure
      exact ⟨included, expanded, gathered, hincluded, hexpanded, hgathered, hcode⟩

/-- An assembly prepares its code, then runs the passes. -/
theorem assemble_eq (asm : Assembler) (actions : List Action) :
    asm.assemble actions = (asm.prepare actions >>= fun p =>
      withEngine p.2 (runPasses asm.verbose p.1) >>= fun e => pure ⟨p.1, e⟩) := by
  unfold assemble prepare
  simp only [bind_assoc]
  congr; funext _; congr; funext _; congr; funext _; congr; funext _; congr; funext _
  congr; funext p
  cases Code.ofActions p.1 with
  | error err => rfl
  | ok code => rfl

/-- The three passes, one after the other. -/
structure Stages (verbose : Bool) (code : Code) (e₀ w f n : Engine) : Prop where
  warmUp : runPass verbose code .warmUp e₀ = .ok () w
  first : runPass verbose code .first w = .ok () f
  final : runPass verbose code .final f = .ok () n

/-- The passes succeed where each does and the last two leave one layout. -/
theorem runPasses_eq_ok_iff {verbose : Bool} {code : Code} {e₀ n : Engine} {u : Unit} :
    runPasses verbose code e₀ = .ok u n ↔
      ∃ w f, Stages verbose code e₀ w f n ∧ Layout.ofEngine n = Layout.ofEngine f := by
  unfold runPasses
  constructor
  · intro h
    obtain ⟨_, w, hw, h⟩ := bind_eq_ok.mp h
    obtain ⟨_, f, hf, h⟩ := bind_eq_ok.mp h
    obtain ⟨_, _, hget, hfinal⟩ := bind_eq_ok.mp h
    obtain ⟨rfl, rfl⟩ := get_eq_ok.mp hget
    obtain ⟨_, n', hn, h⟩ := bind_eq_ok.mp hfinal
    obtain ⟨_, _, hget, hcheck⟩ := bind_eq_ok.mp h
    obtain ⟨rfl, rfl⟩ := get_eq_ok.mp hget
    split at hcheck
    · exact absurd hcheck throw_ne_ok
    · rename_i hlayout
      obtain ⟨-, rfl⟩ := pure_eq_ok.mp hcheck
      exact ⟨w, _, ⟨hw, hf, hn⟩, by simpa using hlayout⟩
  · rintro ⟨w, f, ⟨hw, hf, hn⟩, hlayout⟩
    refine bind_eq_ok.mpr ⟨(), w, hw, bind_eq_ok.mpr ⟨(), f, hf, ?_⟩⟩
    refine bind_eq_ok.mpr ⟨f, f, rfl, bind_eq_ok.mpr ⟨(), n, hn, ?_⟩⟩
    refine bind_eq_ok.mpr ⟨n, n, rfl, ?_⟩
    rw [hlayout, if_neg (by simp)]
    rfl

/-- The passes fail where one of them does, or do not converge. -/
theorem runPasses_eq_error {verbose : Bool} {code : Code} {e₀ e' : Engine} {err : Error}
    (h : runPasses verbose code e₀ = .error err e') :
    (∃ e, runPass verbose code .warmUp e₀ = .error err e) ∨
      (∃ w e, runPass verbose code .warmUp e₀ = .ok () w ∧
        runPass verbose code .first w = .error err e) ∨
      (∃ w f e, runPass verbose code .warmUp e₀ = .ok () w ∧
        runPass verbose code .first w = .ok () f ∧ runPass verbose code .final f = .error err e) ∨
      err = .notConverged := by
  unfold runPasses at h
  rcases bind_eq_error.mp h with hw | ⟨_, w, hw, h⟩
  · exact .inl ⟨e', hw⟩
  rcases bind_eq_error.mp h with hf | ⟨_, f, hf, h⟩
  · exact .inr (.inl ⟨w, e', hw, hf⟩)
  rw [bind_of_ok (get_eq_ok.mpr ⟨rfl, rfl⟩)] at h
  rcases bind_eq_error.mp h with hn | ⟨_, n, -, h⟩
  · exact .inr (.inr (.inl ⟨w, f, e', hw, hf, hn⟩))
  rw [bind_of_ok (get_eq_ok.mpr ⟨rfl, rfl⟩)] at h
  split at h
  · cases h
    exact .inr (.inr (.inr rfl))
  · cases h

theorem withEngine_eq_ok_iff {e e' : Engine} {m : EngineM Unit} {s s' : Session} :
    withEngine e m s = .ok e' s' ↔
      m { e with log := s.log } = .ok () e' ∧ s' = { s with log := e'.log } := by
  unfold withEngine
  cases m { e with log := s.log } with
  | error err e₁ => simp
  | ok u e₁ =>
      simp only [ok_eq_ok, true_and]
      constructor
      · rintro ⟨rfl, rfl⟩
        exact ⟨rfl, rfl⟩
      · rintro ⟨rfl, rfl⟩
        exact ⟨rfl, rfl⟩

/-- An assembly succeeds exactly where its preparation and its passes do, and
the last two passes leave one layout. -/
theorem assemble_eq_ok_iff {asm : Assembler} {actions : List Action} {s s' : Session}
    {a : Assembly} :
    asm.assemble actions s = .ok a s' ↔
      ∃ e₀ s₁ w f, asm.prepare actions s = .ok (a.code, e₀) s₁ ∧
        Stages asm.verbose a.code { e₀ with log := s₁.log } w f a.engine ∧
        Layout.ofEngine a.engine = Layout.ofEngine f ∧ s' = { s₁ with log := a.engine.log } := by
  rw [assemble_eq]
  constructor
  · intro h
    obtain ⟨⟨code, e₀⟩, s₁, hprepare, h⟩ := bind_eq_ok.mp h
    obtain ⟨n, s₂, hengine, h⟩ := bind_eq_ok.mp h
    obtain ⟨rfl, rfl⟩ := pure_eq_ok.mp h
    obtain ⟨hpasses, rfl⟩ := withEngine_eq_ok_iff.mp hengine
    obtain ⟨w, f, hstages, hlayout⟩ := runPasses_eq_ok_iff.mp hpasses
    exact ⟨e₀, s₁, w, f, hprepare, hstages, hlayout, rfl⟩
  · rintro ⟨e₀, s₁, w, f, hprepare, hstages, hlayout, rfl⟩
    have hpasses := (runPasses_eq_ok_iff (u := ())).mpr ⟨w, f, hstages, hlayout⟩
    refine bind_eq_ok.mpr ⟨_, s₁, hprepare, ?_⟩
    exact bind_eq_ok.mpr ⟨a.engine, _, withEngine_eq_ok_iff.mpr ⟨hpasses, rfl⟩, rfl⟩

/-- And where its passes fail, it does. -/
theorem assemble_error {asm : Assembler} {actions : List Action} {s s₁ : Session} {code : Code}
    {e₀ e' : Engine} {err : Error} (hprepare : asm.prepare actions s = .ok (code, e₀) s₁)
    (h : runPasses asm.verbose code { e₀ with log := s₁.log } = .error err e') :
    ∃ s', asm.assemble actions s = .error err s' := by
  refine ⟨{ s₁ with log := e'.log }, ?_⟩
  rw [assemble_eq, bind_of_ok hprepare]
  refine bind_eq_error.mpr (.inl ?_)
  unfold withEngine
  rw [h]

end Assembler

/-! ## Declared symbols -/

/-- Each name stands for one symbol. -/
structure Engine.NamesApart (e : Engine) : Prop where
  vars : e.vars.names.Nodup
  labels : e.labels.names.Nodup
  apart : ∀ n ∈ e.labels.names, n ≠ pcName ∧ n ∉ e.vars.names

theorem Engine.NamesApart.of_names {e e' : Engine} (h : e.NamesApart)
    (hvars : e'.vars.names = e.vars.names) (hlabels : e'.labels.names = e.labels.names) :
    e'.NamesApart := by
  refine ⟨?_, ?_, ?_⟩
  · rw [hvars]
    exact h.vars
  · rw [hlabels]
    exact h.labels
  · rw [hvars, hlabels]
    exact h.apart

/-- No cell was touched yet. -/
def SymbolTable.Fresh (t : SymbolTable) : Prop := ∀ x ∈ t.entries, x.2 = {}

/-- All symbols have their names, and none has a value. -/
structure Engine.Declared (e : Engine) : Prop extends e.NamesApart where
  freshVars : e.vars.Fresh
  freshLabels : e.labels.Fresh

/-- An engine begins without symbols. -/
theorem Engine.declared_new (verbose : Bool) : ({ verbose := verbose } : Engine).Declared where
  vars := List.nodup_nil
  labels := List.nodup_nil
  apart _ hn := absurd hn List.not_mem_nil
  freshVars _ hx := absurd hx List.not_mem_nil
  freshLabels _ hx := absurd hx List.not_mem_nil

theorem SymbolTable.Fresh.declare {t : SymbolTable} (h : t.Fresh) (name : String) :
    (t.declare name).Fresh := by
  intro x hx
  rcases List.mem_cons.mp hx with rfl | hx
  · rfl
  · exact h x hx

theorem SymbolTable.names_declare (t : SymbolTable) (name : String) :
    (t.declare name).names = name :: t.names := rfl

theorem SymbolTable.not_mem_names {t : SymbolTable} {n : String} (h : t.contains n = false) :
    n ∉ t.names := by
  rw [← SymbolTable.contains_iff, h]
  exact Bool.false_ne_true

namespace Engine

theorem declareVariable_declared {name parent : String} {u : Unit} {e e' : Engine}
    (he : e.Declared) (h : declareVariable name parent e = .ok u e') : e'.Declared := by
  unfold declareVariable at h
  split at h
  · obtain rfl := done_eq_ok.mp h
    exact he
  · split at h
    · cases h
    · rename_i full _
      cases hl : e.labels.contains full with
      | true => simp [hl] at h
      | false =>
          cases hv : e.isVariable full with
          | true =>
              simp only [hl, hv, Bool.false_eq_true, if_false, if_true, done_eq_ok] at h
              subst h
              exact he
          | false =>
              simp only [hl, hv, Bool.false_eq_true, if_false, done_eq_ok] at h
              subst h
              simp only [isVariable, Bool.or_eq_false_iff] at hv
              -- the name is in neither table, so it keeps them apart and without repetition
              refine { he with vars := ?_, apart := ?_, freshVars := he.freshVars.declare full }
              · exact List.nodup_cons.mpr ⟨SymbolTable.not_mem_names hv.2, he.vars⟩
              · intro n hn
                obtain ⟨hpc, hvars⟩ := he.apart n hn
                refine ⟨hpc, ?_⟩
                rw [SymbolTable.names_declare, List.mem_cons, not_or]
                refine ⟨?_, hvars⟩
                rintro rfl
                exact SymbolTable.not_mem_names hl hn

theorem declareLabel_declared {name parent next : String} {synthetic : Bool} {e e' : Engine}
    (he : e.Declared) (h : declareLabel name synthetic parent e = .ok next e') : e'.Declared := by
  unfold declareLabel at h
  split at h
  · cases h
  · rename_i full _
    cases hv : e.isVariable full with
    | true => simp [hv] at h
    | false =>
        cases hl : e.labels.contains full with
        | true => simp [hl, hv] at h
        | false =>
            simp only [hl, hv, Bool.false_eq_true, if_false, ok_eq_ok] at h
            obtain ⟨-, rfl⟩ := h
            simp only [isVariable, Bool.or_eq_false_iff, beq_eq_false_iff_ne] at hv
            refine { he with labels := ?_, apart := ?_, freshLabels := he.freshLabels.declare full }
            · exact List.nodup_cons.mpr ⟨SymbolTable.not_mem_names hl, he.labels⟩
            · intro n hn
              rcases List.mem_cons.mp hn with rfl | hn
              · exact ⟨hv.1, SymbolTable.not_mem_names hv.2⟩
              · exact he.apart n hn

end Engine

namespace Gather

theorem declareAction_declared {labels : List (String × Nat)} {parent : String} {a : Action}
    {r : Action × String} {e e' : Engine} (he : e.Declared)
    (h : declareAction labels parent a e = .ok r e') : e'.Declared := by
  unfold declareAction at h
  split at h
  · obtain ⟨-, rfl⟩ := ok_eq_ok.mp h
    exact he
  · split at h
    · obtain ⟨-, rfl⟩ := ok_eq_ok.mp h
      exact he
    · cases h
  · split at h
    · rename_i hdeclare
      obtain ⟨-, rfl⟩ := ok_eq_ok.mp h
      exact Engine.declareVariable_declared he hdeclare
    · cases h
  · split at h
    · rename_i hdeclare
      obtain ⟨-, rfl⟩ := ok_eq_ok.mp h
      exact Engine.declareLabel_declared he hdeclare
    · cases h
  · obtain ⟨-, rfl⟩ := ok_eq_ok.mp h
    exact he

theorem declareAll_declared {labels : List (String × Nat)} {parent : String} {acts r : List Action}
    {e e' : Engine} (he : e.Declared) (h : declareAll labels parent acts e = .ok r e') :
    e'.Declared := by
  induction acts generalizing parent r e with
  | nil =>
      obtain ⟨-, rfl⟩ := pure_eq_ok.mp h
      exact he
  | cons a rest ih =>
      obtain ⟨⟨a', next⟩, e₁, ha, h⟩ := bind_eq_ok.mp h
      obtain ⟨rest', e₂, hrest, hpure⟩ := bind_eq_ok.mp h
      obtain ⟨-, rfl⟩ := pure_eq_ok.mp hpure
      exact ih (declareAction_declared he ha) hrest

end Gather

namespace Assembler

theorem yields_of_gather {asm : Assembler} {acts gathered : List Action} {e : Engine}
    (h : Yields (asm.gather acts) (gathered, e)) :
    ∃ labels, Gather.declareAll labels "" acts { verbose := asm.verbose } = .ok gathered e := by
  unfold gather at h
  obtain ⟨labels, -, h⟩ := h.bind
  refine ⟨labels, ?_⟩
  cases hdeclare : Gather.declareAll labels "" acts { verbose := asm.verbose } with
  | error err e' =>
      simp only [hdeclare] at h
      exact h.throw.elim
  | ok seq e' =>
      simp only [hdeclare] at h
      obtain ⟨_, -, h⟩ := h.bind
      cases h.pure
      rfl

/-- The passes start with every symbol declared and none set. -/
theorem prepare_declared {asm : Assembler} {actions : List Action} {code : Code} {e : Engine}
    (h : Yields (asm.prepare actions) (code, e)) : e.Declared := by
  obtain ⟨included, expanded, gathered, -, -, hgather, -⟩ := yields_of_prepare h
  obtain ⟨labels, hdeclare⟩ := yields_of_gather hgather
  exact Gather.declareAll_declared (Engine.declared_new asm.verbose) hdeclare

end Assembler

end Mos6510
