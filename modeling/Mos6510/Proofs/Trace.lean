import Mos6510.Assembly
import Mos6510.Proofs.Effect

/-!
# Runs of code

`Code.Runs code n k e vs e'` says that the actions `k`, and whatever they jump
to, run from the engine `e` to the engine `e'` with at most `n` jumps, and
make the visits `vs`: each action that was run, the ones that messages
evaluate included, with the engine that it was run on.

* `runFrom_induction`: induction along an execution, jumps included;
* `runFrom_eq_ok_iff`: execution succeeds exactly where there is such a run;
* `mem_trace_iff`: the visits are those of the actions that execution comes to;
* `runFrom_eq_error`: execution fails at one of them;
* `Runs.along`: a property that each action carries on holds at every visit;
* `Runs.respects`: a relation that each action respects is respected by whole
  runs;
* `runPass_eq_ok_iff`: a pass is a run of all actions from its start.
-/

namespace Mos6510

open Outcome EngineM

/-! ## Visits -/

/-- An action that is run, and the engine that it is run on. -/
structure Visit where
  action : Action
  engine : Engine

mutual

/-- The visits of an action: itself, then what it evaluates. -/
def Action.visits : Action → Engine → List Visit
  | ⟨loc, op, x⟩, e => ⟨⟨loc, op, x⟩, e⟩ :: op.nestedVisits e

/-- The visits that an action makes of others: only messages evaluate
arguments, and only in the final pass. -/
def Op.nestedVisits : Op → Engine → List Visit
  | .message _ _ args, e => if e.isFinal then argVisits args e else []
  | _, _ => []

/-- The visits of message arguments, from left to right. -/
def argVisits : List (List Action) → Engine → List Visit
  | [], _ => []
  | [⟨_, .string _, _⟩] :: rest, e => argVisits rest e
  | expr :: rest, e =>
    eachVisits expr e ++
      match (runEach expr >>= fun _ => Engine.pop) e with
      | .ok _ e' => argVisits rest e'
      | .error _ _ => []

/-- The visits of actions in order. -/
def eachVisits : List Action → Engine → List Visit
  | [], _ => []
  | a :: rest, e =>
    a.visits e ++
      match a.run e with
      | .ok _ e' => eachVisits rest e'
      | .error _ _ => []

end

/-- Before the final pass an action visits nothing but itself. -/
theorem Action.visits_of_not_final (a : Action) {e : Engine} (h : e.isFinal = false) :
    a.visits e = [⟨a, e⟩] := by
  obtain ⟨loc, op, x⟩ := a
  cases op with
  | message level formatted args =>
      rw [Action.visits, Op.nestedVisits, h]
      rfl
  | _ => rfl

/-- The visits of an argument that is not a text, and of those after it. -/
theorem argVisits_cons {expr : List Action} {rest : List (List Action)} {e e' : Engine}
    {v : Int64} (hne : ∀ loc s x, expr ≠ [⟨loc, .string s, x⟩])
    (hrun : (runEach expr >>= fun _ => Engine.pop) e = .ok v e') :
    argVisits (expr :: rest) e = eachVisits expr e ++ argVisits rest e' := by
  rw [argVisits]
  · rw [hrun]
  · exact fun loc s x heq => hne loc s x heq

/-! ## What holds along visits -/

/-- At every visit a property of the visits so far and the engine holds, and
the visited action succeeds. -/
def Along (P : List Visit → Engine → Prop) : List Visit → List Visit → Prop
  | _, [] => True
  | past, v :: rest =>
    P past v.engine ∧ (∃ e, v.action.run v.engine = .ok () e) ∧ Along P (past ++ [v]) rest

theorem Along.append {P : List Visit → Engine → Prop} {past vs ws : List Visit}
    (hvs : Along P past vs) (hws : Along P (past ++ vs) ws) : Along P past (vs ++ ws) := by
  induction vs generalizing past with
  | nil => simpa using hws
  | cons v rest ih =>
      obtain ⟨hP, hrun, hrest⟩ := hvs
      refine ⟨hP, hrun, ih hrest ?_⟩
      simpa using hws

/-- What holds along visits holds at each of them. -/
theorem Along.visit {P : List Visit → Engine → Prop} {past before after : List Visit} {v : Visit}
    (h : Along P past (before ++ v :: after)) :
    P (past ++ before) v.engine ∧ ∃ e, v.action.run v.engine = .ok () e := by
  induction before generalizing past with
  | nil => exact ⟨by simpa using h.1, h.2.1⟩
  | cons w rest ih => simpa using ih h.2.2

/-- A property of the visits so far and the engine that every step carries
on. -/
structure Traced (P : List Visit → Engine → Prop) : Prop where
  op : ∀ {past e e'} (a : Action), a.op.isMessage = false → P past e →
    a.run e = .ok () e' → P (past ++ [⟨a, e⟩]) e'
  enter : ∀ {past e} (a : Action), a.op.isMessage = true → P past e → P (past ++ [⟨a, e⟩]) e
  pop : ∀ {past e e' v}, P past e → Engine.pop e = .ok v e' → P past e'
  report : ∀ {past e e' loc level formatted args}, P past e →
    Engine.report loc level formatted args e = .ok () e' → P past e'

mutual

/-- Running an action carries such a property through all its visits. -/
theorem Action.run_along {P : List Visit → Engine → Prop} (hP : Traced P) :
    ∀ (a : Action) {past : List Visit} {e e' : Engine}, P past e → a.run e = .ok () e' →
      Along P past (a.visits e) ∧ P (past ++ a.visits e) e'
  | ⟨loc, op, x⟩, past, e, e', hpast, h => by
      have hself : ∃ e', (⟨loc, op, x⟩ : Action).run e = .ok () e' := ⟨e', h⟩
      cases op with
      | message level formatted args =>
          -- a message is visited as a whole before its arguments are
          have henter := hP.enter ⟨loc, .message level formatted args, x⟩ rfl hpast
          rw [Action.run] at h
          rw [Action.visits, Op.nestedVisits]
          rcases Op.run_message_eq_ok.mp h with ⟨hf, rfl⟩ | ⟨hf, h⟩
          · rw [hf]
            exact ⟨⟨hpast, hself, trivial⟩, henter⟩
          · obtain ⟨values, e₁, hargs, hrep⟩ := bind_eq_ok.mp h
            obtain ⟨halong, hend⟩ := argValues_along hP args henter hargs
            rw [hf]
            refine ⟨⟨hpast, hself, halong⟩, ?_⟩
            simpa using hP.report hend hrep
      | _ => exact ⟨⟨hpast, hself, trivial⟩, hP.op _ rfl hpast h⟩

theorem argValues_along {P : List Visit → Engine → Prop} (hP : Traced P) :
    ∀ (args : List (List Action)) {past : List Visit} {e e' : Engine} {values}, P past e →
      argValues args e = .ok values e' →
        Along P past (argVisits args e) ∧ P (past ++ argVisits args e) e'
  | [], past, e, e', values, hpast, h => by
      rw [argValues] at h
      obtain ⟨-, rfl⟩ := pure_eq_ok.mp h
      rw [argVisits]
      exact ⟨trivial, by simpa using hpast⟩
  | expr :: rest, past, e, e', values, hpast, h => by
      rcases argValues_cons expr rest with ⟨loc, s, x, rfl, heq⟩ | ⟨hne, heq⟩
      · rw [heq] at h
        obtain ⟨values', e₁, hrest, hpure⟩ := bind_eq_ok.mp h
        obtain ⟨-, rfl⟩ := pure_eq_ok.mp hpure
        rw [argVisits]
        exact argValues_along hP rest hpast hrest
      · rw [heq] at h
        obtain ⟨u, e₁, hexpr, h⟩ := bind_eq_ok.mp h
        obtain ⟨v, e₂, hpop, h⟩ := bind_eq_ok.mp h
        obtain ⟨values', e₃, hrest, hpure⟩ := bind_eq_ok.mp h
        obtain ⟨-, rfl⟩ := pure_eq_ok.mp hpure
        obtain ⟨halong, hmid⟩ := runEach_along hP expr hpast hexpr
        obtain ⟨halong', hend⟩ := argValues_along hP rest (hP.pop hmid hpop) hrest
        rw [argVisits_cons hne (bind_eq_ok.mpr ⟨u, e₁, hexpr, hpop⟩)]
        exact ⟨halong.append halong', by simpa using hend⟩

theorem runEach_along {P : List Visit → Engine → Prop} (hP : Traced P) :
    ∀ (acts : List Action) {past : List Visit} {e e' : Engine} {u : Unit}, P past e →
      runEach acts e = .ok u e' →
        Along P past (eachVisits acts e) ∧ P (past ++ eachVisits acts e) e'
  | [], past, e, e', u, hpast, h => by
      rw [runEach] at h
      obtain ⟨-, rfl⟩ := pure_eq_ok.mp h
      rw [eachVisits]
      exact ⟨trivial, by simpa using hpast⟩
  | a :: rest, past, e, e', u, hpast, h => by
      rw [runEach] at h
      obtain ⟨u', e₁, ha, hrest⟩ := bind_eq_ok.mp h
      have ha := locating_eq_ok.mp ha
      obtain ⟨halong, hmid⟩ := Action.run_along hP a hpast ha
      obtain ⟨halong', hend⟩ := runEach_along hP rest hmid hrest
      rw [eachVisits, ha]
      exact ⟨halong.append halong', by simpa using hend⟩

end

/-! ## Runs -/

def Engine.atAction (e : Engine) (a : Action) : Engine := { e with location := a.location }

/-- The engine after the jump that was asked for is made. -/
def Engine.afterJump (e : Engine) : Engine := { e with jump := none, jumps := e.jumps + 1 }

namespace Code

/-- Actions, and whatever they jump to, run from one engine to another with a
bound on the jumps, making some visits. -/
inductive Runs (code : Code) : Nat → List Action → Engine → List Visit → Engine → Prop
  | done {n : Nat} {e : Engine} : Runs code n [] e [] e
  | next {n : Nat} {a : Action} {k : List Action} {e e₁ e' : Engine} {vs : List Visit} :
      a.run (e.atAction a) = .ok () e₁ → e₁.jump = none → Runs code n k e₁ vs e' →
      Runs code n (a :: k) e (a.visits (e.atAction a) ++ vs) e'
  | jump {n : Nat} {a : Action} {j : Int} {k k' : List Action} {e e₁ e' : Engine}
      {vs : List Visit} :
      a.run (e.atAction a) = .ok () e₁ → e₁.jump = some j → code.target? j = some k' →
      Runs code n k' e₁.afterJump vs e' →
      Runs code (n + 1) (a :: k) e (a.visits (e.atAction a) ++ vs) e'

theorem runFrom_nil (code : Code) (n : Nat) (e : Engine) : code.runFrom n [] e = .ok () e := by
  unfold runFrom
  rfl

/-- A stretch of actions ends with the first one that fails or asks for a jump. -/
theorem runStretch_cons (a : Action) (k : List Action) (e : Engine) :
    runStretch (a :: k) e =
      match a.run (e.atAction a) with
      | .error err e₁ => .failed (err.atAction a) e₁
      | .ok _ e₁ =>
        match e₁.jump with
        | none => runStretch k e₁
        | some j => .jumped a j { e₁ with jump := none } := by
  rw [runStretch]
  rfl

/-- Execution one action at a time. -/
theorem runFrom_cons (code : Code) (n : Nat) (a : Action) (k : List Action) (e : Engine) :
    code.runFrom n (a :: k) e =
      match a.run (e.atAction a) with
      | .error err e₁ => .error (err.atAction a) e₁
      | .ok _ e₁ =>
        match e₁.jump with
        | none => code.runFrom n k e₁
        | some j =>
          match code.target? j with
          | none => .error ((Error.unknownJump j).atAction a) { e₁ with jump := none }
          | some k' =>
            match n with
            | 0 => .error (Error.loopLimit.atAction a) e₁.afterJump
            | n + 1 => code.runFrom n k' e₁.afterJump := by
  conv => lhs; unfold runFrom
  rw [runStretch_cons]
  cases a.run (e.atAction a) with
  | error err e₁ => rfl
  | ok u e₁ =>
      cases hj : e₁.jump with
      | none =>
          simp only [hj]
          conv => rhs; unfold runFrom
      | some j =>
          simp only [hj]
          cases code.target? j with
          | none => rfl
          | some k' => cases n <;> rfl

theorem runFrom_next {code : Code} {n : Nat} {a : Action} {k : List Action} {e e₁ : Engine}
    (ha : a.run (e.atAction a) = .ok () e₁) (hj : e₁.jump = none) :
    code.runFrom n (a :: k) e = code.runFrom n k e₁ := by
  rw [runFrom_cons, ha]
  simp only [hj]

theorem runFrom_jump {code : Code} {n : Nat} {a : Action} {j : Int} {k k' : List Action}
    {e e₁ : Engine} (ha : a.run (e.atAction a) = .ok () e₁) (hj : e₁.jump = some j)
    (ht : code.target? j = some k') :
    code.runFrom (n + 1) (a :: k) e = code.runFrom n k' e₁.afterJump := by
  rw [runFrom_cons, ha]
  simp only [hj, ht]

/-- Induction along execution: an action that does not jump shortens the rest, a jump lowers
the bound. -/
theorem runFrom_induction {motive : Nat → List Action → Prop} (nil : ∀ n, motive n [])
    (cons : ∀ n a k, motive n k → (∀ m, n = m + 1 → ∀ k', motive m k') → motive n (a :: k))
    (n : Nat) (k : List Action) : motive n k := by
  induction n generalizing k with
  | zero =>
      induction k with
      | nil => exact nil 0
      | cons a k ih => exact cons 0 a k ih nofun
  | succ n ihn =>
      induction k with
      | nil => exact nil (n + 1)
      | cons a k ih => exact cons (n + 1) a k ih fun m h => Nat.succ.inj h ▸ ihn

/-- Execution succeeds exactly where there is a run. -/
theorem runFrom_eq_ok_iff {code : Code} {n : Nat} {k : List Action} {e e' : Engine} :
    code.runFrom n k e = .ok () e' ↔ ∃ vs, code.Runs n k e vs e' := by
  constructor
  · intro h
    -- on the actions left, and at a jump on the jumps left
    induction n, k using runFrom_induction generalizing e with
    | nil n =>
        rw [runFrom_nil] at h
        cases h
        exact ⟨[], .done⟩
    | cons n a k ih ihn =>
        rw [runFrom_cons] at h
        split at h
        · cases h
        · rename_i u e₁ ha
          split at h
          · rename_i hj
            obtain ⟨vs, hvs⟩ := ih h
            exact ⟨_, .next ha hj hvs⟩
          · rename_i j hj
            split at h
            · cases h
            · rename_i k' ht
              cases n with
              | zero => cases h
              | succ n =>
                  obtain ⟨vs, hvs⟩ := ihn n rfl k' h
                  exact ⟨_, .jump ha hj ht hvs⟩
  · rintro ⟨vs, h⟩
    induction h with
    | done => exact runFrom_nil _ _ _
    | next ha hj _ ih => rw [runFrom_next ha hj, ih]
    | jump ha hj ht _ ih => rw [runFrom_jump ha hj ht, ih]

/-- The visits of actions up to the first that fails or asks for a jump. -/
def stretchVisits : List Action → Engine → List Visit
  | [], _ => []
  | a :: rest, e =>
    a.visits (e.atAction a) ++
      match a.run (e.atAction a) with
      | .error _ _ => []
      | .ok _ e =>
        match e.jump with
        | none => stretchVisits rest e
        | some _ => []

/-- The visits of actions and whatever they jump to, computed. -/
def trace (code : Code) : Nat → List Action → Engine → List Visit
  | budget, k, e =>
    stretchVisits k e ++
      match runStretch k e with
      | .jumped _ j e =>
        match budget, code.target? j with
        | budget + 1, some k => trace code budget k { e with jumps := e.jumps + 1 }
        | _, _ => []
      | _ => []

/-- The visits one action at a time. -/
theorem trace_cons (code : Code) (n : Nat) (a : Action) (k : List Action) (e : Engine) :
    code.trace n (a :: k) e =
      a.visits (e.atAction a) ++
        match a.run (e.atAction a) with
        | .error _ _ => []
        | .ok _ e₁ =>
          match e₁.jump with
          | none => code.trace n k e₁
          | some j =>
            match n, code.target? j with
            | n + 1, some k' => code.trace n k' e₁.afterJump
            | _, _ => [] := by
  conv => lhs; unfold trace
  rw [stretchVisits, runStretch_cons]
  cases a.run (e.atAction a) with
  | error err e₁ => simp
  | ok u e₁ =>
      cases hj : e₁.jump with
      | none =>
          simp only [hj, List.append_assoc]
          conv => rhs; unfold trace
      | some j =>
          simp only [hj, List.append_nil]
          rfl

theorem trace_next {code : Code} {n : Nat} {a : Action} {k : List Action} {e e₁ : Engine}
    (ha : a.run (e.atAction a) = .ok () e₁) (hj : e₁.jump = none) :
    code.trace n (a :: k) e = a.visits (e.atAction a) ++ code.trace n k e₁ := by
  rw [trace_cons, ha]
  simp only [hj]

theorem trace_jump {code : Code} {n : Nat} {a : Action} {j : Int} {k k' : List Action}
    {e e₁ : Engine} (ha : a.run (e.atAction a) = .ok () e₁) (hj : e₁.jump = some j)
    (ht : code.target? j = some k') :
    code.trace (n + 1) (a :: k) e = a.visits (e.atAction a) ++ code.trace n k' e₁.afterJump := by
  rw [trace_cons, ha]
  simp only [hj, ht]

/-- The computed visits are those of the run. -/
theorem Runs.trace_eq {code : Code} {n : Nat} {k : List Action} {e e' : Engine} {vs : List Visit}
    (h : code.Runs n k e vs e') : code.trace n k e = vs := by
  induction h with
  | @done n e =>
      unfold trace
      rfl
  | next ha hj _ ih => rw [trace_next ha hj, ih]
  | jump ha hj ht _ ih => rw [trace_jump ha hj ht, ih]

/-- Execution from some actions on comes to others, with the engine that it has
there and the jumps that are left. -/
inductive Arrives (code : Code) (n : Nat) (k : List Action) (e : Engine) :
    Nat → List Action → Engine → Prop
  | start : Arrives code n k e n k e
  | next {m : Nat} {a : Action} {l : List Action} {d d' : Engine} :
      Arrives code n k e m (a :: l) d → a.run (d.atAction a) = .ok () d' → d'.jump = none →
      Arrives code n k e m l d'
  | jump {m : Nat} {a : Action} {j : Int} {l l' : List Action} {d d' : Engine} :
      Arrives code n k e (m + 1) (a :: l) d → a.run (d.atAction a) = .ok () d' →
      d'.jump = some j → code.target? j = some l' → Arrives code n k e m l' d'.afterJump

/-- Where execution is after a number of actions, computed. -/
def walk (code : Code) : Nat → Nat → List Action → Engine → Option (Nat × List Action × Engine)
  | 0, n, k, e => some (n, k, e)
  | _ + 1, _, [], _ => none
  | i + 1, n, a :: k, e =>
    match a.run (e.atAction a) with
    | .error _ _ => none
    | .ok _ e₁ =>
      match e₁.jump with
      | none => walk code i n k e₁
      | some j =>
        match n, code.target? j with
        | n + 1, some k' => walk code i n k' e₁.afterJump
        | _, _ => none

/-- Execution comes to where it is computed to be. -/
theorem Arrives.walk {code : Code} {n₀ n m : Nat} {k₀ k l : List Action} {e₀ e d : Engine}
    (h : code.Arrives n₀ k₀ e₀ n k e) {i : Nat} (hwalk : code.walk i n k e = some (m, l, d)) :
    code.Arrives n₀ k₀ e₀ m l d := by
  induction i generalizing n k e with
  | zero =>
      cases hwalk
      exact h
  | succ i ih =>
      cases k with
      | nil => cases hwalk
      | cons a k =>
          rw [Code.walk] at hwalk
          split at hwalk
          · cases hwalk
          · rename_i u e₁ ha
            split at hwalk
            · rename_i hj
              exact ih (.next h ha hj) hwalk
            · rename_i j hj
              split at hwalk
              · rename_i n k' ht
                exact ih (.jump h ha hj ht) hwalk
              · cases hwalk

/-- The visits are those of the actions that execution comes to, be the last of
them a success or not. -/
theorem mem_trace_iff {code : Code} {n : Nat} {k : List Action} {e : Engine} {v : Visit} :
    v ∈ code.trace n k e ↔
      ∃ m a l d, code.Arrives n k e m (a :: l) d ∧ v ∈ a.visits (d.atAction a) := by
  constructor
  · suffices h : ∀ m l d, code.Arrives n k e m l d → v ∈ code.trace m l d →
        ∃ m a l d, code.Arrives n k e m (a :: l) d ∧ v ∈ a.visits (d.atAction a) from
      h n k e .start
    intro m l
    induction m, l using runFrom_induction with
    | nil m =>
        intro d _ hv
        unfold trace at hv
        exact absurd hv List.not_mem_nil
    | cons m a l ih ihm =>
        intro d harrive hv
        rw [trace_cons, List.mem_append] at hv
        rcases hv with hv | hv
        · exact ⟨m, a, l, d, harrive, hv⟩
        · split at hv
          · exact absurd hv List.not_mem_nil
          · rename_i u d' ha
            split at hv
            · rename_i hj
              exact ih d' (.next harrive ha hj) hv
            · rename_i j hj
              split at hv
              · rename_i m l' ht
                exact ihm m rfl l' _ (.jump harrive ha hj ht) hv
              · exact absurd hv List.not_mem_nil
  · rintro ⟨m, a, l, d, harrive, hv⟩
    have hhere : v ∈ code.trace m (a :: l) d := by
      rw [trace_cons]
      exact List.mem_append_left _ hv
    clear hv
    -- back along the arrival: each step leaves the visit in the trace of what came before
    generalize a :: l = l at harrive hhere
    induction harrive with
    | start => exact hhere
    | next _ ha hj ih =>
        refine ih ?_
        rw [trace_next ha hj]
        exact List.mem_append_right _ hhere
    | jump _ ha hj ht ih =>
        refine ih ?_
        rw [trace_jump ha hj ht]
        exact List.mem_append_right _ hhere

/-- How execution fails at an action: the action does, the jump that it asks for
has no target, or there were too many jumps. -/
inductive FailsAt (code : Code) (a : Action) (d : Engine) : Error → Prop
  | run {err : Error} {d' : Engine} : a.run (d.atAction a) = .error err d' →
      FailsAt code a d (err.atAction a)
  | jump {j : Int} {d' : Engine} : a.run (d.atAction a) = .ok () d' → d'.jump = some j →
      code.target? j = none → FailsAt code a d ((Error.unknownJump j).atAction a)
  | limit : FailsAt code a d (Error.loopLimit.atAction a)

/-- Execution fails at an action that it comes to. -/
theorem runFrom_eq_error {code : Code} {n : Nat} {k : List Action} {e e' : Engine} {err : Error}
    (h : code.runFrom n k e = .error err e') :
    ∃ m a l d, code.Arrives n k e m (a :: l) d ∧ code.FailsAt a d err := by
  suffices hfrom : ∀ m l d, code.Arrives n k e m l d → code.runFrom m l d = .error err e' →
      ∃ m a l d, code.Arrives n k e m (a :: l) d ∧ code.FailsAt a d err from hfrom n k e .start h
  intro m l
  -- the arrival grows with each step, so that it names the place that fails
  induction m, l using runFrom_induction with
  | nil m =>
      intro d _ hrun
      rw [runFrom_nil] at hrun
      cases hrun
  | cons m a l ih ihm =>
      intro d harrive hrun
      rw [runFrom_cons] at hrun
      split at hrun
      · rename_i err₁ e₁ ha
        cases hrun
        exact ⟨m, a, l, d, harrive, .run ha⟩
      · rename_i u d' ha
        split at hrun
        · rename_i hj
          exact ih d' (.next harrive ha hj) hrun
        · rename_i j hj
          split at hrun
          · rename_i hnone
            cases hrun
            exact ⟨m, a, l, d, harrive, .jump ha hj hnone⟩
          · rename_i k' ht
            cases m with
            | zero =>
                cases hrun
                exact ⟨0, a, l, d, harrive, .limit⟩
            | succ m => exact ihm m rfl k' _ (.jump harrive ha hj ht) hrun

/-- A property that every step carries on, and that does not depend on where
execution stands, holds at every visit of a run and at its end. -/
theorem Runs.along {P : List Visit → Engine → Prop} (hP : Traced P)
    (harrive : ∀ past e a, P past e → P past (e.atAction a))
    (hjump : ∀ past e, P past e → P past e.afterJump)
    {code : Code} {n : Nat} {k : List Action} {e e' : Engine} {past vs : List Visit}
    (h : code.Runs n k e vs e') (hpast : P past e) :
    Along P past vs ∧ P (past ++ vs) e' := by
  induction h generalizing past with
  | done => exact ⟨trivial, by simpa using hpast⟩
  | next ha _ _ ih =>
      obtain ⟨halong, hmid⟩ := Action.run_along hP _ (harrive _ _ _ hpast) ha
      obtain ⟨halong', hend⟩ := ih hmid
      exact ⟨halong.append halong', by simpa using hend⟩
  | jump ha _ _ _ ih =>
      obtain ⟨halong, hmid⟩ := Action.run_along hP _ (harrive _ _ _ hpast) ha
      obtain ⟨halong', hend⟩ := ih (hjump _ _ hmid)
      exact ⟨halong.append halong', by simpa using hend⟩

/-- Two engines that are related before each action they both run stay so over
whole runs.  `S` is what the actions of the code are known to be. -/
theorem Runs.respects {R : Engine → Engine → Prop} {S : Action → Prop} {code : Code}
    (hstep : ∀ a, S a → ∀ e₁ e₂, R e₁ e₂ → ∀ e₁', a.run (e₁.atAction a) = .ok () e₁' →
      ∃ e₂', a.run (e₂.atAction a) = .ok () e₂' ∧ R e₁' e₂')
    (hpending : ∀ e₁ e₂, R e₁ e₂ → e₁.jump = e₂.jump)
    (hjump : ∀ e₁ e₂, R e₁ e₂ → R e₁.afterJump e₂.afterJump)
    (htargets : ∀ j k, code.target? j = some k → ∀ a ∈ k, S a)
    {n : Nat} {k : List Action} {e₁ e₁' e₂ : Engine} {vs : List Visit}
    (h : code.Runs n k e₁ vs e₁') (hk : ∀ a ∈ k, S a) (hR : R e₁ e₂) :
    ∃ ws e₂', code.Runs n k e₂ ws e₂' ∧ R e₁' e₂' := by
  induction h generalizing e₂ with
  | done => exact ⟨[], e₂, .done, hR⟩
  | next ha hj _ ih =>
      obtain ⟨ha', hk'⟩ := List.forall_mem_cons.mp hk
      obtain ⟨e₂', hrun, hR'⟩ := hstep _ ha' _ _ hR _ ha
      rw [hpending _ _ hR'] at hj
      obtain ⟨ws, e₂'', hruns, hR''⟩ := ih hk' hR'
      exact ⟨_, e₂'', .next hrun hj hruns, hR''⟩
  | jump ha hj ht _ ih =>
      obtain ⟨ha', -⟩ := List.forall_mem_cons.mp hk
      obtain ⟨e₂', hrun, hR'⟩ := hstep _ ha' _ _ hR _ ha
      rw [hpending _ _ hR'] at hj
      obtain ⟨ws, e₂'', hruns, hR''⟩ := ih (htargets _ _ ht) (hjump _ _ hR')
      exact ⟨_, e₂'', .jump hrun hj ht hruns, hR''⟩

/-- A first engine follows the run of a second: it completes as well and the two
stay related, or it fails in a way that is allowed for.  `C` is what is known of
the visits that the two have still to make. -/
theorem Runs.follows {γ : Type} {R : γ → Engine → Engine → Prop}
    {C : γ → List Visit → List Visit → Prop} {S : Action → Prop} {P : Error → Prop} {code : Code}
    (hstep : ∀ g a e₁ e₂ e₂' vs ws, S a → R g e₁ e₂ →
      C g (a.visits (e₁.atAction a) ++ vs) (a.visits (e₂.atAction a) ++ ws) →
      a.run (e₂.atAction a) = .ok () e₂' →
      (∃ g' e₁', a.run (e₁.atAction a) = .ok () e₁' ∧ R g' e₁' e₂' ∧ C g' vs ws) ∨
        ∃ err e₁', a.run (e₁.atAction a) = .error err e₁' ∧ P (err.atAction a))
    (hpending : ∀ g e₁ e₂, R g e₁ e₂ → e₁.jump = e₂.jump)
    (hjump : ∀ g e₁ e₂, R g e₁ e₂ → R g e₁.afterJump e₂.afterJump)
    (htargets : ∀ j k, code.target? j = some k → ∀ a ∈ k, S a)
    {n : Nat} {k : List Action} {e₁ e₂ e₂' : Engine} {ws : List Visit}
    (h : code.Runs n k e₂ ws e₂') (hk : ∀ a ∈ k, S a) {g : γ} (hR : R g e₁ e₂)
    (hC : C g (code.trace n k e₁) ws) :
    (∃ g' e₁', code.runFrom n k e₁ = .ok () e₁' ∧ R g' e₁' e₂' ∧ C g' [] []) ∨
      ∃ err e₁', code.runFrom n k e₁ = .error err e₁' ∧ P err := by
  induction h generalizing g e₁ with
  | done =>
      unfold trace at hC
      exact .inl ⟨g, e₁, runFrom_nil _ _ _, hR, hC⟩
  | @next _ a _ _ _ _ _ ha hj _ ih =>
      obtain ⟨hSa, hSk⟩ := List.forall_mem_cons.mp hk
      rw [trace_cons] at hC
      rcases hstep g a e₁ _ _ _ _ hSa hR hC ha with
        ⟨g', e₁', hrun, hR', hC'⟩ | ⟨err, e₁', hrun, hP⟩
      -- both engines want the same jump, so the first goes on where the second did
      · have hj₁ := (hpending _ _ _ hR').trans hj
        simp only [hrun, hj₁] at hC'
        rw [runFrom_next hrun hj₁]
        exact ih hSk hR' hC'
      · refine .inr ⟨_, e₁', ?_, hP⟩
        rw [runFrom_cons, hrun]
  | @jump _ a _ _ _ _ _ _ _ ha hj ht _ ih =>
      obtain ⟨hSa, -⟩ := List.forall_mem_cons.mp hk
      rw [trace_cons] at hC
      rcases hstep g a e₁ _ _ _ _ hSa hR hC ha with
        ⟨g', e₁', hrun, hR', hC'⟩ | ⟨err, e₁', hrun, hP⟩
      · have hj₁ := (hpending _ _ _ hR').trans hj
        simp only [hrun, hj₁, ht] at hC'
        rw [runFrom_jump hrun hj₁ ht]
        exact ih (htargets _ _ ht) (hjump _ _ _ hR') hC'
      · refine .inr ⟨_, e₁', ?_, hP⟩
        rw [runFrom_cons, hrun]

/-- Two runs of the same actions, of which the first is not final, stay related
step by step. -/
theorem Runs.lockstep {γ : Type} {R : γ → Engine → Engine → Prop} {C : γ → List Visit → Prop}
    {S : Action → Prop} {code : Code}
    (hstep : ∀ g a e₁ e₂ e₁' e₂' vs, S a → R g e₁ e₂ → C g (⟨a, e₁.atAction a⟩ :: vs) →
      a.run (e₁.atAction a) = .ok () e₁' → a.run (e₂.atAction a) = .ok () e₂' →
      ∃ g', R g' e₁' e₂' ∧ C g' vs)
    (hnotFinal : ∀ g e₁ e₂, R g e₁ e₂ → e₁.isFinal = false)
    (hpending : ∀ g e₁ e₂, R g e₁ e₂ → e₁.jump = e₂.jump)
    (hjump : ∀ g e₁ e₂, R g e₁ e₂ → R g e₁.afterJump e₂.afterJump)
    (htargets : ∀ j k, code.target? j = some k → ∀ a ∈ k, S a)
    {n : Nat} {k : List Action} {e₁ e₁' e₂ e₂' : Engine} {vs ws : List Visit}
    (h₁ : code.Runs n k e₁ vs e₁') (h₂ : code.Runs n k e₂ ws e₂') (hk : ∀ a ∈ k, S a)
    {g : γ} (hR : R g e₁ e₂) (hC : C g vs) : ∃ g', R g' e₁' e₂' := by
  rw [← h₁.trace_eq] at hC
  have hrun := runFrom_eq_ok_iff.mpr ⟨vs, h₁⟩
  have hboth : ∀ g a d₁ d₂ d₂' us, S a → R g d₁ d₂ → C g (a.visits (d₁.atAction a) ++ us) →
      a.run (d₂.atAction a) = .ok () d₂' →
      (∃ g' d₁', a.run (d₁.atAction a) = .ok () d₁' ∧ R g' d₁' d₂' ∧ C g' us) ∨
        ∃ err d₁', a.run (d₁.atAction a) = .error err d₁' ∧ True := by
    intro g a d₁ d₂ d₂' us hS hR hC ha₂
    have hquiet : (d₁.atAction a).isFinal = false := hnotFinal g d₁ d₂ hR
    rw [Action.visits_of_not_final a hquiet] at hC
    cases ha₁ : a.run (d₁.atAction a) with
    | ok u d₁' =>
        obtain ⟨g', hR', hC'⟩ := hstep g a d₁ d₂ d₁' d₂' us hS hR hC ha₁ ha₂
        exact .inl ⟨g', d₁', rfl, hR', hC'⟩
    | error err d₁' => exact .inr ⟨err, d₁', rfl, trivial⟩
  -- both runs are given, so the second branch of `follows` contradicts the first run
  rcases h₂.follows (C := fun g vs _ => C g vs) (P := fun _ => True)
      (fun g a d₁ d₂ d₂' us _ => hboth g a d₁ d₂ d₂' us) hpending hjump htargets hk hR hC with
    ⟨g', e, hrun', hR', -⟩ | ⟨err, e, hrun', -⟩
  · obtain ⟨-, rfl⟩ := ok_eq_ok.mp (hrun.symm.trans hrun')
    exact ⟨g', hR'⟩
  · rw [hrun] at hrun'
    cases hrun'

/-! ## Passes -/

/-- The engine at the start of a pass. -/
def start (code : Code) (pass : Pass) (e : Engine) : Engine :=
  { e.begin pass with counters := Array.replicate code.counters 0 }

/-- A pass goes through with some visits. -/
def Passes (code : Code) (pass : Pass) (e : Engine) (vs : List Visit) (e' : Engine) : Prop :=
  code.Runs jumpLimit code.actions (code.start pass e) vs e'

/-- The visits of a pass, computed. -/
def passTrace (code : Code) (pass : Pass) (e : Engine) : List Visit :=
  code.trace jumpLimit code.actions (code.start pass e)

theorem execute_start (code : Code) (pass : Pass) (e : Engine) :
    code.execute (code.start pass e) = code.runFrom jumpLimit code.actions (code.start pass e) :=
  rfl

end Code

namespace Assembler

/-- A pass executes all actions from its start; its report goes to the log. -/
theorem runPass_eq_ok_iff {verbose : Bool} {code : Code} {pass : Pass} {e e' : Engine} {u : Unit} :
    runPass verbose code pass e = .ok u e' ↔
      ∃ vs e₁, code.Passes pass e vs e₁ ∧ e' = { e₁ with
        log := e₁.log.addIf verbose (pass.name ++ ": " ++ Text.decimal e₁.regions.length
          ++ " regions, " ++ Text.decimal (Region.total e₁.regions) ++ " bytes, "
          ++ Text.decimal e₁.jumps ++ " jumps") } := by
  unfold runPass
  constructor
  · intro h
    obtain ⟨_, e₀, hstart, h⟩ := bind_eq_ok.mp h
    obtain ⟨_, e₁, hexec, hlog⟩ := bind_eq_ok.mp h
    cases hstart
    cases hlog
    obtain ⟨vs, hvs⟩ := Code.runFrom_eq_ok_iff.mp ((code.execute_start pass e).symm.trans hexec)
    exact ⟨vs, e₁, hvs, rfl⟩
  · rintro ⟨vs, e₁, hvs, rfl⟩
    have hexec := (code.execute_start pass e).trans (Code.runFrom_eq_ok_iff.mpr ⟨vs, hvs⟩)
    exact bind_eq_ok.mpr ⟨(), _, rfl, bind_eq_ok.mpr ⟨(), e₁, hexec, rfl⟩⟩

/-- A pass fails where the execution of its actions does. -/
theorem runPass_eq_error {verbose : Bool} {code : Code} {pass : Pass} {e e' : Engine} {err : Error}
    (h : runPass verbose code pass e = .error err e') :
    code.runFrom Code.jumpLimit code.actions (code.start pass e) = .error err e' := by
  unfold runPass at h
  rcases bind_eq_error.mp h with hstart | ⟨_, e₁, hstart, h⟩
  · cases hstart
  · cases hstart
    rcases bind_eq_error.mp h with hexec | ⟨_, e₂, -, hlog⟩
    · exact hexec
    · cases hlog

end Assembler

end Mos6510
