import Mos6510.Proofs.Causes
import Mos6510.Proofs.Targets
import Mos6510.Proofs.Stages

/-!
# Every assembly ends

Neither the source nor an includer has to be well-behaved: loops can go on
forever, and a file can include itself.  What bounds an assembly are two
limits, and this file says that they do just that.

Both are compared with the unlimited behaviour.  `Code.Steps` goes through code
as long as it can be gone through, counting actions and jumps; `Resolved` and
`Reaches` follow includes however deep.

* `Code.Steps.length_le`: between two jumps execution only moves on, so with few
  jumps it runs few actions;
* `Code.runFrom_of_steps`: with a bound on the jumps execution follows the
  unlimited steps up to the bound, and fails one jump beyond;
* `Code.runFrom_stops`: it always comes to a stop;
* `resolveIncludes_stops`: includes are resolved as without a limit, or one is
  reached inside of as many others as the limit says.
-/

namespace Mos6510

open Outcome

/-! ## Going through code -/

/-- Where execution stands: the actions to come, and the engine. -/
structure Place where
  rest : List Action
  engine : Engine

namespace Code

/-- From one place to another in a number of actions, so many of which jumped
to a target that there is.  Nothing limits the jumps. -/
inductive Steps (code : Code) (p : Place) : Nat → Nat → Place → Prop
  | start : Steps code p 0 0 p
  | next {n j : Nat} {a : Action} {k : List Action} {e e₁ : Engine} :
      Steps code p n j ⟨a :: k, e⟩ → a.run (e.atAction a) = .ok () e₁ → e₁.jump = none →
      Steps code p (n + 1) j ⟨k, e₁⟩
  | jump {n j : Nat} {a : Action} {i : Int} {k k' : List Action} {e e₁ : Engine} :
      Steps code p n j ⟨a :: k, e⟩ → a.run (e.atAction a) = .ok () e₁ → e₁.jump = some i →
      code.target? i = some k' → Steps code p (n + 1) (j + 1) ⟨k', e₁.afterJump⟩

/-- Why execution, with a number of jumps left, does not go on from a place. -/
inductive Stops (code : Code) : Nat → Place → EStateM.Result Error Engine Unit → Prop
  | finished {m : Nat} {e : Engine} : Stops code m ⟨[], e⟩ (.ok () e)
  | failed {m : Nat} {a : Action} {k : List Action} {e e₁ : Engine} {err : Error} :
      a.run (e.atAction a) = .error err e₁ → Stops code m ⟨a :: k, e⟩ (.error (err.atAction a) e₁)
  | astray {m : Nat} {a : Action} {i : Int} {k : List Action} {e e₁ : Engine} :
      a.run (e.atAction a) = .ok () e₁ → e₁.jump = some i → code.target? i = none →
      Stops code m ⟨a :: k, e⟩ (.error ((Error.unknownJump i).atAction a) { e₁ with jump := none })
  | limit {a : Action} {i : Int} {k k' : List Action} {e e₁ : Engine} :
      a.run (e.atAction a) = .ok () e₁ → e₁.jump = some i → code.target? i = some k' →
      Stops code 0 ⟨a :: k, e⟩ (.error (Error.loopLimit.atAction a) e₁.afterJump)

variable {code : Code}

/-- Between jumps the rest gets shorter, and a jump leaves no more than all of
the code to be run. -/
theorem Steps.length_le (hsuffix : ∀ i k, code.target? i = some k → k.length ≤ code.actions.length)
    {n j : Nat} {p q : Place} (hp : p.rest.length ≤ code.actions.length)
    (h : code.Steps p n j q) : n + q.rest.length ≤ (j + 1) * code.actions.length := by
  induction h with
  | start => simpa using hp
  | @next n j a k e e₁ _ _ _ ih =>
      rw [List.length_cons] at ih
      show n + 1 + k.length ≤ _
      omega
  | @jump n j a i k k' e e₁ _ _ _ ht ih =>
      -- a jump restarts a tail no longer than the code, which the larger budget covers
      have hk' := hsuffix i k' ht
      rw [List.length_cons] at ih
      calc n + 1 + k'.length ≤ (j + 1) * code.actions.length + code.actions.length := by omega
        _ = (j + 1 + 1) * code.actions.length := (Nat.succ_mul _ _).symm

/-- With a bound on the jumps execution goes where the steps lead within the
bound, and fails where they lead beyond. -/
theorem runFrom_of_steps {n j : Nat} {p q : Place} (h : code.Steps p n j q) (m : Nat) :
    (j ≤ m → code.runFrom m p.rest p.engine = code.runFrom (m - j) q.rest q.engine) ∧
      (m < j → ∃ a e, code.runFrom m p.rest p.engine = .error (Error.loopLimit.atAction a) e) := by
  induction h with
  | start => exact ⟨fun _ => rfl, fun h => absurd h (Nat.not_lt_zero m)⟩
  | @next n j a k e e₁ _ ha hj ih =>
      refine ⟨fun hle => ?_, ih.2⟩
      rw [ih.1 hle]
      exact runFrom_next ha hj
  | @jump n j a i k k' e e₁ _ ha hj ht ih =>
      refine ⟨fun hle => ?_, fun hlt => ?_⟩
      · have hleft : m - j = m - (j + 1) + 1 := by omega
        rw [ih.1 (by omega), hleft]
        exact runFrom_jump ha hj ht
      · by_cases hlast : m = j
        · -- this is the jump that there is no room for
          subst hlast
          refine ⟨a, e₁.afterJump, ?_⟩
          rw [ih.1 (Nat.le_refl _), Nat.sub_self]
          show code.runFrom 0 (a :: k) e = _
          rw [runFrom_cons, ha]
          simp only [hj, ht]
        · exact ih.2 (by omega)

/-- Execution comes to a stop, wherever it starts. -/
theorem runFrom_stops (code : Code) (m : Nat) (p : Place) :
    ∃ n j q, j ≤ m ∧ code.Steps p n j q ∧ code.Stops (m - j) q (code.runFrom m p.rest p.engine) := by
  suffices hfrom : ∀ left l d n j, j + left = m → code.Steps p n j ⟨l, d⟩ →
      ∃ n j q, j ≤ m ∧ code.Steps p n j q ∧ code.Stops (m - j) q (code.runFrom left l d) from
    hfrom m p.rest p.engine 0 0 (Nat.zero_add m) .start
  intro left l
  -- `j` jumps were taken and `left` remain, `n` steps reach the place where the run stands
  induction left, l using runFrom_induction with
  | nil left =>
      intro d n j hsum hsteps
      rw [runFrom_nil]
      exact ⟨n, j, _, by omega, hsteps, .finished⟩
  | cons left a l ih ihleft =>
      intro d n j hsum hsteps
      have hle : j ≤ m := by omega
      cases ha : a.run (d.atAction a) with
      | error err e₁ =>
          rw [runFrom_cons, ha]
          exact ⟨n, j, _, hle, hsteps, .failed ha⟩
      | ok u e₁ =>
          cases hj : e₁.jump with
          | none =>
              rw [runFrom_next ha hj]
              exact ih e₁ (n + 1) j hsum (.next hsteps ha hj)
          | some i =>
              cases ht : code.target? i with
              | none =>
                  rw [runFrom_cons, ha]
                  simp only [hj, ht]
                  exact ⟨n, j, _, hle, hsteps, .astray ha hj ht⟩
              | some k' =>
                  cases left with
                  | zero =>
                      rw [runFrom_cons, ha]
                      simp only [hj, ht]
                      refine ⟨n, j, _, hle, hsteps, ?_⟩
                      rw [show m - j = 0 by omega]
                      exact .limit ha hj ht
                  | succ left =>
                      rw [runFrom_jump ha hj ht]
                      exact ihleft left rfl k' _ (n + 1) (j + 1) (by omega) (.jump hsteps ha hj ht)

/-- Only too many jumps are answered with the error for that. -/
theorem Stops.of_loopLimit {m : Nat} {p : Place} {err : Error} {e : Engine}
    (h : code.Stops m p (.error err e)) (hlimit : Error.loopLimit ∈ err.chain) :
    m = 0 ∧ ∃ a i k k' e₁, p.rest = a :: k ∧ a.run (p.engine.atAction a) = .ok () e₁ ∧
      e₁.jump = some i ∧ code.target? i = some k' := by
  have hany : err.chain.any (· == Error.loopLimit) = true :=
    List.any_eq_true.mpr ⟨_, hlimit, beq_self_eq_true _⟩
  cases h with
  | @failed m a k d e₁ err₀ ha =>
      rw [Error.any_chain_atAction (fun _ _ => rfl) (fun _ _ _ => rfl)] at hany
      obtain ⟨cause, hcause, h⟩ := Action.run_cause a ha
      -- a failed action raises an ordinary cause, and the limit is none of those
      have hnot : cause ≠ .loopLimit := by
        rintro rfl
        cases hcause
      have hchain := Error.chain_of_isBare (Error.isBare_of_isRuntime hcause)
      rcases h with rfl | ⟨-, -, b, -, rfl⟩
      · rw [hchain] at hany
        simp [hnot] at hany
      · rw [Error.chain, hchain] at hany
        simp [hnot] at hany
  | astray =>
      rw [Error.any_chain_atAction (fun _ _ => rfl) (fun _ _ _ => rfl)] at hany
      cases hany
  | limit ha hj ht => exact ⟨rfl, _, _, _, _, _, rfl, ha, hj, ht⟩

/-- Execution runs into the limit just if its jumps go beyond. -/
theorem runFrom_loopLimit_iff (code : Code) (m : Nat) (p : Place) :
    (∃ err e, code.runFrom m p.rest p.engine = .error err e ∧ Error.loopLimit ∈ err.chain) ↔
      ∃ n j q, code.Steps p n j q ∧ m < j := by
  constructor
  · rintro ⟨err, e, hrun, hlimit⟩
    obtain ⟨n, j, q, hle, hsteps, hstops⟩ := code.runFrom_stops m p
    rw [hrun] at hstops
    obtain ⟨hleft, a, i, k, k', e₁, hrest, ha, hj, ht⟩ := hstops.of_loopLimit hlimit
    obtain ⟨rest, d⟩ := q
    subst hrest
    exact ⟨n + 1, j + 1, _, .jump hsteps ha hj ht, by omega⟩
  · rintro ⟨n, j, q, hsteps, hlt⟩
    obtain ⟨a, e, hrun⟩ := (runFrom_of_steps hsteps m).2 hlt
    refine ⟨_, e, hrun, ?_⟩
    -- the error of the stop at the limit is the limit, located
    have hany : ((Error.loopLimit.atAction a).chain.any (· == Error.loopLimit)) = true := by
      rw [Error.any_chain_atAction (fun _ _ => rfl) (fun _ _ _ => rfl)]
      rfl
    obtain ⟨err, hmem, heq⟩ := List.any_eq_true.mp hany
    rwa [eq_of_beq heq] at hmem

end Code

/-! ## Passes -/

/-- Where a pass starts. -/
def Code.entry (code : Code) (pass : Pass) (e : Engine) : Place :=
  ⟨code.actions, code.start pass e⟩

/-- How a pass over some code ends. -/
structure Code.PassEnds (code : Code) (verbose : Bool) (pass : Pass) (e : Engine) : Prop where
  /-- With no more jumps than allowed execution comes to a place where it stops. -/
  stops : ∃ n j q, j ≤ jumpLimit ∧ code.Steps (code.entry pass e) n j q ∧
    code.Stops (jumpLimit - j) q (code.execute (code.start pass e))
  /-- An action that is run with no more jumps before it has fewer than so many
  actions before it. -/
  length : ∀ n j q, code.Steps (code.entry pass e) n j q → j ≤ jumpLimit → q.rest ≠ [] →
    n < (jumpLimit + 1) * code.actions.length
  /-- The error of the execution is that of the pass. -/
  fails : ∀ err e', Assembler.runPass verbose code pass e = .error err e' ↔
    code.execute (code.start pass e) = .error err e'
  /-- The pass says that there were too many jumps just if there are. -/
  loopLimit : (∃ err e', Assembler.runPass verbose code pass e = .error err e' ∧
      Error.loopLimit ∈ err.chain) ↔
    ∃ n j q, code.Steps (code.entry pass e) n j q ∧ jumpLimit < j

theorem Assembler.runPass_eq_error_iff {verbose : Bool} {code : Code} {pass : Pass}
    {e e' : Engine} {err : Error} :
    runPass verbose code pass e = .error err e' ↔
      code.execute (code.start pass e) = .error err e' := by
  constructor
  · exact fun h => (code.execute_start pass e).trans (runPass_eq_error h)
  · intro h
    unfold runPass
    refine bind_eq_error.mpr (.inr ⟨(), code.start pass e, rfl, ?_⟩)
    exact bind_eq_error.mpr (.inl h)

/-- Every pass over code ends, within the bound on its length. -/
theorem Code.passEnds {seq : List Action} {code : Code} (hcode : ofActions seq = .ok code)
    (verbose : Bool) (pass : Pass) (e : Engine) : code.PassEnds verbose pass e where
  stops := by
    rw [execute_start]
    exact code.runFrom_stops jumpLimit (code.entry pass e)
  length := by
    intro n j q hsteps hj hrest
    -- every step shortens the tail or takes a jump, and there are `jumpLimit` of those
    have hlen := hsteps.length_le (fun i k hk => (suffix_of_target? hcode hk).length_le)
      (Nat.le_refl _)
    have hmul : (j + 1) * code.actions.length ≤ (jumpLimit + 1) * code.actions.length :=
      Nat.mul_le_mul_right _ (by omega)
    have hpos := List.length_pos_iff.mpr hrest
    omega
  fails := fun _ _ => Assembler.runPass_eq_error_iff
  loopLimit := by
    simp only [Assembler.runPass_eq_error_iff, execute_start]
    exact code.runFrom_loopLimit_iff jumpLimit (code.entry pass e)

/-! ## Following includes -/

namespace Assembler

/-- How an include of a source file is opened, if the action is one and there
are files to include: the file is read, and its actions are what is next. -/
def opening? (asm : Assembler) (a : Action) : Option (SessionM (List Action)) :=
  match a.op, asm.includer with
  | .includeSource name, some inc => some do
    let acts ← locating a.location (inc.source name a.location)
    asm.note (a.location.render ++ ": include " ++ name ++ ": "
      ++ Text.decimal acts.length ++ " actions")
    pure acts
  | _, _ => none

variable {asm : Assembler}

/-- Other actions are treated the same however deep they stand. -/
theorem replaceInclude_of_none {a : Action} (h : asm.opening? a = none)
    (nested : Option (List Action → SessionM (List Action))) :
    asm.replaceInclude nested a = asm.replaceInclude none a := by
  unfold replaceInclude
  unfold opening? at h
  cases hop : a.op with
  | includeSource name =>
      cases hinc : asm.includer with
      | none => rfl
      | some inc => simp [hop, hinc] at h
  | _ => cases asm.includer <;> rfl

theorem replaceInclude_of_some {a : Action} {file : SessionM (List Action)}
    (h : asm.opening? a = some file) :
    (∀ f, asm.replaceInclude (some f) a = file >>= f) ∧
      asm.replaceInclude none a = throw (Error.includeDepth.atLocation a.location) := by
  unfold opening? at h
  unfold replaceInclude
  cases hop : a.op with
  | includeSource name =>
      cases hinc : asm.includer with
      | none => simp [hop, hinc] at h
      | some inc =>
          simp only [hop, hinc, Option.some.injEq] at h
          subst h
          simp [bind_assoc]
  | _ => simp [hop] at h

/-- An outcome with actions before its own. -/
def prepend (acts : List Action) :
    EStateM.Result Error Session (List Action) → EStateM.Result Error Session (List Action)
  | .ok more s => .ok (acts ++ more) s
  | .error err s => .error err s

/-- Resolving the includes of some actions comes to an outcome, with files
opened so many levels deep.  Nothing limits the levels. -/
inductive Resolved (asm : Assembler) :
    Nat → List Action → Session → EStateM.Result Error Session (List Action) → Prop
  | done {s : Session} : Resolved asm 0 [] s (.ok [] s)
  | other {n : Nat} {a : Action} {rest acts : List Action} {s s₁ : Session}
      {r : EStateM.Result Error Session (List Action)} : asm.opening? a = none →
      asm.replaceInclude none a s = .ok acts s₁ → Resolved asm n rest s₁ r →
      Resolved asm n (a :: rest) s (prepend acts r)
  | failed {a : Action} {rest : List Action} {s s₁ : Session} {err : Error} :
      asm.opening? a = none → asm.replaceInclude none a s = .error err s₁ →
      Resolved asm 0 (a :: rest) s (.error err s₁)
  | closed {a : Action} {file : SessionM (List Action)} {rest : List Action} {s s₁ : Session}
      {err : Error} : asm.opening? a = some file → file s = .error err s₁ →
      Resolved asm 1 (a :: rest) s (.error err s₁)
  | broken {n : Nat} {a : Action} {file : SessionM (List Action)} {rest acts : List Action}
      {s s₁ s₂ : Session} {err : Error} : asm.opening? a = some file → file s = .ok acts s₁ →
      Resolved asm n acts s₁ (.error err s₂) → Resolved asm (n + 1) (a :: rest) s (.error err s₂)
  | nested {n m : Nat} {a : Action} {file : SessionM (List Action)}
      {rest acts inner : List Action} {s s₁ s₂ : Session}
      {r : EStateM.Result Error Session (List Action)} : asm.opening? a = some file →
      file s = .ok acts s₁ → Resolved asm n acts s₁ (.ok inner s₂) → Resolved asm m rest s₂ r →
      Resolved asm (max (n + 1) m) (a :: rest) s (prepend inner r)

/-- Resolving the includes of some actions comes to an action inside of so many
others, with files opened no deeper than a number of levels so far. -/
inductive Reaches (asm : Assembler) :
    Nat → Nat → List Action → Session → Action → Session → Prop
  | here {a : Action} {rest : List Action} {s : Session} : Reaches asm 0 0 (a :: rest) s a s
  | other {d n : Nat} {a b : Action} {rest acts : List Action} {s s₁ s' : Session} :
      asm.opening? a = none → asm.replaceInclude none a s = .ok acts s₁ →
      Reaches asm d n rest s₁ b s' → Reaches asm d n (a :: rest) s b s'
  | nested {d n m : Nat} {a b : Action} {file : SessionM (List Action)}
      {rest acts inner : List Action} {s s₁ s₂ s' : Session} : asm.opening? a = some file →
      file s = .ok acts s₁ → Resolved asm n acts s₁ (.ok inner s₂) →
      Reaches asm d m rest s₂ b s' → Reaches asm d (max (n + 1) m) (a :: rest) s b s'
  | inside {d n : Nat} {a b : Action} {file : SessionM (List Action)} {rest acts : List Action}
      {s s₁ s' : Session} : asm.opening? a = some file → file s = .ok acts s₁ →
      Reaches asm d n acts s₁ b s' → Reaches asm (d + 1) (n + 1) (a :: rest) s b s'

theorem replaceEach_cons_of_ok {f : Action → SessionM (List Action)} {a : Action}
    {rest acts : List Action} {s s₁ : Session} (h : f a s = .ok acts s₁) :
    replaceEach f (a :: rest) s = prepend acts (replaceEach f rest s₁) := by
  rw [replaceEach, bind_of_ok h]
  cases hrest : replaceEach f rest s₁ with
  | ok more s₂ => exact (bind_of_ok hrest).trans rfl
  | error err s₂ => exact bind_eq_error.mpr (.inl hrest)

theorem replaceEach_cons_of_error {f : Action → SessionM (List Action)} {a : Action}
    {rest : List Action} {s s₁ : Session} {err : Error} (h : f a s = .error err s₁) :
    replaceEach f (a :: rest) s = .error err s₁ := by
  rw [replaceEach]
  exact bind_eq_error.mpr (.inl h)

/-! What the first of some actions makes of resolving their includes. -/

section

variable {levels : Nat} {a : Action} {rest acts inner : List Action} {s s₁ s₂ : Session}
  {err : Error} {file : SessionM (List Action)}

theorem resolveIncludes_other (hopen : asm.opening? a = none)
    (ha : asm.replaceInclude none a s = .ok acts s₁) :
    asm.resolveIncludes levels (a :: rest) s =
      prepend acts (asm.resolveIncludes levels rest s₁) := by
  cases levels with
  | zero => exact replaceEach_cons_of_ok ha
  | succ levels =>
      refine replaceEach_cons_of_ok ?_
      rw [replaceInclude_of_none hopen]
      exact ha

theorem resolveIncludes_failed (hopen : asm.opening? a = none)
    (ha : asm.replaceInclude none a s = .error err s₁) :
    asm.resolveIncludes levels (a :: rest) s = .error err s₁ := by
  cases levels with
  | zero => exact replaceEach_cons_of_error ha
  | succ levels =>
      refine replaceEach_cons_of_error ?_
      rw [replaceInclude_of_none hopen]
      exact ha

theorem resolveIncludes_closed (hopen : asm.opening? a = some file)
    (hfile : file s = .error err s₁) :
    asm.resolveIncludes (levels + 1) (a :: rest) s = .error err s₁ := by
  refine replaceEach_cons_of_error ?_
  rw [(replaceInclude_of_some hopen).1]
  exact bind_eq_error.mpr (.inl hfile)

theorem resolveIncludes_broken (hopen : asm.opening? a = some file) (hfile : file s = .ok acts s₁)
    (hinner : asm.resolveIncludes levels acts s₁ = .error err s₂) :
    asm.resolveIncludes (levels + 1) (a :: rest) s = .error err s₂ := by
  refine replaceEach_cons_of_error ?_
  rw [(replaceInclude_of_some hopen).1, bind_of_ok hfile]
  exact hinner

theorem resolveIncludes_nested (hopen : asm.opening? a = some file) (hfile : file s = .ok acts s₁)
    (hinner : asm.resolveIncludes levels acts s₁ = .ok inner s₂) :
    asm.resolveIncludes (levels + 1) (a :: rest) s =
      prepend inner (asm.resolveIncludes (levels + 1) rest s₂) := by
  refine replaceEach_cons_of_ok ?_
  rw [(replaceInclude_of_some hopen).1, bind_of_ok hfile]
  exact hinner

/-- Without a level left an include is refused. -/
theorem resolveIncludes_deep (hopen : (asm.opening? a).isSome = true) :
    asm.resolveIncludes 0 (a :: rest) s = .error (Error.includeDepth.atLocation a.location) s := by
  obtain ⟨file, hopen⟩ := Option.isSome_iff_exists.mp hopen
  refine replaceEach_cons_of_error ?_
  rw [(replaceInclude_of_some hopen).2]
  rfl

end

/-- Where the levels suffice, the limit makes no difference. -/
theorem Resolved.resolveIncludes_eq {n : Nat} {acts : List Action} {s : Session}
    {r : EStateM.Result Error Session (List Action)} (h : asm.Resolved n acts s r) {levels : Nat}
    (hle : n ≤ levels) : asm.resolveIncludes levels acts s = r := by
  induction h generalizing levels with
  | done => cases levels <;> rfl
  | other hopen ha _ ih => rw [resolveIncludes_other hopen ha, ih hle]
  | failed hopen ha => exact resolveIncludes_failed hopen ha
  | closed hopen hfile =>
      obtain ⟨left, rfl⟩ := Nat.exists_eq_add_of_le' hle
      exact resolveIncludes_closed hopen hfile
  | broken hopen hfile _ ih =>
      obtain ⟨left, rfl⟩ := Nat.exists_eq_add_of_le' (Nat.le_trans (Nat.le_add_left 1 _) hle)
      exact resolveIncludes_broken hopen hfile (ih (by omega))
  | nested hopen hfile _ _ ih ih' =>
      obtain ⟨left, rfl⟩ := Nat.exists_eq_add_of_le' (show 1 ≤ levels by omega)
      rw [resolveIncludes_nested hopen hfile (ih (by omega)), ih' (by omega)]

/-- An include that is reached where no level is left is refused. -/
theorem Reaches.resolveIncludes_eq {levels n : Nat} {acts : List Action} {s s' : Session}
    {b : Action} (h : asm.Reaches levels n acts s b s') (hb : (asm.opening? b).isSome = true)
    (hle : n ≤ levels) :
    asm.resolveIncludes levels acts s = .error (Error.includeDepth.atLocation b.location) s' := by
  induction h with
  | here => exact resolveIncludes_deep hb
  | other hopen ha _ ih =>
      rw [resolveIncludes_other hopen ha, ih hb hle]
      rfl
  | @nested levels n m a b file rest acts inner s s₁ s₂ s' hopen hfile hinner _ ih =>
      obtain ⟨left, rfl⟩ := Nat.exists_eq_add_of_le' (show 1 ≤ levels by omega)
      have heq := hinner.resolveIncludes_eq (show n ≤ left by omega)
      rw [resolveIncludes_nested hopen hfile heq, ih hb (by omega)]
      rfl
  | inside hopen hfile _ ih =>
      exact resolveIncludes_broken hopen hfile (ih hb (by omega))

/-- Includes are resolved as without a limit, within the levels, or one of them
is reached where no level is left. -/
theorem resolveIncludes_stops (asm : Assembler) (levels : Nat) (acts : List Action) (s : Session) :
    (∃ n ≤ levels, asm.Resolved n acts s (asm.resolveIncludes levels acts s)) ∨
      ∃ n ≤ levels, ∃ b s', asm.Reaches levels n acts s b s' ∧
        (asm.opening? b).isSome = true := by
  -- on the levels left for nested files, and within a level on the actions still to read
  induction levels using Nat.strongRecOn generalizing acts s with
  | ind levels ihlevels =>
      induction acts generalizing s with
      | nil =>
          refine .inl ⟨0, Nat.zero_le _, ?_⟩
          rw [Resolved.done.resolveIncludes_eq (Nat.zero_le levels)]
          exact .done
      | cons a rest ih =>
          cases hopen : asm.opening? a with
          | none =>
              cases ha : asm.replaceInclude none a s with
              | error err s₁ =>
                  rw [resolveIncludes_failed hopen ha]
                  exact .inl ⟨0, Nat.zero_le _, .failed hopen ha⟩
              | ok acts s₁ =>
                  rw [resolveIncludes_other hopen ha]
                  rcases ih s₁ with ⟨n, hn, hrest⟩ | ⟨n, hn, b, s', hreach, hb⟩
                  · exact .inl ⟨n, hn, .other hopen ha hrest⟩
                  · exact .inr ⟨n, hn, b, s', .other hopen ha hreach, hb⟩
          | some file =>
              have hsome : (asm.opening? a).isSome = true := by rw [hopen]; rfl
              cases levels with
              -- no level is left for the file this action opens
              | zero => exact .inr ⟨0, Nat.zero_le _, a, s, .here, hsome⟩
              | succ left =>
                  cases hfile : file s with
                  | error err s₁ =>
                      rw [resolveIncludes_closed hopen hfile]
                      exact .inl ⟨1, Nat.le_add_left 1 left, .closed hopen hfile⟩
                  | ok acts s₁ =>
                      rcases ihlevels left (Nat.lt_succ_self left) acts s₁ with
                        ⟨n, hn, hinner⟩ | ⟨n, hn, b, s', hreach, hb⟩
                      · cases hres : asm.resolveIncludes left acts s₁ with
                        | error err s₂ =>
                            rw [resolveIncludes_broken hopen hfile hres]
                            rw [hres] at hinner
                            exact .inl ⟨n + 1, by omega, .broken hopen hfile hinner⟩
                        | ok inner s₂ =>
                            rw [resolveIncludes_nested hopen hfile hres]
                            rw [hres] at hinner
                            rcases ih s₂ with ⟨m, hm, hrest⟩ | ⟨m, hm, b, s', hreach, hb⟩
                            · exact .inl ⟨_, by omega, .nested hopen hfile hinner hrest⟩
                            · exact .inr ⟨_, by omega, b, s', .nested hopen hfile hinner hreach, hb⟩
                      · exact .inr ⟨n + 1, by omega, b, s', .inside hopen hfile hreach, hb⟩

/-- How resolving the includes of some actions ends. -/
structure IncludesEnd (asm : Assembler) (acts : List Action) (s : Session) : Prop where
  /-- What can be resolved without going deeper than allowed is resolved. -/
  within : ∀ n r, asm.Resolved n acts s r → n ≤ includeDepth →
    asm.resolveIncludes includeDepth acts s = r
  /-- An include inside of as many others as allowed is refused, and nothing was
  opened any deeper before. -/
  beyond : ∀ n b s', asm.Reaches includeDepth n acts s b s' → (asm.opening? b).isSome = true →
    n ≤ includeDepth → asm.resolveIncludes includeDepth acts s =
      .error (Error.includeDepth.atLocation b.location) s'
  /-- It comes to one or the other. -/
  either : (∃ n ≤ includeDepth,
      asm.Resolved n acts s (asm.resolveIncludes includeDepth acts s)) ∨
    ∃ n ≤ includeDepth, ∃ b s', asm.Reaches includeDepth n acts s b s' ∧
      (asm.opening? b).isSome = true

theorem includesEnd (asm : Assembler) (acts : List Action) (s : Session) :
    asm.IncludesEnd acts s where
  within := fun _ _ h hle => h.resolveIncludes_eq hle
  beyond := fun _ _ _ h hb hle => h.resolveIncludes_eq hb hle
  either := asm.resolveIncludes_stops includeDepth acts s

end Assembler

open Assembler in
/-- Whatever actions are assembled, and whatever they include: resolving the
includes ends, without opening files any deeper than allowed; and so does each
pass over the code, in which no more actions are run than allowed, and which
says that there were too many jumps just if the code asks for more.

The other stages go through a list once. -/
theorem assembly_halts (asm : Assembler) (acts : List Action) (s : Session) :
    asm.IncludesEnd acts s ∧
      ∀ code e₀ s₁, asm.prepare acts s = .ok (code, e₀) s₁ →
        ∀ pass e, code.PassEnds asm.verbose pass e := by
  refine ⟨asm.includesEnd acts s, ?_⟩
  intro code e₀ s₁ hprepare pass e
  obtain ⟨included, expanded, gathered, -, -, -, hcode⟩ := yields_of_prepare ⟨s, s₁, hprepare⟩
  exact Code.passEnds hcode asm.verbose pass e

/-- A loop that does nothing but jump back. -/
def spin : List Action := [.plain {} (.target 0), .plain {} (.jump 0)]

def spinCode : Code :=
  { actions := [.plain {} (.jump 0)]
    targets := #[some [.plain {} (.jump 0)]]
    counters := 0 }

/-- It can be gone through any number of times. -/
theorem spinCode_steps (n : Nat) (e : Engine) (hj : e.jump = none) :
    ∃ d, d.jump = none ∧ spinCode.Steps ⟨spinCode.actions, e⟩ n n ⟨spinCode.actions, d⟩ := by
  induction n with
  | zero => exact ⟨e, hj, .start⟩
  | succ n ih =>
      obtain ⟨d, -, hsteps⟩ := ih
      exact ⟨_, rfl, .jump hsteps rfl rfl rfl⟩

/-- So every pass over it ends, and says that there were too many jumps. -/
theorem assembly_halts_spin :
    (Assembler.prepare {} spin {} = .ok (spinCode, {}) {}) ∧
      ∃ err e, Assembler.runPass false spinCode .first {} = .error err e ∧
        Error.loopLimit ∈ err.chain := by
  have hprepare : Assembler.prepare {} spin {} = .ok (spinCode, {}) {} := by rfl
  refine ⟨hprepare, ?_⟩
  have hends := (assembly_halts {} spin {}).2 spinCode {} {} hprepare .first {}
  obtain ⟨d, -, hsteps⟩ := spinCode_steps (Code.jumpLimit + 1) (spinCode.start .first {}) rfl
  exact hends.loopLimit.mpr ⟨_, _, _, hsteps, Nat.lt_succ_self _⟩

end Mos6510
