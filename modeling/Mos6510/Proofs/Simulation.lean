import Mos6510.Proofs.Lowering

/-!
# Lowered programs do what they say

Execution of lowered code and the interpretation of the program that it was
lowered from go side by side.  They may differ in the state of control only,
and execution may be given up because it took too many jumps:
`Follows out result`.

The proof follows the structure of the program, with all that comes after it
as a parameter: what the interpretation goes on with, and the actions that
execution goes on with.  A loop is done by induction on the jumps left, a
repetition by induction on its count.

* `Structured.Lowers.follows`: execution of lowered actions follows the
  interpretation;
* `Structured.execute_lowered`: so does the execution of a program as a whole.
-/

namespace Mos6510

open Outcome Interp

/-! ## Following an interpretation -/

/-- What is seen of an outcome: a success or an error, and the engine apart
from the state of control. -/
def Outcome.seen : EStateM.Result Error Engine Unit → Except Error Unit × Engine
  | .ok u e => (.ok u, e.bare)
  | .error err e => (.error err, e.bare)

/-- Execution was given up after more jumps than a pass may take. -/
def Exhausted (result : EStateM.Result Error Engine Unit) : Prop :=
  ∃ a e, result = .error (Error.loopLimit.atAction a) e ∧ Code.jumpLimit < e.jumps

/-- Execution was given up, or the interpretation ends the same way. -/
def Follows (out : Part (Except Error Unit × Engine))
    (result : EStateM.Result Error Engine Unit) : Prop :=
  Exhausted result ∨ out.map (fun r => (r.1, r.2.bare)) = Part.some (seen result)

/-- Counters below a number are as they were. -/
def SameBelow (c : Nat) (e e' : Engine) : Prop :=
  ∀ d < c, e'.counters[d]? = e.counters[d]?

theorem SameBelow.refl (c : Nat) (e : Engine) : SameBelow c e e := fun _ _ => rfl

theorem SameBelow.trans {c : Nat} {e₁ e₂ e₃ : Engine} (h : SameBelow c e₁ e₂)
    (h' : SameBelow c e₂ e₃) : SameBelow c e₁ e₃ :=
  fun d hd => (h' d hd).trans (h d hd)

theorem SameBelow.mono {c c' : Nat} {e e' : Engine} (h : SameBelow c' e e') (hle : c ≤ c') :
    SameBelow c e e' :=
  fun d hd => h d (by omega)

theorem SameBelow.of_eq {c : Nat} {e e' : Engine} (h : e'.counters = e.counters) :
    SameBelow c e e' := by
  intro d _
  rw [h]

/-- Interpretation and execution stand at the start of a statement: the stack
is empty, no jump is pending, and so many jumps are left. -/
structure Ready (code : Code) (n : Nat) (s e : Engine) : Prop where
  bare : s.bare = e.bare
  stack : e.stack.values = []
  jump : e.jump = none
  budget : n + e.jumps = Code.jumpLimit
  counters : e.counters.size = code.counters

theorem Ready.stack_left {code : Code} {n : Nat} {s e : Engine} (h : Ready code n s e) :
    s.stack.values = [] := by
  rw [Engine.stack_of_bare h.bare]
  exact h.stack

/-- From here on, whatever the numbers of jumps and the counters from `c` on,
execution of `k` follows the interpretation. -/
def Continues (code : Code) (c n : Nat) (e : Engine) (next : Interp Unit) (k : List Action) :
    Prop :=
  ∀ n' s' e', n' ≤ n → Ready code n' s' e' → SameBelow c e e' →
    Follows (next.outcome s') (code.runFrom n' k e')

theorem Continues.weaken {code : Code} {c c' n n' : Nat} {e e' : Engine} {next : Interp Unit}
    {k : List Action} (h : Continues code c n e next k) (hn : n' ≤ n) (hc : c ≤ c')
    (hsame : SameBelow c e e') : Continues code c' n' e' next k := by
  intro n'' s'' e'' hn'' hready hsame'
  exact h n'' s'' e'' (by omega) hready (hsame.trans (hsame'.mono hc))

/-! ## Steps -/

section Steps

variable {code : Code} {n : Nat} {s e : Engine} {k : List Action}

/-- Lowered actions go the way of the written ones. -/
theorem Implements.performed {written lowered : List Action} (h : Implements written lowered)
    (hready : Ready code n s e) :
    (∃ err s' e', performAll written s = .error err s' ∧ performAll lowered e = .error err e' ∧
      s'.bare = e'.bare) ∨
    (∃ s' e', performAll written s = .ok () s' ∧ performAll lowered e = .ok () e' ∧
      s'.bare = e'.bare ∧ e'.control = e.control) := by
  have hsame := (performAll_bare h.straightWritten hready.bare).trans (h.same e hready.stack)
  cases hs : performAll written s with
  | error err s' =>
      rw [hs] at hsame
      obtain ⟨e', he, hbare⟩ := error_of_bare_eq hsame
      exact .inl ⟨err, s', e', rfl, he, hbare⟩
  | ok u s' =>
      rw [hs] at hsame
      obtain ⟨e', he, hbare⟩ := ok_of_bare_eq hsame
      exact .inr ⟨s', e', rfl, he, hbare, performAll_control h.straightLowered he⟩

/-- A failure on both sides. -/
theorem follows_error {err : Error} {s' e' : Engine} (h : s'.bare = e'.bare) :
    Follows (Part.some (.error err, s')) (.error err e') := by
  refine .inr ?_
  rw [Part.map_some, h]
  rfl

/-- A simple statement, then what follows it. -/
theorem simple_follows {loc : Location} {p : Simple} {lowered : List Action}
    (h : Implements (p.actions loc) lowered) (hready : Ready code n s e) {next : Interp Unit}
    (hnext : ∀ s' e', Ready code n s' e' → e'.counters = e.counters →
      Follows (next.outcome s') (code.runFrom n k e')) :
    Follows ((ofEngine (performAll (p.actions loc)) >>= fun _ => next).outcome s)
      (code.runFrom n (lowered ++ k) e) := by
  rw [outcome_ofEngine_bind, Code.runFrom_straight h.straightLowered hready.jump]
  rcases h.performed hready with ⟨err, s', e', hs, he, hbare⟩ | ⟨s', e', hs, he, hbare, hkept⟩
  · rw [hs, he]
    exact follows_error hbare
  · rw [hs, he]
    -- a straight stretch leaves jumps, budget and counters as they were
    have hcounters : e'.counters = e.counters := congrArg Control.counters hkept
    have hjumps : e'.jumps = e.jumps := congrArg Control.jumps hkept
    have hstack := Engine.stack_of_bare hbare
    refine hnext s' e' ⟨hbare, ?_, ?_, ?_, ?_⟩ hcounters
    · rw [← hstack]
      exact p.performAll_stack hready.stack_left hs
    · exact (congrArg Control.jump hkept).trans hready.jump
    · rw [hjumps]
      exact hready.budget
    · rw [hcounters]
      exact hready.counters

/-- The value of an expression, then what is done with it: the interpreter has
it at hand, execution finds it on the stack. -/
theorem value_follows {x : Expr} {lowered : List Action} (h : Implements x.actions lowered)
    (hready : Ready code n s e) {next : Int64 → Interp Unit}
    (hnext : ∀ v s' e', Ready code n s' { e' with stack := ⟨[]⟩ } → e'.stack = ⟨[v]⟩ →
      e'.counters = e.counters →
      Follows ((next v).outcome s') (code.runFrom n k e')) :
    Follows ((ofEngine x.value >>= next).outcome s) (code.runFrom n (lowered ++ k) e) := by
  rw [outcome_ofEngine_bind, Code.runFrom_straight h.straightLowered hready.jump]
  rcases h.performed hready with ⟨err, s', e', hs, he, hbare⟩ | ⟨s', e', hs, he, hbare, hkept⟩
  · have hvalue : x.value s = .error err s' := by
      show EStateM.bind (performAll x.actions) _ s = _
      rw [EStateM.bind, hs]
    rw [hvalue, he]
    exact follows_error hbare
  · obtain ⟨v, hv⟩ := x.performAll_stack hs
    rw [hready.stack_left] at hv
    have hvalue : x.value s = .ok v { s' with stack := ⟨[]⟩ } :=
      bind_eq_ok.mpr ⟨(), s', hs, Engine.pop_eq_ok.mpr ⟨[], hv, rfl⟩⟩
    have hcounters : e'.counters = e.counters := congrArg Control.counters hkept
    have hjumps : e'.jumps = e.jumps := congrArg Control.jumps hkept
    have hstack := Engine.stack_of_bare hbare
    -- the value is taken off the stack, so both engines stand bare again
    have hempty : ({ s' with stack := ⟨[]⟩ } : Engine).bare =
        ({ e' with stack := ⟨[]⟩ } : Engine).bare :=
      congrArg (fun d : Engine => { d with stack := ⟨[]⟩ }) hbare
    rw [hvalue, he]
    refine hnext v _ e' ⟨hempty, rfl, ?_, ?_, ?_⟩ ?_ hcounters
    · exact (congrArg Control.jump hkept).trans hready.jump
    · exact (congrArg (n + ·) hjumps).trans hready.budget
    · exact (congrArg Array.size hcounters).trans hready.counters
    · rw [← hstack]
      exact congrArg Stack.mk hv

theorem pop_atAction {v : Int64} (h : e.stack = ⟨[v]⟩) (a : Action) :
    Engine.pop (e.atAction a) = .ok v { e.atAction a with stack := ⟨[]⟩ } :=
  Engine.pop_eq_ok.mpr ⟨[], congrArg Stack.values h, rfl⟩

/-- A jump is made, unless too many were. -/
theorem jump_follows {a : Action} {j : Int} {rest target : List Action} {e₁ : Engine}
    {out : Part (Except Error Unit × Engine)} (ha : a.run (e.atAction a) = .ok () e₁)
    (hj : e₁.jump = some j) (htarget : code.target? j = some target)
    (hready : Ready code n s { e₁ with jump := none })
    (hnext : ∀ n', n' < n → Ready code n' s e₁.afterJump →
      Follows out (code.runFrom n' target e₁.afterJump)) :
    Follows out (code.runFrom n (a :: rest) e) := by
  cases n with
  | zero =>
      -- no jump is left, so this one is one too many
      refine .inl ⟨a, e₁.afterJump, ?_, ?_⟩
      · rw [Code.runFrom_cons, ha]
        simp only [hj, htarget]
      · have hbudget : 0 + e₁.jumps = Code.jumpLimit := hready.budget
        show Code.jumpLimit < e₁.jumps + 1
        omega
  | succ n =>
      rw [Code.runFrom_jump ha hj htarget]
      refine hnext n (Nat.lt_succ_self n) ⟨hready.bare, hready.stack, rfl, ?_, hready.counters⟩
      have hbudget : n + 1 + e₁.jumps = Code.jumpLimit := hready.budget
      show n + (e₁.jumps + 1) = Code.jumpLimit
      omega

theorem requestJump_natCast (j : Nat) (e : Engine) :
    Engine.requestJump j e = .ok () { e with jump := some (j : Int) } := by
  have hjump : (j : Int) ≠ noJump := by
    unfold noJump
    omega
  rw [Engine.requestJump_eq_ok, if_neg hjump]

/-- A jump that is always made. -/
theorem always_follows {loc : Location} {j : Nat} {rest target : List Action}
    {out : Part (Except Error Unit × Engine)} (htarget : code.target? j = some target)
    (hready : Ready code n s e)
    (hnext : ∀ n' e', n' < n → Ready code n' s e' → e'.counters = e.counters →
      Follows out (code.runFrom n' target e')) :
    Follows out (code.runFrom n (Action.plain loc (.jump j) :: rest) e) := by
  have hrun : (Action.plain loc (.jump j)).run (e.atAction (Action.plain loc (.jump j))) =
      .ok () { e with location := loc, jump := some (j : Int) } := requestJump_natCast j _
  refine jump_follows hrun rfl htarget
    ⟨hready.bare, hready.stack, rfl, hready.budget, hready.counters⟩ fun n' hn' hready' => ?_
  exact hnext n' _ hn' hready' rfl

/-- A test, then one of two ways on. -/
theorem test_follows {x : Expr} {lowered : List Action} (h : Implements x.actions lowered)
    (hready : Ready code n s e) {loc : Location} {j : Nat} {rest target : List Action}
    (htarget : code.target? j = some target) {next : Int64 → Interp Unit}
    (hnonzero : ∀ v s' e', (v == 0) = false → Ready code n s' e' → e'.counters = e.counters →
      Follows ((next v).outcome s') (code.runFrom n rest e'))
    (hzero : ∀ n' s' e', n' < n → Ready code n' s' e' → e'.counters = e.counters →
      Follows ((next 0).outcome s') (code.runFrom n' target e')) :
    Follows ((ofEngine x.value >>= next).outcome s)
      (code.runFrom n (lowered ++ Action.plain loc (.jumpIfFalse j) :: rest) e) := by
  refine value_follows h hready fun v s' e' hready' hstack hcounters => ?_
  have hpop := pop_atAction hstack (Action.plain loc (.jumpIfFalse j))
  cases hv : v == 0 with
  | false =>
      have hrun : (Action.plain loc (.jumpIfFalse j)).run
          (e'.atAction (Action.plain loc (.jumpIfFalse j))) =
          .ok () { e' with location := loc, stack := ⟨[]⟩ } :=
        bind_eq_ok.mpr ⟨v, _, hpop, by rw [hv]; rfl⟩
      rw [Code.runFrom_next hrun hready'.jump]
      exact hnonzero v s' _ hv
        ⟨hready'.bare, rfl, hready'.jump, hready'.budget, hready'.counters⟩ hcounters
  -- the jump is taken, and its target runs on a smaller budget
  | true =>
      have hrun : (Action.plain loc (.jumpIfFalse j)).run
          (e'.atAction (Action.plain loc (.jumpIfFalse j))) =
          .ok () { e' with location := loc, stack := ⟨[]⟩, jump := some (j : Int) } := by
        refine bind_eq_ok.mpr ⟨v, _, hpop, ?_⟩
        rw [hv]
        exact requestJump_natCast j _
      obtain rfl : v = 0 := by simpa using hv
      refine jump_follows hrun rfl htarget
        ⟨hready'.bare, rfl, rfl, hready'.budget, hready'.counters⟩ fun n' hn' hready'' => ?_
      exact hzero n' s' _ hn' hready'' hcounters

/-! ## Counters -/

theorem counter?_natCast (e : Engine) (c : Nat) : e.counter? c = e.counters[c]? := by
  unfold Engine.counter?
  rw [if_neg (by omega), Int.toNat_natCast]

theorem counter_atAction {c : Nat} {v : Int64} (hv : e.counters[c]? = some v) (a : Action) :
    Engine.counter c (e.atAction a) = .ok v (e.atAction a) :=
  Engine.counter_eq_ok.mpr ⟨(counter?_natCast _ c).trans hv, rfl⟩

/-- The count of a repetition goes to its counter. -/
theorem count_follows {x : Expr} {lowered : List Action} (h : Implements x.actions lowered)
    (hready : Ready code n s e) {loc : Location} {c : Nat} {rest : List Action}
    (hc : c < code.counters) {next : Int64 → Interp Unit}
    (hnext : ∀ v s' e', Ready code n s' e' → e'.counters[c]? = some v → SameBelow c e e' →
      Follows ((next v).outcome s') (code.runFrom n rest e')) :
    Follows ((ofEngine x.value >>= next).outcome s)
      (code.runFrom n (lowered ++ Action.plain loc (.counterSet c) :: rest) e) := by
  refine value_follows h hready fun v s' e' hready' hstack hcounters => ?_
  have hsize : e'.counters.size = code.counters := hready'.counters
  have hbound : c < e'.counters.size := by omega
  -- `Code.counters` sizes the table, so the counter set is one of it
  have hthere : ((e'.atAction (Action.plain loc (.counterSet c))).counter? c).isSome = true := by
    rw [counter?_natCast]
    show (e'.counters[c]?).isSome = true
    simp [hbound]
  have hrun : (Action.plain loc (.counterSet c)).run
      (e'.atAction (Action.plain loc (.counterSet c))) =
      .ok () { e' with
        location := loc
        stack := ⟨[]⟩
        counters := e'.counters.setIfInBounds c v } :=
    Engine.loadCounter_eq_ok.mpr
      ⟨hthere, bind_eq_ok.mpr ⟨v, _, pop_atAction hstack _, rfl⟩⟩
  rw [Code.runFrom_next hrun hready'.jump]
  refine hnext v s' _ ⟨hready'.bare, rfl, hready'.jump, hready'.budget, ?_⟩ ?_ ?_
  · show (e'.counters.setIfInBounds c v).size = code.counters
    rw [Array.size_setIfInBounds]
    exact hsize
  · show (e'.counters.setIfInBounds c v)[c]? = some v
    simp [hbound]
  · intro d hd
    show (e'.counters.setIfInBounds c v)[d]? = e.counters[d]?
    rw [Array.getElem?_setIfInBounds, if_neg (by omega), hcounters]

/-- Counting down a positive counter. -/
theorem toNat_sub_one {v : Int64} {m : Nat} (h : v.toInt.toNat = m + 1) :
    (v - 1).toInt.toNat = m := by
  have hlow := v.le_toInt
  have hhigh := v.toInt_lt
  have hsub : (v - 1).toInt = v.toInt - 1 := by
    rw [Int64.toInt_sub]
    have hone : (1 : Int64).toInt = 1 := rfl
    rw [hone]
    exact Int.bmod_eq_of_le (by omega) (by omega)
  omega

theorem le_zero_iff_toNat {v : Int64} : v ≤ 0 ↔ v.toInt.toNat = 0 := by
  rw [Int64.le_iff_toInt_le]
  have hzero : (0 : Int64).toInt = 0 := rfl
  omega

/-! ## Loops -/

/-- The rounds of a repetition, by induction on what its counter holds.  The
body may use later counters, but not this one. -/
theorem rounds_follow {c start exit : Nat} {loc close : Location} {body next : Interp Unit}
    {acts : List Action} (hc : c < code.counters)
    (hstart : code.target? start = some (Action.plain loc (.counterTest c exit) ::
      (acts ++ Action.plain close (.counterStep c start) :: k)))
    (hexit : code.target? exit = some k)
    (hbody : ∀ n s e next, Ready code n s e →
      Continues code (c + 1) n e next (Action.plain close (.counterStep c start) :: k) →
      Follows ((body >>= fun _ => next).outcome s)
        (code.runFrom n (acts ++ Action.plain close (.counterStep c start) :: k) e))
    {m : Nat} {v : Int64} (hv : e.counters[c]? = some v) (hm : v.toInt.toNat = m)
    (hready : Ready code n s e) (hnext : Continues code c n e next k) :
    Follows ((times m body >>= fun _ => next).outcome s)
      (code.runFrom n (Action.plain loc (.counterTest c exit) ::
        (acts ++ Action.plain close (.counterStep c start) :: k)) e) := by
  induction m generalizing n s e v with
  | zero =>
      have hrun : (Action.plain loc (.counterTest c exit)).run
          (e.atAction (Action.plain loc (.counterTest c exit))) =
          .ok () { e with location := loc, jump := some (exit : Int) } := by
        refine bind_eq_ok.mpr ⟨v, _, counter_atAction hv _, ?_⟩
        rw [if_pos (le_zero_iff_toNat.mpr hm)]
        exact requestJump_natCast exit _
      refine jump_follows hrun rfl hexit
        ⟨hready.bare, hready.stack, rfl, hready.budget, hready.counters⟩ fun n' hn' hready' => ?_
      rw [times, pure_bind]
      exact hnext n' s _ (by omega) hready' (.of_eq rfl)
  | succ m ih =>
      have hpos : ¬v ≤ 0 := by
        rw [le_zero_iff_toNat]
        omega
      have hrun : (Action.plain loc (.counterTest c exit)).run
          (e.atAction (Action.plain loc (.counterTest c exit))) =
          .ok () { e with location := loc } :=
        bind_eq_ok.mpr ⟨v, _, counter_atAction hv _, by rw [if_neg hpos]; rfl⟩
      rw [Code.runFrom_next hrun hready.jump, times, bind_assoc]
      refine hbody n s _ _ ⟨hready.bare, hready.stack, hready.jump, hready.budget,
        hready.counters⟩ fun n₁ s₁ e₁ hn₁ hready₁ hsame₁ => ?_
      -- the body leaves this counter alone, so the step counts down from the same value
      have hv₁ : e₁.counters[c]? = some v := (hsame₁ c (Nat.lt_succ_self c)).trans hv
      have hbound : c < e₁.counters.size := by
        rw [hready₁.counters]
        exact hc
      have hstep : (Action.plain close (.counterStep c start)).run
          (e₁.atAction (Action.plain close (.counterStep c start))) =
          .ok () { e₁ with
            location := close
            counters := e₁.counters.setIfInBounds c (v - 1)
            jump := some (start : Int) } := by
        refine bind_eq_ok.mpr ⟨v, _, counter_atAction hv₁ _, bind_eq_ok.mpr ⟨(), _, rfl, ?_⟩⟩
        exact requestJump_natCast start _
      have hsize : (e₁.counters.setIfInBounds c (v - 1)).size = code.counters := by
        rw [Array.size_setIfInBounds]
        exact hready₁.counters
      refine jump_follows hstep rfl hstart
        ⟨hready₁.bare, hready₁.stack, rfl, hready₁.budget, hsize⟩ fun n₂ hn₂ hready₂ => ?_
      refine ih ?_ (toNat_sub_one hm) hready₂ (hnext.weaken (by omega) (Nat.le_refl c) ?_)
      · show (e₁.counters.setIfInBounds c (v - 1))[c]? = some (v - 1)
        simp [hbound]
      · intro d hd
        show (e₁.counters.setIfInBounds c (v - 1))[d]? = e.counters[d]?
        rw [Array.getElem?_setIfInBounds, if_neg (by omega)]
        exact hsame₁ d (by omega)

/-- A loop, by induction on the jumps left: each round takes one. -/
theorem loop_follows {c start exit : Nat} {loc close : Location} {x : Expr}
    {body next : Interp Unit} {test acts : List Action} (htest : Implements x.actions test)
    (hstart : code.target? start = some (test ++ Action.plain loc (.jumpIfFalse exit) ::
      (acts ++ Action.plain close (.jump start) :: k)))
    (hexit : code.target? exit = some k)
    (hbody : ∀ n s e next, Ready code n s e →
      Continues code c n e next (Action.plain close (.jump start) :: k) →
      Follows ((body >>= fun _ => next).outcome s)
        (code.runFrom n (acts ++ Action.plain close (.jump start) :: k) e))
    (hready : Ready code n s e) (hnext : Continues code c n e next k) :
    Follows ((whileNonzero (ofEngine x.value) body >>= fun _ => next).outcome s)
      (code.runFrom n (test ++ Action.plain loc (.jumpIfFalse exit) ::
        (acts ++ Action.plain close (.jump start) :: k)) e) := by
  induction n using Nat.strongRecOn generalizing s e with
  | ind n ih =>
      rw [whileNonzero_eq, bind_assoc]
      refine test_follows htest hready hexit (fun v s₁ e₁ hv hready₁ hcounters₁ => ?_)
        fun n₁ s₁ e₁ hn₁ hready₁ hcounters₁ => ?_
      · rw [hv, if_neg Bool.false_ne_true, bind_assoc]
        refine hbody n s₁ e₁ _ hready₁ fun n₂ s₂ e₂ hn₂ hready₂ hsame₂ => ?_
        -- the jump back takes one of the jumps that are left
        refine always_follows hstart hready₂ fun n₃ e₃ hn₃ hready₃ hcounters₃ => ?_
        have hsame : SameBelow c e e₃ :=
          ((SameBelow.of_eq hcounters₁).trans hsame₂).trans (.of_eq hcounters₃)
        exact ih n₃ (by omega) hready₃ (hnext.weaken (by omega) (Nat.le_refl c) hsame)
      · rw [if_pos (by rfl), pure_bind]
        exact hnext n₁ s₁ e₁ (by omega) hready₁ (.of_eq hcounters₁)

end Steps

/-! ## Branches -/

/-- The end of a condition leads to what follows the condition. -/
theorem Branches.Lowers.exit_target {code : Code} {k : List Action} :
    ∀ {r : Branches} {exit next : Nat} {i j : Ids} {acts : List Action},
      r.Lowers exit next i acts j → Resolves code acts k → code.target? exit = some k
  | .close loc, _, _, _, _, _, h, hresolves => by
      cases h
      exact (Resolves.target_iff.mp (Resolves.target_iff.mp hresolves).2).1
  | .otherwise loc body stop, _, _, _, _, _, h, hresolves => by
      cases h with
      | otherwise hbody =>
          have hbehind := (Resolves.target_iff.mp ((Resolves.cons_iff rfl).mp hresolves)).2
          exact (Resolves.target_iff.mp (Resolves.append_iff.mp hbehind).2).1
  | .elseIf loc x body rest, _, _, _, _, _, h, hresolves => by
      cases h with
      | elseIf htest hbody hrest =>
          have hbehind := (Resolves.target_iff.mp ((Resolves.cons_iff rfl).mp hresolves)).2
          have hlast := (Resolves.cons_iff rfl).mp (Resolves.append_iff.mp hbehind).2
          exact hrest.exit_target (Resolves.append_iff.mp hlast).2

/-- After the body of a branch, execution leaves the branches behind it out. -/
theorem Branches.Lowers.passed {code : Code} {k : List Action} {r : Branches} {exit next : Nat}
    {i j : Ids} {acts : List Action} (h : r.Lowers exit next i acts j)
    (hresolves : Resolves code acts k) {c n : Nat} {s e : Engine} {after : Interp Unit}
    (hready : Ready code n s e) (hafter : Continues code c n e after k) :
    Follows (after.outcome s) (code.runFrom n (Code.strip acts ++ k) e) := by
  have hexit := h.exit_target hresolves
  cases h with
  | close => exact hafter n s e (Nat.le_refl n) hready (.refl c e)
  | otherwise =>
      refine always_follows hexit hready fun n' e' hn' hready' hcounters => ?_
      exact hafter n' s e' (by omega) hready' (.of_eq hcounters)
  | elseIf =>
      refine always_follows hexit hready fun n' e' hn' hready' hcounters => ?_
      exact hafter n' s e' (by omega) hready' (.of_eq hcounters)

/-- A test, then the body that it guards or the branches behind it.  After the
body the branches are passed. -/
theorem Branches.Lowers.guarded {code : Code} {k bs : List Action} {r : Branches}
    {exit next : Nat} {i j : Ids} (hrest : r.Lowers exit next i bs j)
    (hresolves : Resolves code bs k) {c n : Nat} {s e : Engine} {after body : Interp Unit}
    {x : Expr} {loc : Location} {test acts target : List Action}
    (htest : Implements x.actions test) (htarget : code.target? next = some target)
    (hle : c ≤ i.counter)
    (hbody : ∀ n s e next, Ready code n s e →
      Continues code c n e next (Code.strip bs ++ k) →
      Follows ((body >>= fun _ => next).outcome s)
        (code.runFrom n (acts ++ (Code.strip bs ++ k)) e))
    (hbranches : ∀ n s e, Ready code n s e → Continues code i.counter n e after k →
      Follows ((r.exec >>= fun _ => after).outcome s) (code.runFrom n target e))
    (hready : Ready code n s e) (hafter : Continues code c n e after k) :
    Follows ((ofEngine x.value >>= fun v =>
        (if v == 0 then r.exec else body) >>= fun _ => after).outcome s)
      (code.runFrom n (test ++ Action.plain loc (.jumpIfFalse next) ::
        (acts ++ (Code.strip bs ++ k))) e) := by
  -- a value other than zero falls through into the body, zero jumps to the next branch
  refine test_follows htest hready htarget (fun v s₁ e₁ hv hready₁ hcounters₁ => ?_)
    fun n₁ s₁ e₁ hn₁ hready₁ hcounters₁ => ?_
  · rw [hv, if_neg Bool.false_ne_true]
    refine hbody n s₁ e₁ after hready₁ fun n₂ s₂ e₂ hn₂ hready₂ hsame₂ => ?_
    refine hrest.passed hresolves hready₂ (hafter.weaken hn₂ (Nat.le_refl c) ?_)
    exact (SameBelow.of_eq hcounters₁).trans hsame₂
  · rw [if_pos (by rfl)]
    exact hbranches n₁ s₁ e₁ hready₁ (hafter.weaken (by omega) hle (.of_eq hcounters₁))

/-! ## Programs -/

mutual

/-- Execution of lowered actions follows the interpretation of the program. -/
theorem Structured.Lowers.follows {code : Code} : ∀ {p : Structured} {i j : Ids}
    {acts k : List Action}, p.Lowers i acts j → Resolves code acts k →
    (∀ a ∈ acts, Code.counterBound a ≤ code.counters) →
    ∀ {n : Nat} {s e : Engine} {next : Interp Unit}, Ready code n s e →
      Continues code i.counter n e next k →
      Follows ((p.exec >>= fun _ => next).outcome s) (code.runFrom n (Code.strip acts ++ k) e)
  | .skip, _, _, _, k, h, _, _, n, s, e, next, hready, hnext => by
      cases h
      rw [Structured.exec, pure_bind]
      exact hnext n s e (Nat.le_refl n) hready (.refl _ e)
  | .seq p q, _, _, _, k, h, hresolves, hbounds, n, s, e, next, hready, hnext => by
      cases h with
      | seq hp hq =>
          obtain ⟨hresolves₁, hresolves₂⟩ := Resolves.append_iff.mp hresolves
          obtain ⟨hbounds₁, hbounds₂⟩ := List.forall_mem_append.mp hbounds
          rw [Structured.exec, bind_assoc, Code.strip_append, List.append_assoc]
          refine hp.follows hresolves₁ hbounds₁ hready fun n₁ s₁ e₁ hn₁ hready₁ hsame₁ => ?_
          exact hq.follows hresolves₂ hbounds₂ hready₁ (hnext.weaken hn₁ hp.code.1 hsame₁)
  | .simple loc p, _, _, _, k, h, _, _, n, s, e, next, hready, hnext => by
      cases h with
      | simple himplements =>
          rw [Structured.exec, himplements.straightLowered.strip]
          refine simple_follows himplements hready fun s₁ e₁ hready₁ hcounters₁ => ?_
          exact hnext n s₁ e₁ (Nat.le_refl n) hready₁ (.of_eq hcounters₁)
  | .choice loc x body rest, i, _, _, k, h, hresolves, hbounds, n, s, e, next, hready, hnext => by
      cases h with
      | choice htest hbody hrest =>
          have hbehind := (Resolves.cons_iff rfl).mp (Resolves.append_iff.mp hresolves).2
          obtain ⟨hresolves₁, hresolves₂⟩ := Resolves.append_iff.mp hbehind
          simp only [List.forall_mem_append, List.forall_mem_cons] at hbounds
          obtain ⟨-, -, hbounds₁, hbounds₂⟩ := hbounds
          -- both the test and the end of the body lead into the branches behind
          obtain ⟨target, htarget, hfollows⟩ := hrest.follows hresolves₂ hbounds₂
          rw [Structured.exec, bind_assoc, htest.straightLowered.strip_append,
            Code.strip_cons rfl, Code.strip_append, List.append_assoc, List.cons_append,
            List.append_assoc]
          refine hrest.guarded hresolves₂ htest htarget hbody.code.1 ?_ ?_ hready hnext
          · intro n s e next hready hnext
            exact hbody.follows hresolves₁ hbounds₁ hready hnext
          · intro n s e hready hnext
            exact hfollows hready hnext
  | .repetition loc x body stop, i, _, _, k, h, hresolves, hbounds, n, s, e, next, hready,
      hnext => by
      cases h with
      | repetition hcount hbody =>
          have hbehind := (Resolves.cons_iff rfl).mp (Resolves.append_iff.mp hresolves).2
          obtain ⟨hstart, hbehind⟩ := Resolves.target_iff.mp hbehind
          have hbehind := (Resolves.cons_iff rfl).mp hbehind
          obtain ⟨hresolves₁, hlast⟩ := Resolves.append_iff.mp hbehind
          have hexit := (Resolves.target_iff.mp ((Resolves.cons_iff rfl).mp hlast)).1
          simp only [List.forall_mem_append, List.forall_mem_cons] at hbounds
          obtain ⟨-, hcounter, -, -, hbounds₁, -⟩ := hbounds
          have hc : i.counter < code.counters := by
            have hbound : ((i.counter : Int) + 1).toNat ≤ code.counters := hcounter
            omega
          rw [Code.strip_cons rfl, Code.strip_append, Code.strip_cons rfl, strip_plain_target,
            Code.strip_nil, List.cons_append, List.append_assoc] at hstart
          rw [Structured.exec, bind_assoc, hcount.straightLowered.strip_append,
            Code.strip_cons rfl, strip_plain_target, Code.strip_cons rfl, Code.strip_append,
            Code.strip_cons rfl, strip_plain_target, Code.strip_nil, List.append_assoc,
            List.cons_append, List.cons_append, List.append_assoc]
          refine count_follows hcount hready hc fun v s₁ e₁ hready₁ hv hsame₁ => ?_
          refine rounds_follow hc hstart hexit (fun n s e next hready hnext => ?_) hv rfl hready₁
            (hnext.weaken (Nat.le_refl n) (Nat.le_refl _) hsame₁)
          exact hbody.follows hresolves₁ hbounds₁ hready hnext
  | .loop loc x body stop, i, _, _, k, h, hresolves, hbounds, n, s, e, next, hready, hnext => by
      cases h with
      | loop htest hbody =>
          obtain ⟨hstart, hbehind⟩ := Resolves.target_iff.mp hresolves
          have hbehind := (Resolves.cons_iff rfl).mp (Resolves.append_iff.mp hbehind).2
          obtain ⟨hresolves₁, hlast⟩ := Resolves.append_iff.mp hbehind
          have hexit := (Resolves.target_iff.mp ((Resolves.cons_iff rfl).mp hlast)).1
          simp only [List.forall_mem_append, List.forall_mem_cons] at hbounds
          obtain ⟨-, -, -, hbounds₁, -⟩ := hbounds
          rw [htest.straightLowered.strip_append, Code.strip_cons rfl, Code.strip_append,
            Code.strip_cons rfl, strip_plain_target, Code.strip_nil, List.append_assoc,
            List.cons_append, List.append_assoc] at hstart
          rw [Structured.exec, strip_plain_target, htest.straightLowered.strip_append,
            Code.strip_cons rfl, Code.strip_append, Code.strip_cons rfl, strip_plain_target,
            Code.strip_nil, List.append_assoc, List.cons_append, List.append_assoc]
          refine loop_follows htest hstart hexit (fun n s e next hready hnext => ?_) hready hnext
          exact hbody.follows hresolves₁ hbounds₁ hready hnext

/-- Where the branches start, execution follows them. -/
theorem Branches.Lowers.follows {code : Code} : ∀ {r : Branches} {exit next : Nat} {i j : Ids}
    {acts k : List Action}, r.Lowers exit next i acts j → Resolves code acts k →
    (∀ a ∈ acts, Code.counterBound a ≤ code.counters) →
    ∃ target, code.target? next = some target ∧
      ∀ {n : Nat} {s e : Engine} {after : Interp Unit}, Ready code n s e →
        Continues code i.counter n e after k →
        Follows ((r.exec >>= fun _ => after).outcome s) (code.runFrom n target e)
  | .close loc, _, _, _, _, _, k, h, hresolves, _ => by
      cases h
      refine ⟨k, (Resolves.target_iff.mp hresolves).1, ?_⟩
      intro n s e after hready hafter
      rw [Branches.exec, pure_bind]
      exact hafter n s e (Nat.le_refl n) hready (.refl _ e)
  | .otherwise loc body stop, _, _, _, _, _, k, h, hresolves, hbounds => by
      cases h with
      | otherwise hbody =>
          obtain ⟨htarget, hbehind⟩ := Resolves.target_iff.mp ((Resolves.cons_iff rfl).mp hresolves)
          have hresolves₁ := (Resolves.append_iff.mp hbehind).1
          simp only [List.forall_mem_append, List.forall_mem_cons] at hbounds
          obtain ⟨-, -, hbounds₁, -⟩ := hbounds
          rw [Code.strip_append, strip_plain_target, Code.strip_nil, List.append_nil] at htarget
          refine ⟨_, htarget, ?_⟩
          intro n s e after hready hafter
          rw [Branches.exec]
          exact hbody.follows hresolves₁ hbounds₁ hready hafter
  | .elseIf loc x body rest, _, _, i, _, _, k, h, hresolves, hbounds => by
      cases h with
      | elseIf htest hbody hrest =>
          obtain ⟨htarget, hbehind⟩ := Resolves.target_iff.mp ((Resolves.cons_iff rfl).mp hresolves)
          have hbehind := (Resolves.cons_iff rfl).mp (Resolves.append_iff.mp hbehind).2
          obtain ⟨hresolves₁, hresolves₂⟩ := Resolves.append_iff.mp hbehind
          simp only [List.forall_mem_append, List.forall_mem_cons] at hbounds
          obtain ⟨-, -, -, -, hbounds₁, hbounds₂⟩ := hbounds
          obtain ⟨target', htarget', hfollows⟩ := hrest.follows hresolves₂ hbounds₂
          rw [htest.straightLowered.strip_append, Code.strip_cons rfl,
            Code.strip_append, List.append_assoc, List.cons_append, List.append_assoc] at htarget
          refine ⟨_, htarget, ?_⟩
          intro n s e after hready hafter
          rw [Branches.exec, bind_assoc]
          refine hrest.guarded hresolves₂ htest htarget' hbody.code.1 ?_ ?_ hready hafter
          · intro n s e next hready hnext
            exact hbody.follows hresolves₁ hbounds₁ hready hnext
          · intro n s e hready hafter
            exact hfollows hready hafter

end

/-! ## Execution of a program -/

theorem Code.start_ready (code : Code) (pass : Pass) (e : Engine) :
    Ready code Code.jumpLimit (code.start pass e) (code.start pass e) where
  bare := rfl
  stack := rfl
  jump := rfl
  budget := rfl
  counters := Array.size_replicate

/-- Lowering preserves what a structured program does.  If its lines can be
issued at all, all blocks are closed and the actions can be executed; and in
any pass, from any symbols, execution does what the interpretation of the
program does, or is given up after too many jumps. -/
theorem Structured.execute_lowered (p : Structured) (ids : Ids) {b : Builder}
    (h : Builder.issueAll p.lines { ids := ids } = .ok () b) :
    ∃ acts code, b.finish = .ok acts ∧ Code.ofActions acts = .ok code ∧
      ∀ (pass : Pass) (e : Engine),
        Follows (p.exec.outcome (code.start pass e)) (code.execute (code.start pass e)) := by
  obtain ⟨acts, hlowers, hadded⟩ := p.lowers h
  obtain ⟨hle, hapart, hrange⟩ := hlowers.targets
  obtain ⟨code, hcode⟩ := ofActions_of_isCode hlowers.code.2
  have hacts : b.actions.toList = acts := hadded.actions
  have hfinish : b.finish = .ok acts := by
    unfold Builder.finish
    rw [hadded.blocks, hacts]
  have hresolves : Resolves code acts [] := by
    refine resolves_of_ofActions hcode hapart fun t ht => ?_
    have hlow := (hrange t ht).1
    omega
  obtain ⟨-, hstrip, -, hcounters⟩ := Code.ofActions_eq_ok hcode
  have hbounds : ∀ a ∈ acts, Code.counterBound a ≤ code.counters := by
    intro a ha
    rw [hcounters]
    exact (Code.le_foldl_max Code.counterBound acts 0).2 a ha
  refine ⟨acts, code, hfinish, hcode, fun pass e => ?_⟩
  -- behind the program nothing is left to run, for the interpreter as for the code
  have hend : Continues code ids.counter Code.jumpLimit (code.start pass e) (pure ()) [] := by
    intro n' s' e' _ hready _
    rw [Code.runFrom_nil, outcome_pure]
    refine .inr ?_
    rw [Part.map_some, hready.bare]
    rfl
  have hfollows := hlowers.follows hresolves hbounds (code.start_ready pass e) hend
  rw [bind_pure_unit, List.append_nil, ← hstrip] at hfollows
  rw [Code.execute_start]
  exact hfollows

/-- Two rounds of a condition with a loop in its second branch. -/
def countdown : Structured :=
  let line (n : Nat) : Location := ⟨"countdown", n⟩
  .seq (.simple (line 1) (.assign "@" (.number (line 1) 0x1000)))
    (.repetition (line 2) (.binary (line 2) .add (.number (line 2) 1) (.number (line 2) 1))
      (.choice (line 3) (.symbol (line 3) "x")
        (.simple (line 4) (.data false (.symbol (line 4) "x")))
        (.elseIf (line 5) (.symbol (line 5) "y")
          (.loop (line 6) (.symbol (line 6) "y")
            (.seq
              (.simple (line 7) (.instruction "lda"
                ⟨.direct, .x, some (.symbol (line 7) "y"), by decide⟩))
              (.simple (line 8) (.assign "y"
                (.binary (line 8) .sub (.symbol (line 8) "y") (.number (line 8) 1)))))
            (line 9))
          (.otherwise (line 10) (.simple (line 11) (.text true [0x41])) (line 12))))
      (line 13))

theorem Structured.execute_lowered_countdown :
    ∃ b, Builder.issueAll countdown.lines {} = .ok () b ∧
      ∃ acts code, b.finish = .ok acts ∧ Code.ofActions acts = .ok code ∧
        ∀ (pass : Pass) (e : Engine),
          Follows (countdown.exec.outcome (code.start pass e))
            (code.execute (code.start pass e)) := by
  have hissued : isOkWith (fun _ _ => true) (Builder.issueAll countdown.lines {}) = true := by
    decide +kernel
  obtain ⟨_, b, hb, -⟩ := exists_of_isOkWith hissued
  exact ⟨b, hb, countdown.execute_lowered {} hb⟩

end Mos6510
