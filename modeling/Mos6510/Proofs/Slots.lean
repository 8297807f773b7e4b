import Mathlib.Data.List.Induction
import Mos6510.Proofs.Folding
import Mos6510.Proofs.Settled

/-!
# Expressions on the stack

An expression works on top of what the stack holds when it starts.

* `Expr.slots`: how many values an expression has on the stack at a time;
* `depth_within`: what the stack holds at each action of some expressions;
* `Op.message_overflow`: a message fails for want of room only where one of its
  arguments needs more slots than there are;
* `unresolved_iff`: while an expression is computed on its own, the engine notes
  whether one of the symbols that it reads has no value.
-/

namespace Mos6510

open Outcome EngineM

/-! ## Errors of the stack -/

namespace Error

/-- The error is the other one, however located. -/
def Is (err target : Error) : Prop := target ∈ err.chain

variable {err target : Error}

theorem is_iff_any : err.Is target ↔ (err.chain.any fun e => e == target) = true := by
  unfold Is
  simp

theorem is_atLocation (htarget : target.inner? = none) (loc : Location) :
    (err.atLocation loc).Is target ↔ err.Is target := by
  rw [is_iff_any, is_iff_any, any_chain_atLocation]
  intro loc err
  rw [beq_eq_false_iff_ne]
  rintro rfl
  cases htarget

theorem is_atAction (htarget : target.inner? = none) (a : Action) :
    (err.atAction a).Is target ↔ err.Is target := by
  have hne : ∀ e : Error, e.inner?.isSome = true → (e == target) = false := by
    intro e he
    rw [beq_eq_false_iff_ne]
    rintro rfl
    rw [htarget] at he
    cases he
  rw [is_iff_any, is_iff_any, any_chain_atAction]
  · exact fun _ _ => hne _ rfl
  · exact fun _ _ _ => hne _ rfl

theorem chain_of_isOrdinary (h : err.isOrdinary = true) : err.chain = [err] := by
  cases err <;> first | rfl | cases h

theorem is_of_isOrdinary (h : err.isOrdinary = true) (his : err.Is target) :
    target.isOrdinary = true := by
  unfold Is at his
  rw [chain_of_isOrdinary h] at his
  rwa [List.mem_singleton.mp his]

end Error

namespace Op.Fails

variable {op : Op} {e : Engine} {err : Error}

theorem of_stackEmpty (h : op.Fails e err) (his : err.Is .stackEmpty) :
    e.stack.values.length < op.takes := by
  cases h with
  | ordinary h => cases Error.is_of_isOrdinary h his
  | empty h => exact h
  | full | counter | reach | misplaced => cases List.mem_singleton.mp his

theorem of_stackFull (h : op.Fails e err) (his : err.Is .stackFull) :
    op.computes = true ∧ e.stack.values.length = op.takes + Stack.limit := by
  cases h with
  | ordinary h => cases Error.is_of_isOrdinary h his
  | full hop h => exact ⟨hop, h⟩
  | empty | counter | reach | misplaced => cases List.mem_singleton.mp his

end Op.Fails

theorem Op.takes_eq_operands {op : Op} (h : op.computes = false) : op.takes = op.operands := by
  cases op with
  | unary | binary => cases h
  | _ => rfl

/-- Only a part of a binary file takes more than one value. -/
theorem Op.exists_bytes_of_operands {op : Op} (h : 1 < op.operands) :
    op.operands = 2 ∧ ∃ name bytes, op = .bytes name bytes := by
  cases op with
  | bytes name bytes => exact ⟨rfl, name, bytes, rfl⟩
  | instruction code => exact absurd h (by simp only [operands]; split <;> omega)
  | _ => exact absurd h (by simp [operands])

/-! ## Slots -/

/-- How many values an expression has on the stack at a time. -/
def Expr.slots : Expr → Nat
  | number _ _ => 1
  | symbol _ _ => 1
  | unary _ _ x => x.slots
  | binary _ _ x y => max x.slots (y.slots + 1)

theorem Expr.slots_pos (x : Expr) : 0 < x.slots := by
  induction x with
  | number | symbol => exact Nat.one_pos
  | unary _ _ _ ih => exact ih
  | binary _ _ x y ihx _ => exact Nat.lt_of_lt_of_le ihx (Nat.le_max_left _ _)

/-- What the stack holds after some actions that compute values. -/
def depthAfter (n : Nat) (ops : List Op) : Nat := ops.foldl (fun n op => n - op.takes + 1) n

theorem depthAfter_append (n : Nat) (as bs : List Op) :
    depthAfter n (as ++ bs) = depthAfter (depthAfter n as) bs :=
  List.foldl_append

/-- An expression leaves one value more. -/
theorem Expr.depth_actions (x : Expr) (n : Nat) :
    depthAfter n (x.actions.map Action.op) = n + 1 := by
  induction x generalizing n with
  | number | symbol => rfl
  | unary loc op x ih =>
      rw [actions, List.map_append, depthAfter_append, ih]
      rfl
  | binary loc op x y ihx ihy =>
      rw [actions, List.map_append, List.map_append, depthAfter_append, depthAfter_append, ihx, ihy]
      rfl

/-- A list with a marked place, cut in two: the place is in one of the parts. -/
theorem append_cons_eq_append {α : Type} {p s as bs : List α} {a : α}
    (h : p ++ a :: s = as ++ bs) :
    (∃ t, as = p ++ a :: t ∧ s = t ++ bs) ∨ ∃ t, p = as ++ t ∧ bs = t ++ a :: s := by
  induction as generalizing p with
  | nil => exact .inr ⟨p, rfl, h.symm⟩
  | cons b as ih =>
      cases p with
      | nil =>
          obtain ⟨rfl, rfl⟩ := List.cons.inj h
          exact .inl ⟨as, rfl, rfl⟩
      | cons c p =>
          obtain ⟨rfl, htail⟩ := List.cons.inj h
          rcases ih htail with ⟨t, rfl, rfl⟩ | ⟨t, rfl, rfl⟩
          · exact .inl ⟨t, rfl, rfl⟩
          · exact .inr ⟨t, rfl, rfl⟩

/-- Where a list of one has a marked place, that is it. -/
theorem singleton_eq_append_cons {α : Type} {p s : List α} {a b : α} (h : [b] = p ++ a :: s) :
    p = [] ∧ a = b := by
  cases p with
  | nil => exact ⟨rfl, (List.cons.inj h).1.symm⟩
  | cons c p =>
      have hlength := congrArg List.length h
      simp at hlength

/-- At each action of an expression there is what the action takes, and no more
than the expression has slots for; only at the first there may be nothing. -/
theorem Expr.depth_prefix (x : Expr) {p s : List Op} {op : Op}
    (h : x.actions.map Action.op = p ++ op :: s) (n : Nat) :
    n + op.takes ≤ depthAfter n p ∧ depthAfter n p < n + x.slots + op.takes ∧
      (p ≠ [] → n < depthAfter n p) := by
  induction x generalizing p s n with
  | number loc value =>
      obtain ⟨rfl, rfl⟩ := singleton_eq_append_cons h
      exact ⟨Nat.le_refl n, Nat.lt_succ_self n, fun hne => absurd rfl hne⟩
  | symbol loc name =>
      obtain ⟨rfl, rfl⟩ := singleton_eq_append_cons h
      exact ⟨Nat.le_refl n, Nat.lt_succ_self n, fun hne => absurd rfl hne⟩
  | unary loc o x ih =>
      rw [actions, List.map_append] at h
      rcases append_cons_eq_append h.symm with ⟨t, hx, -⟩ | ⟨t, rfl, hop⟩
      · exact ih hx n
      · obtain ⟨rfl, rfl⟩ := singleton_eq_append_cons hop
        have hpos := x.slots_pos
        rw [List.append_nil, x.depth_actions]
        simp only [Action.plain, Op.takes, slots]
        omega
  -- the second operand is evaluated on top of the value of the first
  | binary loc o x y ihx ihy =>
      rw [actions, List.map_append, List.map_append] at h
      have hx_le : x.slots ≤ (binary loc o x y).slots := Nat.le_max_left _ _
      have hy_lt : y.slots + 1 ≤ (binary loc o x y).slots := Nat.le_max_right _ _
      rcases append_cons_eq_append h.symm with ⟨t, hx, -⟩ | ⟨t, rfl, hrest⟩
      · obtain ⟨htakes, hroom, hsome⟩ := ihx hx n
        exact ⟨htakes, by omega, hsome⟩
      · rw [depthAfter_append, x.depth_actions]
        rcases append_cons_eq_append hrest.symm with ⟨t', hy, -⟩ | ⟨t', rfl, hop⟩
        · obtain ⟨htakes, hroom, -⟩ := ihy hy (n + 1)
          exact ⟨by omega, by omega, fun _ => by omega⟩
        · obtain ⟨rfl, rfl⟩ := singleton_eq_append_cons hop
          have hpos := y.slots_pos
          rw [List.append_nil, y.depth_actions]
          simp only [Action.plain, Op.takes]
          omega

/-- Expressions leave one value each. -/
theorem depth_flatten {es : List (List Action)} (hes : ∀ e ∈ es, IsEval e) (n : Nat) :
    depthAfter n (es.flatten.map Action.op) = n + es.length := by
  induction es generalizing n with
  | nil => rfl
  | cons e es ih =>
      obtain ⟨⟨x, hx⟩, hrest⟩ := List.forall_mem_cons.mp hes
      rw [List.flatten_cons, List.map_append, depthAfter_append, hx, x.depth_actions, ih hrest,
        List.length_cons]
      omega

/-- At each action of some expressions there is what the action takes, and no
more than its expression has slots for above the values of those before. -/
theorem depth_within {es : List (List Action)} (hes : ∀ e ∈ es, IsEval e) {p s : List Action}
    {a : Action} (h : es.flatten = p ++ a :: s) (n : Nat) :
    n + a.op.takes ≤ depthAfter n (p.map Action.op) ∧
      ∃ (lower : List (List Action)) (begun left : List Action) (upper : List (List Action))
        (x : Expr), es = lower ++ (begun ++ a :: left) :: upper ∧ p = lower.flatten ++ begun ∧
          (begun ++ a :: left).map Action.op = x.actions.map Action.op ∧
          depthAfter n (p.map Action.op) < n + lower.length + x.slots + a.op.takes := by
  induction es generalizing p n with
  | nil => exact absurd h.symm (List.append_ne_nil_of_right_ne_nil p (List.cons_ne_nil _ _))
  | cons e es ih =>
      obtain ⟨⟨x, hx⟩, hrest⟩ := List.forall_mem_cons.mp hes
      rw [List.flatten_cons] at h
      rcases append_cons_eq_append h.symm with ⟨t, rfl, -⟩ | ⟨t, rfl, htail⟩
      · have hplace : x.actions.map Action.op = p.map Action.op ++ a.op :: t.map Action.op := by
          rw [← hx, List.map_append, List.map_cons]
        obtain ⟨htakes, hroom, -⟩ := x.depth_prefix hplace n
        exact ⟨htakes, [], p, t, es, x, rfl, rfl, hx, hroom⟩
      · rw [List.map_append, depthAfter_append, hx, x.depth_actions]
        obtain ⟨htakes, lower, begun, left, upper, y, rfl, rfl, hy, hroom⟩ := ih hrest htail (n + 1)
        refine ⟨by omega, e :: lower, begun, left, upper, y, rfl, ?_, hy, ?_⟩
        · rw [List.flatten_cons, List.append_assoc]
        · rw [List.length_cons]
          omega

/-! ## Running actions that compute values -/

/-- An action that computes a value replaces what it takes by that value. -/
theorem Op.run_depth {op : Op} (hop : op.computes = true) {loc : Location} {e e' : Engine}
    (h : op.run loc e = .ok () e') :
    e'.stack.values.length = e.stack.values.length - op.takes + 1 := by
  cases op with
  | load v =>
      obtain ⟨_, e₁, hstart, hpush⟩ := bind_eq_ok.mp h
      obtain rfl := Engine.startOperand_eq_ok.mp hstart
      obtain ⟨-, rfl⟩ := Engine.push_eq_ok.mp hpush
      rfl
  | get name =>
      obtain ⟨v, hv⟩ := (get_pushed h).2
      rw [hv]
      rfl
  | unary op =>
      obtain ⟨v, e₁, hpop, hpush⟩ := bind_eq_ok.mp h
      obtain ⟨rest, hs, rfl⟩ := Engine.pop_eq_ok.mp hpop
      obtain ⟨-, rfl⟩ := Engine.push_eq_ok.mp hpush
      rw [hs]
      rfl
  | binary op =>
      obtain ⟨a, b, v, rest, hs, -, hpush⟩ := Engine.applyBinary_eq_ok.mp h
      obtain ⟨-, rfl⟩ := Engine.push_eq_ok.mp hpush
      rw [hs]
      rfl
  | _ => cases hop

/-- It leaves all else untouched. -/
theorem Op.run_untouched {op : Op} (hop : op.computes = true) {loc : Location} {e e' : Engine}
    (h : op.run loc e = .ok () e') : e.Untouched e' := by
  cases op with
  | load v => exact (load_pushed h).1
  | get name => exact (get_pushed h).1
  | unary op =>
      obtain ⟨v, e₁, hpop, hpush⟩ := bind_eq_ok.mp h
      obtain ⟨rest, -, rfl⟩ := Engine.pop_eq_ok.mp hpop
      obtain ⟨-, rfl⟩ := Engine.push_eq_ok.mp hpush
      exact { Engine.Untouched.refl e with }
  | binary op =>
      obtain ⟨a, b, v, rest, -, -, hpush⟩ := Engine.applyBinary_eq_ok.mp h
      obtain ⟨-, rfl⟩ := Engine.push_eq_ok.mp hpush
      exact { Engine.Untouched.refl e with }
  | _ => cases hop

theorem Action.perform_eq_ok_iff {a : Action} {e e' : Engine} :
    a.perform e = .ok () e' ↔ a.run (e.atAction a) = .ok () e' := by
  unfold Action.perform
  cases a.run (e.atAction a) with
  | ok u e₁ => rfl
  | error err e₁ => simp

theorem performAll_snoc {acts : List Action} {a : Action} {e e' : Engine} :
    performAll (acts ++ [a]) e = .ok () e' ↔
      ∃ d, performAll acts e = .ok () d ∧ a.run (d.atAction a) = .ok () e' := by
  rw [performAll_append, performAll_single, bind_eq_ok]
  constructor
  · rintro ⟨_, d, hacts, ha⟩
    exact ⟨d, hacts, Action.perform_eq_ok_iff.mp ha⟩
  · rintro ⟨d, hacts, ha⟩
    exact ⟨(), d, hacts, Action.perform_eq_ok_iff.mpr ha⟩

/-- Actions that compute values leave what they are counted to leave. -/
theorem performAll_depth {acts : List Action} (hacts : Computes acts) {e d : Engine}
    (h : performAll acts e = .ok () d) :
    d.stack.values.length = depthAfter e.stack.values.length (acts.map Action.op) := by
  induction acts generalizing e with
  | nil =>
      obtain ⟨-, rfl⟩ := pure_eq_ok.mp h
      rfl
  | cons a rest ih =>
      obtain ⟨ha, hrest⟩ := List.forall_mem_cons.mp hacts
      obtain ⟨_, e₁, hfirst, hlast⟩ := bind_eq_ok.mp h
      obtain ⟨loc, op, x⟩ := a
      have hdepth := Op.run_depth ha (Action.perform_eq_ok_iff.mp hfirst)
      rw [ih hrest hlast, hdepth]
      rfl

/-! ## Symbols without a value -/

/-- The name is that of a symbol that has no value yet. -/
def Engine.Lacks (e : Engine) (name : String) : Prop :=
  ∃ full c, qualify name e.parent = .ok full ∧ e.cell? full = some c ∧ c.isSet = false

theorem Engine.Untouched.lacks_iff {e e' : Engine} (h : e.Untouched e') (name : String) :
    e'.Lacks name ↔ e.Lacks name := by
  unfold Lacks
  rw [h.parent]
  refine exists_congr fun full => ?_
  rcases cell?_related (r := fun _ => Cell.Same) h.vars h.labels h.pc full with
    ⟨hnone, hnone'⟩ | ⟨c, d, hc, hd, -, hset⟩
  · rw [hnone, hnone']
  · rw [hc, hd]
    simp only [Option.some.injEq, exists_and_left, exists_eq_left', hset]

/-- The engine notes where an operand has no value, and forgets it where a new
expression starts. -/
theorem Op.run_unresolved {op : Op} (hop : op.computes = true) {loc : Location} {e e' : Engine}
    (h : op.run loc e = .ok () e') :
    e'.unresolved = true ↔
      (e.unresolved = true ∧ e.stack.values ≠ []) ∨ ∃ name, op = .get name ∧ e.Lacks name := by
  cases op with
  | load v =>
      obtain ⟨_, e₁, hstart, hpush⟩ := bind_eq_ok.mp h
      obtain rfl := Engine.startOperand_eq_ok.mp hstart
      obtain ⟨-, rfl⟩ := Engine.push_eq_ok.mp hpush
      simp
  -- only a read can come upon a symbol without a value
  | get name =>
      obtain ⟨_, e₁, hstart, h⟩ := bind_eq_ok.mp h
      obtain ⟨v, e₂, hread, hpush⟩ := bind_eq_ok.mp h
      obtain rfl := Engine.startOperand_eq_ok.mp hstart
      obtain ⟨full, c, hq, hc, -, hcase⟩ := Engine.readSymbol_eq_ok.mp hread
      obtain ⟨-, rfl⟩ := Engine.push_eq_ok.mp hpush
      obtain ⟨vars, labels, pc, heq, -⟩ := Engine.markRead_eq
        { e with unresolved := e.unresolved && !e.stack.values.isEmpty } full c
      rcases hcase with ⟨hset, rfl⟩ | ⟨hset, -, rfl⟩
      · have hhas : ¬ e.Lacks name := by
          rintro ⟨full', c', hq', hc', hset'⟩
          obtain rfl := Except.ok.inj (hq.symm.trans hq')
          obtain rfl := Option.some.inj (hc.symm.trans hc')
          rw [hset] at hset'
          cases hset'
        rw [heq]
        simp [hhas]
      · have hlacks : e.Lacks name := ⟨full, c, hq, hc, hset⟩
        simp [hlacks]
  | unary op =>
      obtain ⟨v, e₁, hpop, hpush⟩ := bind_eq_ok.mp h
      obtain ⟨rest, hs, rfl⟩ := Engine.pop_eq_ok.mp hpop
      obtain ⟨-, rfl⟩ := Engine.push_eq_ok.mp hpush
      simp [hs]
  | binary op =>
      obtain ⟨a, b, v, rest, hs, -, hpush⟩ := Engine.applyBinary_eq_ok.mp h
      obtain ⟨-, rfl⟩ := Engine.push_eq_ok.mp hpush
      simp [hs]
  | _ => cases hop

theorem performAll_lacks {acts : List Action} (hacts : Computes acts) {e d : Engine}
    (h : performAll acts e = .ok () d) (name : String) : d.Lacks name ↔ e.Lacks name := by
  induction acts generalizing e with
  | nil =>
      obtain ⟨-, rfl⟩ := pure_eq_ok.mp h
      rfl
  | cons a rest ih =>
      obtain ⟨ha, hrest⟩ := List.forall_mem_cons.mp hacts
      obtain ⟨_, e₁, hfirst, hlast⟩ := bind_eq_ok.mp h
      obtain ⟨loc, op, x⟩ := a
      have huntouched := Op.run_untouched ha (Action.perform_eq_ok_iff.mp hfirst)
      exact (ih hrest hlast).trans (huntouched.lacks_iff name)

/-- While an expression is computed on its own, the engine notes whether one of
the symbols that it reads has no value. -/
theorem unresolved_iff {x : Expr} {acts : List Action} (hne : acts ≠ [])
    (hacts : acts.map Action.op <+: x.actions.map Action.op) {e d : Engine}
    (he : e.stack.values = []) (h : performAll acts e = .ok () d) :
    d.unresolved = true ↔ ∃ b ∈ acts, ∃ name, b.op = .get name ∧ e.Lacks name := by
  have hcomputes : Computes acts := by
    intro a ha
    obtain ⟨b, hb, hop⟩ := List.mem_map.mp (hacts.subset (List.mem_map_of_mem ha))
    rw [← hop]
    exact x.actions_compute b hb
  induction acts using List.reverseRecOn generalizing d with
  | nil => exact absurd rfl hne
  | append_singleton acts a ih =>
      obtain ⟨c, hbefore, hrun⟩ := performAll_snoc.mp h
      obtain ⟨hfirst, ha⟩ := List.forall_mem_append.mp hcomputes
      obtain ⟨s, hs⟩ := hacts
      rw [List.map_append, List.map_singleton, List.append_assoc, List.singleton_append] at hs
      obtain ⟨loc, op, m⟩ := a
      have hstep := Op.run_unresolved (ha _ (List.mem_singleton_self _)) hrun
      have hown : (c.atAction ⟨loc, op, m⟩).Lacks = e.Lacks :=
        funext fun name => propext (performAll_lacks hfirst hbefore name)
      rw [hstep, hown]
      cases acts with
      | nil =>
          obtain ⟨-, rfl⟩ := pure_eq_ok.mp hbefore
          simp [Engine.atAction, he]
      | cons b rest =>
          -- the first operand is still there, so nothing is forgotten
          have hdepth := performAll_depth hfirst hbefore
          obtain ⟨-, -, hsome⟩ := x.depth_prefix hs.symm e.stack.values.length
          have hlength : c.stack.values ≠ [] := by
            intro hnone
            have hpos := hsome (by simp)
            rw [← hdepth, hnone] at hpos
            cases hpos
          have hrest : c.unresolved = true ↔
              ∃ b' ∈ b :: rest, ∃ name, b'.op = .get name ∧ e.Lacks name :=
            ih (List.cons_ne_nil b rest) ⟨_, hs⟩ hbefore hfirst
          have hflag : (c.atAction ⟨loc, op, m⟩).unresolved = c.unresolved := rfl
          have hstack : (c.atAction ⟨loc, op, m⟩).stack = c.stack := rfl
          rw [hflag, hstack, hrest]
          simp only [hlength, ne_eq, not_false_eq_true, and_true, List.mem_append,
            List.mem_singleton, or_and_right, exists_or, exists_eq_left]

/-! ## Messages -/

theorem runEach_eq_error {as bs : List Action} {e e' : Engine} {err : Error}
    (h : runEach (as ++ bs) e = .error err e') :
    runEach as e = .error err e' ∨ ∃ d, runEach as e = .ok () d ∧ runEach bs d = .error err e' := by
  induction as generalizing e with
  | nil => exact .inr ⟨e, by rw [runEach]; rfl, h⟩
  | cons a rest ih =>
      rw [List.cons_append, runEach] at h
      rw [runEach]
      rcases bind_eq_error.mp h with ha | ⟨_, e₁, ha, hrest⟩
      · exact .inl (bind_eq_error.mpr (.inl ha))
      · rcases ih hrest with hfirst | ⟨d, hfirst, hlast⟩
        · exact .inl (bind_eq_error.mpr (.inr ⟨(), e₁, ha, hfirst⟩))
        · exact .inr ⟨d, bind_eq_ok.mpr ⟨(), e₁, ha, hfirst⟩, hlast⟩

theorem runEach_single_error {loc : Location} {op : Op} {e e' : Engine} {err : Error}
    (h : runEach [Action.plain loc op] e = .error err e') :
    ∃ err₀ e₁, op.run loc e = .error err₀ e₁ ∧ err = err₀.atLocation loc := by
  rw [runEach, runEach] at h
  rcases bind_eq_error.mp h with hrun | ⟨_, _, -, hpure⟩
  · change EStateM.tryCatch (op.run loc) _ e = _ at hrun
    unfold EStateM.tryCatch at hrun
    cases hop : op.run loc e with
    | ok u e₁ =>
        rw [hop] at hrun
        cases hrun
    | error err₀ e₁ =>
        rw [hop] at hrun
        cases hrun
        exact ⟨err₀, e₁, rfl, rfl⟩
  · cases hpure

/-- The errors that come from the stack: it never holds too few values, and too
many only where there is need for them. -/
structure Error.FullOnlyIf (err : Error) (need : Prop) : Prop where
  notEmpty : ¬ err.Is .stackEmpty
  full : err.Is .stackFull → need

namespace Error.FullOnlyIf

variable {err : Error} {need need' : Prop}

theorem imp (h : err.FullOnlyIf need) (hneed : need → need') : err.FullOnlyIf need' :=
  ⟨h.notEmpty, fun his => hneed (h.full his)⟩

theorem of_isOrdinary (h : err.isOrdinary = true) : err.FullOnlyIf need where
  notEmpty his := by cases is_of_isOrdinary h his
  full his := by cases is_of_isOrdinary h his

theorem of_single (h : err.chain = [err]) (hempty : err ≠ .stackEmpty) (hfull : err ≠ .stackFull) :
    err.FullOnlyIf need where
  notEmpty his := hempty (List.mem_singleton.mp (h ▸ his)).symm
  full his := absurd (List.mem_singleton.mp (h ▸ his)).symm hfull

theorem atLocation (h : err.FullOnlyIf need) (loc : Location) : (err.atLocation loc).FullOnlyIf need where
  notEmpty his := h.notEmpty ((is_atLocation rfl loc).mp his)
  full his := h.full ((is_atLocation rfl loc).mp his)

theorem atAction (h : err.FullOnlyIf need) (a : Action) : (err.atAction a).FullOnlyIf need where
  notEmpty his := h.notEmpty ((is_atAction rfl a).mp his)
  full his := h.full ((is_atAction rfl a).mp his)

end Error.FullOnlyIf

/-- An action that finds what it takes fails for want of room only where there
is none left for the value that it computes. -/
theorem Op.Fails.overflow {op : Op} {e : Engine} {err : Error} (h : op.Fails e err)
    (htakes : op.takes ≤ e.stack.values.length) :
    err.FullOnlyIf (op.computes = true ∧ e.stack.values.length = op.takes + Stack.limit) where
  notEmpty his := by
    have hfew := h.of_stackEmpty his
    omega
  full := h.of_stackFull

theorem runEach_single_overflow {loc : Location} {op : Op} (hmsg : op.isMessage = false)
    {e e' : Engine} {err : Error} (htakes : op.takes ≤ e.stack.values.length)
    (h : runEach [Action.plain loc op] e = .error err e') :
    err.FullOnlyIf (e.stack.values.length = op.takes + Stack.limit) := by
  obtain ⟨err₀, e₁, hrun, rfl⟩ := runEach_single_error h
  exact (((Op.run_fails hmsg hrun).overflow htakes).imp And.right).atLocation loc

/-- An expression fails for want of room only where it needs more slots than
there are left. -/
theorem Expr.runEach_overflow (x : Expr) {e e' : Engine} {err : Error}
    (h : runEach x.actions e = .error err e') :
    err.FullOnlyIf (Stack.limit < e.stack.values.length + x.slots) := by
  induction x generalizing e with
  | number loc value =>
      refine (runEach_single_overflow rfl (Nat.zero_le _) h).imp fun hfull => ?_
      simp only [hfull, Op.takes, Op.operands, slots]
      omega
  | symbol loc name =>
      refine (runEach_single_overflow rfl (Nat.zero_le _) h).imp fun hfull => ?_
      simp only [hfull, Op.takes, Op.operands, slots]
      omega
  | unary loc op x ih =>
      rcases runEach_eq_error h with hx | ⟨d, hx, hop⟩
      · exact ih hx
      -- the value of the first operand takes one slot while the second is evaluated
      · obtain ⟨-, v, hv⟩ := x.runEach_pushed hx
        have hpos := x.slots_pos
        refine (runEach_single_overflow rfl (by simp [hv, Op.takes]) hop).imp fun hfull => ?_
        simp only [hv, List.length_cons, Op.takes] at hfull
        simp only [slots]
        omega
  | binary loc op x y ihx ihy =>
      have hx_le : x.slots ≤ (binary loc op x y).slots := Nat.le_max_left _ _
      have hy_lt : y.slots + 1 ≤ (binary loc op x y).slots := Nat.le_max_right _ _
      rcases runEach_eq_error h with hx | ⟨d, hx, hrest⟩
      · exact (ihx hx).imp fun hfull => by omega
      obtain ⟨-, v, hv⟩ := x.runEach_pushed hx
      rcases runEach_eq_error hrest with hy | ⟨d', hy, hop⟩
      · refine (ihy hy).imp fun hfull => ?_
        simp only [hv, List.length_cons] at hfull
        omega
      · obtain ⟨-, w, hw⟩ := y.runEach_pushed hy
        refine (runEach_single_overflow rfl (by simp [hw, hv, Op.takes]) hop).imp fun hfull => ?_
        simp only [hw, hv, List.length_cons, Op.takes] at hfull
        omega

/-- The arguments of a message are computed one after the other, each on the
stack as it was before. -/
theorem argValues_overflow {args : List (List Action)} (hargs : ∀ arg ∈ args, IsMessageArg arg)
    {e e' : Engine} {err : Error} (h : argValues args e = .error err e') :
    err.FullOnlyIf (∃ x : Expr, x.actions ∈ args ∧ Stack.limit < e.stack.values.length + x.slots) := by
  induction args generalizing e with
  | nil =>
      rw [argValues] at h
      cases h
  | cons arg rest ih =>
      obtain ⟨harg, hrest⟩ := List.forall_mem_cons.mp hargs
      have hlater : ∀ {n : Nat}, (∃ x : Expr, x.actions ∈ rest ∧ Stack.limit < n + x.slots) →
          ∃ x : Expr, x.actions ∈ arg :: rest ∧ Stack.limit < n + x.slots := by
        rintro n ⟨x, hx, hneed⟩
        exact ⟨x, List.mem_cons_of_mem _ hx, hneed⟩
      rcases argValues_cons arg rest with ⟨loc, s, m, -, heq⟩ | ⟨hne, heq⟩
      · rw [heq] at h
        rcases bind_eq_error.mp h with hvalues | ⟨_, _, -, hpure⟩
        · exact (ih hrest hvalues).imp hlater
        · cases hpure
      · rcases harg with ⟨loc, s, rfl⟩ | ⟨x, rfl⟩
        · exact absurd rfl (hne loc s none)
        rw [argValues_expr ⟨x, rfl⟩] at h
        rcases bind_eq_error.mp h with hvalue | ⟨v, d, hvalue, h⟩
        · rcases bind_eq_error.mp hvalue with hx | ⟨_, d, hx, hpop⟩
          · exact (x.runEach_overflow hx).imp fun hneed => ⟨x, List.mem_cons_self, hneed⟩
          · obtain ⟨-, v, hv⟩ := x.runEach_pushed hx
            rw [(Engine.pop_eq_error hpop).2] at hv
            cases hv
        · rw [← evaluate_stack hvalue]
          rcases bind_eq_error.mp h with hvalues | ⟨_, _, -, hpure⟩
          · exact (ih hrest hvalues).imp hlater
          · cases hpure

/-- A message fails for want of room only where one of its arguments needs more
slots than there are left. -/
theorem Op.message_overflow {level : Level} {formatted : Bool} {args : List (List Action)}
    (hargs : ∀ arg ∈ args, IsMessageArg arg) {loc : Location} {e e' : Engine} {err : Error}
    (h : (Op.message level formatted args).run loc e = .error err e') :
    err.FullOnlyIf (∃ x : Expr, x.actions ∈ args ∧ Stack.limit < e.stack.values.length + x.slots) := by
  rw [Op.run, bind_of_ok (get_eq_ok.mpr ⟨rfl, rfl⟩)] at h
  split at h
  · rcases bind_eq_error.mp h with hvalues | ⟨values, d, -, hreport⟩
    · exact argValues_overflow hargs hvalues
    · exact .of_isOrdinary (Engine.report_raises loc level formatted values hreport)
  · cases h

/-! ## Actions that take values -/

theorem Engine.requestJump_if_stack {j : Int} {p : Prop} [Decidable p] {e e' : Engine}
    (h : (if p then requestJump j else pure ()) e = .ok () e') : e'.stack = e.stack := by
  split at h
  · rw [requestJump_eq_ok.mp h]
  · rw [(pure_eq_ok.mp h).2]

/-- An action that computes no value only takes its operands off the stack. -/
theorem Action.run_operands {a : Action} (hspeaks : a.Speaks) (hacts : a.op.computes = false)
    {e e' : Engine} (h : a.run e = .ok () e') :
    e'.stack.values = e.stack.values.drop a.op.operands := by
  obtain ⟨loc, op, x⟩ := a
  rw [Action.run] at h
  cases hmeta : op.isMeta with
  | true =>
      rw [Op.run_of_isMeta hmeta] at h
      exact absurd h throw_ne_ok
  | false =>
      cases op with
      | load | get | unary | binary => cases hacts
      -- of the others each pops its operands and pushes nothing
      | set name =>
          obtain ⟨v, e₁, hpop, hassign⟩ := bind_eq_ok.mp h
          obtain ⟨rest, hs, rfl⟩ := Engine.pop_eq_ok.mp hpop
          have hstack : e'.stack.values = rest := by
            obtain ⟨full, -, ⟨-, rfl⟩ | ⟨-, -, rfl⟩⟩ := Engine.assign_eq_ok.mp hassign
            · rfl
            · rfl
          rw [hstack, hs]
          rfl
      | instruction code =>
          rw [encode_stack h]
          by_cases himplied : (Opcode.ofCode code).mode = .implied
          · simp [himplied, Op.operands]
          · simp [himplied, Op.operands]
      | width mnemonic index =>
          rw [encodeWidth_stack h]
          exact List.drop_one.symm
      | data word =>
          obtain ⟨v, e₁, hpop, hemit⟩ := bind_eq_ok.mp h
          obtain ⟨rest, hs, rfl⟩ := Engine.pop_eq_ok.mp hpop
          rw [emitSized_keeps (emit_stack .data) word v hemit, hs]
          rfl
      | text word bytes =>
          rw [emitBytes_keeps (emit_stack .data) word bytes h]
          rfl
      | bytes name bytes =>
          obtain ⟨length, e₁, hlength, h₁⟩ := bind_eq_ok.mp h
          obtain ⟨skip, e₂, hskip, hemit⟩ := bind_eq_ok.mp h₁
          obtain ⟨rest, hs, rfl⟩ := Engine.pop_eq_ok.mp hlength
          obtain ⟨rest', hs', rfl⟩ := Engine.pop_eq_ok.mp hskip
          have hs' : rest = skip :: rest' := hs'
          rw [emitBytes_keeps (emit_stack .data) false _ hemit, hs, hs']
          rfl
      | label name synthetic =>
          obtain ⟨full, a, -, -, -, rfl⟩ := Engine.placeLabel_eq_ok.mp h
          rfl
      | jump j =>
          rw [Engine.requestJump_eq_ok.mp h]
          rfl
      | jumpIfFalse j =>
          obtain ⟨v, e₁, hpop, hjump⟩ := bind_eq_ok.mp h
          obtain ⟨rest, hs, rfl⟩ := Engine.pop_eq_ok.mp hpop
          rw [Engine.requestJump_if_stack hjump, hs]
          rfl
      | counterSet c =>
          obtain ⟨-, hload⟩ := Engine.loadCounter_eq_ok.mp h
          obtain ⟨v, e₁, hpop, hset⟩ := bind_eq_ok.mp hload
          obtain ⟨rest, hs, rfl⟩ := Engine.pop_eq_ok.mp hpop
          rw [Engine.setCounter_eq_ok.mp hset, hs]
          rfl
      | counterTest c j =>
          obtain ⟨v, e₁, hcounter, hjump⟩ := bind_eq_ok.mp h
          obtain ⟨-, rfl⟩ := Engine.counter_eq_ok.mp hcounter
          rw [Engine.requestJump_if_stack hjump]
          rfl
      | counterStep c j =>
          obtain ⟨v, e₁, hcounter, hrest⟩ := bind_eq_ok.mp h
          obtain ⟨-, rfl⟩ := Engine.counter_eq_ok.mp hcounter
          obtain ⟨_, e₂, hset, hjump⟩ := bind_eq_ok.mp hrest
          rw [Engine.requestJump_eq_ok.mp hjump, Engine.setCounter_eq_ok.mp hset]
          rfl
      | message level formatted args =>
          rw [(message_untouched (hspeaks level formatted args rfl) h).2]
          rfl
      | _ => cases hmeta

end Mos6510
