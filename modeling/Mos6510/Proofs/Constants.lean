import Mathlib
import Mos6510.Proofs.Slots

/-!
# Constants are folded faithfully

The actions of a constant expression look at nothing but the values on the
stack.  `calculateAll` says what they make of these, without an engine, and
folding is a calculation on an empty stack.

* `runEach_settles`: running constant actions is calculating with them,
  whatever the engine is;
* `calculateAll_above`: what is calculated on an empty stack is calculated on
  top of any other as well, unless there is no room for it;
* `foldConstant_faithful`: so a folded expression does what the written one
  does wherever that does not overflow the stack, and one that cannot be folded
  fails where it is run, or leaves values behind.
-/

namespace Mos6510

open Outcome EngineM

/-! ## Calculating with a stack -/

/-- What an action of a constant expression makes of a stack. -/
def Op.calculate : Op → Stack → Except Error Stack
  | .load v, s => s.push v
  | .unary op, ⟨a :: rest⟩ => Stack.push (op.apply a) ⟨rest⟩
  | .binary op, ⟨b :: a :: rest⟩ =>
    match op.value? a b with
    | some v => Stack.push v ⟨rest⟩
    | none => .error .divisionByZero
  | .unary _, _ => .error .stackEmpty
  | .binary _, _ => .error .stackEmpty
  | _, s => .ok s

/-- What the actions of a constant expression make of a stack, one after the
other.  An error is that of an action, with its location. -/
def calculateAll : List Action → Stack → Except Error Stack
  | [], s => .ok s
  | a :: rest, s =>
    match a.op.calculate s with
    | .error err => .error (err.atLocation a.location)
    | .ok s => calculateAll rest s

theorem Stack.push_eq_ok {v : Int64} {s s' : Stack} :
    s.push v = .ok s' ↔ s.depth ≠ Stack.limit ∧ s' = ⟨v :: s.values⟩ := by
  unfold Stack.push
  split
  · rename_i hfull
    simp [beq_iff_eq.mp hfull]
  · rename_i hroom
    have hroom : s.depth ≠ Stack.limit := fun h => hroom (beq_iff_eq.mpr h)
    simp [hroom, eq_comm]

/-- An action of a constant expression pushes a value. -/
theorem Op.exists_push_of_calculate {op : Op} (hop : op.isConstant = true) {s s' : Stack}
    (h : op.calculate s = .ok s') : ∃ v t, Stack.push v t = .ok s' := by
  obtain ⟨vs⟩ := s
  cases op with
  | load v => exact ⟨v, ⟨vs⟩, h⟩
  | unary op =>
      cases vs with
      | nil => cases h
      | cons a rest => exact ⟨op.apply a, ⟨rest⟩, h⟩
  | binary op =>
      rcases vs with _ | ⟨b, _ | ⟨a, rest⟩⟩
      · cases h
      · cases h
      · rw [calculate] at h
        cases hv : op.value? a b with
        | none =>
            rw [hv] at h
            cases h
        | some v =>
            rw [hv] at h
            exact ⟨v, ⟨rest⟩, h⟩
  | _ => cases hop

theorem Op.calculate_ne_nil {op : Op} (hop : op.isConstant = true) {s s' : Stack}
    (h : op.calculate s = .ok s') : s'.values ≠ [] := by
  obtain ⟨v, t, hpush⟩ := Op.exists_push_of_calculate hop h
  rw [(Stack.push_eq_ok.mp hpush).2]
  exact List.cons_ne_nil _ _

theorem calculateAll_ne_nil {acts : List Action} (hacts : ∀ a ∈ acts, a.op.isConstant = true)
    (hne : acts ≠ []) {s s' : Stack} (h : calculateAll acts s = .ok s') : s'.values ≠ [] := by
  induction acts generalizing s with
  | nil => exact absurd rfl hne
  | cons a rest ih =>
      obtain ⟨ha, hrest⟩ := List.forall_mem_cons.mp hacts
      rw [calculateAll] at h
      cases hcalc : a.op.calculate s with
      | error err =>
          rw [hcalc] at h
          cases h
      | ok s₁ =>
          rw [hcalc] at h
          cases rest with
          | nil =>
              cases h
              exact Op.calculate_ne_nil ha hcalc
          | cons b rest => exact ih hrest (List.cons_ne_nil b rest) h

/-- Of all these actions only a load finds what it needs on an empty stack. -/
theorem Op.eq_load_of_calculate {op : Op} (hop : op.isConstant = true) {s : Stack}
    (h : op.calculate {} = .ok s) : ∃ v, op = .load v := by
  cases op with
  | load v => exact ⟨v, rfl⟩
  | unary | binary => cases h
  | _ => cases hop

/-! ## Running constant actions -/

/-- Running does to the stack of an engine what was calculated.  All else stays,
but the note that a symbol had no value, which an operand on an empty stack
drops. -/
def Settles (r : EStateM.Result Error Engine Unit) (e : Engine) : Except Error Stack → Prop
  | .ok s => r = .ok () { e with stack := s, unresolved := e.unresolved && !e.stack.values.isEmpty }
  | .error err => ∃ e', r = .error err e'

/-- Pushing onto what is left of the stack of an engine. -/
theorem push_settles {e : Engine} {s : Stack} {flag : Bool} (v : Int64)
    (hflag : flag = (e.unresolved && !e.stack.values.isEmpty)) :
    Settles (Engine.push v { e with stack := s, unresolved := flag }) e (s.push v) := by
  unfold Engine.push
  cases h : s.push v with
  | ok s' =>
      rw [hflag]
      rfl
  | error err => exact ⟨_, rfl⟩

theorem Op.run_settles {op : Op} (hop : op.isConstant = true) (loc : Location) (e : Engine) :
    Settles (op.run loc e) e (op.calculate e.stack) := by
  -- where a value can be taken, the stack is not empty and the note stays
  have hkept : ∀ {v rest}, e.stack.values = v :: rest →
      e.unresolved = (e.unresolved && !e.stack.values.isEmpty) := by
    intro v rest hs
    rw [hs, List.isEmpty_cons, Bool.not_false, Bool.and_true]
  cases op with
  | load v => exact push_settles v rfl
  | unary op =>
      cases hs : e.stack.values with
      | nil =>
          have hstack : e.stack = ⟨[]⟩ := congrArg Stack.mk hs
          rw [hstack]
          refine ⟨e, bind_eq_error.mpr (.inl ?_)⟩
          simp [Engine.pop, Stack.pop, hs]
      | cons a rest =>
          have hstack : e.stack = ⟨a :: rest⟩ := congrArg Stack.mk hs
          have hpop := Engine.pop_eq_ok.mpr ⟨rest, hs, rfl⟩
          rw [hstack]
          have hrun : (Op.unary op).run loc e = _ := bind_of_ok hpop
          rw [hrun]
          exact push_settles _ (hkept hs)
  | binary op =>
      cases hpop : Engine.popPair e with
      | error err e₁ =>
          obtain ⟨rfl, hfew⟩ := Engine.popPair_eq_error hpop
          have hcalc : (Op.binary op).calculate e.stack = .error .stackEmpty := by
            cases hs : e.stack with
            | mk vs =>
                rw [hs] at hfew
                rcases vs with _ | ⟨b, _ | ⟨a, rest⟩⟩
                · rfl
                · rfl
                · simp only [List.length_cons] at hfew
                  omega
          rw [hcalc]
          exact ⟨e₁, bind_eq_error.mpr (.inl hpop)⟩
      | ok p e₁ =>
          obtain ⟨a, b⟩ := p
          obtain ⟨rest, hs, rfl⟩ := Engine.popPair_eq_ok.mp hpop
          have hstack : e.stack = ⟨b :: a :: rest⟩ := congrArg Stack.mk hs
          have hrun : (Op.binary op).run loc e = _ := bind_of_ok hpop
          rw [hrun, hstack, calculate]
          dsimp only
          cases op.value? a b with
          | some v => exact push_settles v (hkept hs)
          | none => exact ⟨_, rfl⟩
  | _ => cases hop

/-- Running the actions of a constant expression is calculating with them. -/
theorem runEach_settles {acts : List Action} (hacts : ∀ a ∈ acts, a.op.isConstant = true)
    (hne : acts ≠ []) (e : Engine) : Settles (runEach acts e) e (calculateAll acts e.stack) := by
  induction acts generalizing e with
  | nil => exact absurd rfl hne
  | cons a rest ih =>
      obtain ⟨ha, hrest⟩ := List.forall_mem_cons.mp hacts
      have hfirst := Op.run_settles ha a.location e
      obtain ⟨loc, op, x⟩ := a
      rw [runEach, calculateAll]
      show Settles ((EngineM.locating loc (Action.run ⟨loc, op, x⟩) >>= fun _ => runEach rest) e) e _
      dsimp only at hfirst ⊢
      cases hcalc : op.calculate e.stack with
      | error err =>
          rw [hcalc] at hfirst
          obtain ⟨e₁, hrun⟩ := hfirst
          refine ⟨e₁, bind_eq_error.mpr (.inl ?_)⟩
          show EStateM.tryCatch (op.run loc) _ e = _
          unfold EStateM.tryCatch
          rw [hrun]
          rfl
      | ok s =>
          rw [hcalc] at hfirst
          have hrun : EngineM.locating loc (Action.run ⟨loc, op, x⟩) e = _ := locating_eq_ok.mpr hfirst
          rw [bind_of_ok hrun]
          cases rest with
          | nil =>
              rw [runEach]
              rfl
          | cons b rest =>
              -- a constant operation leaves a value, so the stack says that all is settled
              have hs : s.values.isEmpty = false :=
                List.isEmpty_eq_false_iff.mpr (Op.calculate_ne_nil ha hcalc)
              have hlast := ih hrest (List.cons_ne_nil b rest)
                { e with stack := s, unresolved := e.unresolved && !e.stack.values.isEmpty }
              unfold Settles at hlast ⊢
              simpa only [hs, Bool.not_false, Bool.and_true] using hlast

/-! ## On top of other values -/

/-- What is pushed onto a stack can be pushed onto one with more values below,
unless that is full. -/
theorem Stack.push_above {v : Int64} {s s' : Stack} (h : s.push v = .ok s') (below : List Int64) :
    Stack.push v ⟨s.values ++ below⟩ = .ok ⟨s'.values ++ below⟩ ∨
      Stack.push v ⟨s.values ++ below⟩ = .error .stackFull := by
  obtain ⟨-, rfl⟩ := Stack.push_eq_ok.mp h
  by_cases hfull : (s.values ++ below).length = Stack.limit
  · right
    simp only [Stack.push, Stack.depth, hfull, beq_self_eq_true, if_true]
  · exact .inl (Stack.push_eq_ok.mpr ⟨hfull, rfl⟩)

theorem Op.calculate_above {op : Op} {s s' : Stack} (h : op.calculate s = .ok s')
    (below : List Int64) :
    op.calculate ⟨s.values ++ below⟩ = .ok ⟨s'.values ++ below⟩ ∨
      op.calculate ⟨s.values ++ below⟩ = .error .stackFull := by
  obtain ⟨vs⟩ := s
  cases op with
  | load v => exact Stack.push_above h below
  | unary op =>
      cases vs with
      | nil => cases h
      | cons a rest => exact Stack.push_above (s := ⟨rest⟩) h below
  | binary op =>
      rcases vs with _ | ⟨b, _ | ⟨a, rest⟩⟩
      · cases h
      · cases h
      · rw [calculate] at h
        rw [List.cons_append, List.cons_append, calculate]
        cases hv : op.value? a b with
        | none =>
            rw [hv] at h
            cases h
        | some v =>
            rw [hv] at h
            exact Stack.push_above (s := ⟨rest⟩) h below
  | _ =>
      cases h
      exact .inl rfl

/-- What is calculated from some values is calculated on top of others as well,
unless there is no room for it. -/
theorem calculateAll_above {acts : List Action} {s s' : Stack} (h : calculateAll acts s = .ok s')
    (below : List Int64) :
    calculateAll acts ⟨s.values ++ below⟩ = .ok ⟨s'.values ++ below⟩ ∨
      ∃ loc, calculateAll acts ⟨s.values ++ below⟩ = .error (.located loc .stackFull) := by
  induction acts generalizing s with
  | nil =>
      cases h
      exact .inl rfl
  | cons a rest ih =>
      rw [calculateAll] at h ⊢
      cases hcalc : a.op.calculate s with
      | error err =>
          rw [hcalc] at h
          cases h
      | ok s₁ =>
          rw [hcalc] at h
          rcases Op.calculate_above hcalc below with habove | hfull
          · rw [habove]
            exact ih h
          · rw [hfull]
            exact .inr ⟨a.location, rfl⟩

/-! ## Folding -/

theorem Op.isConstant_iff (op : Op) :
    op.isConstant = true ↔ op.kind ∈ [OpKind.load, OpKind.unary, OpKind.binary] := by
  cases op <;> simp [isConstant, kind]

theorem isConstantExpr_iff {expr : List Action} :
    isConstantExpr expr = true ↔ expr ≠ [] ∧ ∀ a ∈ expr, a.op.isConstant = true := by
  simp [isConstantExpr]

/-- A list of actions is not constant just if it is empty or has an action of
another kind. -/
theorem constantValue?_eq_none_iff {expr : List Action} :
    constantValue? expr = .ok none ↔
      expr = [] ∨ ∃ a ∈ expr, a.op.kind ∉ [OpKind.load, OpKind.unary, OpKind.binary] := by
  have hnone : constantValue? expr = .ok none ↔ isConstantExpr expr = false := by
    unfold constantValue?
    split
    · exact iff_of_true rfl rfl
    · cases isConstantExpr _ with
      | false => exact iff_of_true rfl rfl
      | true =>
          simp only [if_true, Bool.true_eq_false, iff_false]
          split
          · rintro ⟨⟩
          · split <;> rintro ⟨⟩
  rw [hnone, Bool.eq_false_iff, ne_eq, isConstantExpr_iff]
  simp only [Op.isConstant_iff]
  by_cases hempty : expr = []
  · simp [hempty]
  · simp only [hempty, not_false_eq_true, true_and, false_or, not_forall, exists_prop, ne_eq]

/-- The value of a constant expression is what is calculated on an empty stack,
if that is a single value. -/
theorem constantValue?_cons {a : Action} {rest : List Action}
    (hacts : ∀ b ∈ a :: rest, b.op.isConstant = true) :
    constantValue? (a :: rest) =
      match calculateAll (a :: rest) {} with
      | .error err => .error err
      | .ok ⟨[v]⟩ => .ok (some v)
      | .ok _ => .error (.located a.location .stackFull) := by
  have hconstant : isConstantExpr (a :: rest) = true :=
    isConstantExpr_iff.mpr ⟨List.cons_ne_nil a rest, hacts⟩
  have hruns := runEach_settles hacts (List.cons_ne_nil a rest) {}
  have hempty : ({} : Engine).stack = {} := rfl
  rw [hempty] at hruns
  unfold constantValue? evaluate
  simp only [hconstant, if_true]
  cases hcalc : calculateAll (a :: rest) {} with
  | error err =>
      rw [hcalc] at hruns
      obtain ⟨e', hruns⟩ := hruns
      have hbind : (runEach (a :: rest) >>= fun _ => Engine.pop) {} = .error err e' :=
        bind_eq_error.mpr (.inl hruns)
      rw [hbind]
  | ok s =>
      rw [hcalc] at hruns
      rw [bind_of_ok hruns]
      obtain ⟨_ | ⟨v, _ | ⟨w, vs⟩⟩⟩ := s
      · exact absurd rfl (calculateAll_ne_nil hacts (List.cons_ne_nil a rest) hcalc)
      · rfl
      · rfl

/-- The value of a constant expression is calculated on an empty stack, by
actions of which the first is a load. -/
theorem calculateAll_of_constantValue {expr : List Action} {v : Int64}
    (h : constantValue? expr = .ok (some v)) :
    ∃ a w rest, expr = a :: rest ∧ a.op = .load w ∧ (∀ b ∈ a :: rest, b.op.isConstant = true) ∧
      calculateAll (a :: rest) {} = .ok ⟨[v]⟩ := by
  obtain ⟨hne, hacts, -⟩ := constantValue?_eq_some h
  obtain ⟨a, rest, rfl⟩ := List.exists_cons_of_ne_nil hne
  have hvalue : calculateAll (a :: rest) {} = .ok ⟨[v]⟩ := by
    rw [constantValue?_cons hacts] at h
    split at h <;> cases h
    assumption
  have hfirst : ∃ s, a.op.calculate {} = .ok s := by
    rw [calculateAll] at hvalue
    cases hcalc : a.op.calculate {} with
    | ok s => exact ⟨s, rfl⟩
    | error err =>
        rw [hcalc] at hvalue
        cases hvalue
  obtain ⟨s, hfirst⟩ := hfirst
  obtain ⟨w, hw⟩ := Op.eq_load_of_calculate (hacts a List.mem_cons_self) hfirst
  exact ⟨a, w, rest, rfl, hw, hacts, hvalue⟩

/-- A constant expression that can be folded has a value. -/
theorem exists_value_of_foldConstant {expr folded : List Action}
    (hconstant : isConstantExpr expr = true) (h : foldConstant expr = .ok folded) :
    ∃ v, constantValue? expr = .ok (some v) := by
  obtain ⟨hne, hacts⟩ := isConstantExpr_iff.mp hconstant
  cases hvalue : constantValue? expr with
  | ok value =>
      cases value with
      | some v => exact ⟨v, rfl⟩
      | none =>
          obtain hempty | ⟨a, ha, hkind⟩ := constantValue?_eq_none_iff.mp hvalue
          · exact absurd hempty hne
          · exact absurd ((Op.isConstant_iff _).mp (hacts a ha)) hkind
  | error err =>
      obtain ⟨a, rest, rfl⟩ := List.exists_cons_of_ne_nil hne
      rw [foldConstant, hvalue] at h
      cases h

theorem isConstant_load (loc : Location) (v : Int64) :
    ∀ a ∈ [Action.load loc v], a.op.isConstant = true := by
  intro a ha
  rw [List.mem_singleton.mp ha]
  rfl

theorem calculateAll_load {loc : Location} {v : Int64} {s s' : Stack} (h : s.push v = .ok s') :
    calculateAll [Action.load loc v] s = .ok s' := by
  have hpush : (Action.load loc v).op.calculate s = .ok s' := h
  rw [calculateAll, hpush]
  rfl

/-- Where there is room for a constant expression, there is for its value, and
running either pushes that. -/
theorem runEach_of_constantValue (loc : Location) {expr : List Action} {v : Int64}
    (h : constantValue? expr = .ok (some v)) {e : Engine}
    (hroom : ∀ err e', runEach expr e = .error err e' → ¬ err.Is .stackFull) :
    ∃ e', runEach expr e = .ok () e' ∧ runEach [Action.load loc v] e = .ok () e' := by
  obtain ⟨a, w, rest, rfl, hw, hacts, hvalue⟩ := calculateAll_of_constantValue h
  have hruns := runEach_settles hacts (List.cons_ne_nil a rest) e
  rcases calculateAll_above hvalue e.stack.values with habove | ⟨loc', hfull⟩
  · have habove : calculateAll (a :: rest) e.stack = .ok ⟨v :: e.stack.values⟩ := habove
    -- the first of the actions is a load already, and found room
    have hdepth : e.stack.depth ≠ Stack.limit := by
      intro hfull
      rw [calculateAll, hw] at habove
      have hpush : (Op.load w).calculate e.stack = .error .stackFull := by
        show Stack.push w e.stack = _
        simp only [Stack.push, hfull, beq_self_eq_true, if_true]
      rw [hpush] at habove
      cases habove
    have hload : calculateAll [Action.load loc v] e.stack = .ok ⟨v :: e.stack.values⟩ :=
      calculateAll_load (Stack.push_eq_ok.mpr ⟨hdepth, rfl⟩)
    have hruns' := runEach_settles (isConstant_load loc v) (List.cons_ne_nil _ _) e
    rw [habove] at hruns
    rw [hload] at hruns'
    exact ⟨_, hruns, hruns'⟩
  · have hfull : calculateAll (a :: rest) e.stack = .error (.located loc' .stackFull) := hfull
    rw [hfull] at hruns
    obtain ⟨e', hruns⟩ := hruns
    exact absurd (List.mem_cons_of_mem _ List.mem_cons_self) (hroom _ e' hruns)

/-- Whatever a constant expression cannot be folded for goes wrong where it is
run on an empty stack, too: it fails in the same way, or leaves more than one
value behind. -/
theorem runEach_of_constantValue_error {expr : List Action} {err : Error}
    (h : constantValue? expr = .error err) {e : Engine} (he : e.stack.values = []) :
    (∃ e', runEach expr e = .error err e') ∨
      ∃ a rest e', expr = a :: rest ∧ err = .located a.location .stackFull ∧
        runEach expr e = .ok () e' ∧ 1 < e'.stack.depth := by
  cases expr with
  | nil => cases h
  | cons a rest =>
      have hacts : ∀ b ∈ a :: rest, b.op.isConstant = true := by
        by_contra hnot
        have hconstant : isConstantExpr (a :: rest) = false :=
          Bool.eq_false_iff.mpr fun hall => hnot (isConstantExpr_iff.mp hall).2
        unfold constantValue? at h
        simp [hconstant] at h
      have hstack : e.stack = {} := congrArg Stack.mk he
      -- the calculation on an empty stack is what running does on this one
      have hruns := runEach_settles hacts (List.cons_ne_nil a rest) e
      rw [hstack] at hruns
      rw [constantValue?_cons hacts] at h
      split at h
      · rename_i hcalc
        cases h
        rw [hcalc] at hruns
        exact .inl hruns
      · cases h
      · rename_i s hmany hcalc
        cases h
        rw [hcalc] at hruns
        refine .inr ⟨a, rest, _, rfl, rfl, hruns, ?_⟩
        obtain ⟨_ | ⟨v, _ | ⟨w, vs⟩⟩⟩ := s
        · exact absurd rfl (calculateAll_ne_nil hacts (List.cons_ne_nil a rest) hcalc)
        · exact absurd rfl (hmany v)
        · exact Nat.succ_lt_succ (Nat.succ_pos _)

theorem foldConstant_load (loc : Location) (v : Int64) :
    foldConstant [Action.load loc v] = .ok [Action.load loc v] := by
  have hvalue : constantValue? [Action.load loc v] = .ok (some v) := by
    rw [constantValue?_cons (isConstant_load loc v),
      calculateAll_load (Stack.push_eq_ok.mpr ⟨by decide, rfl⟩)]
  rw [foldConstant, hvalue]
  rfl

/-- Folding constants is faithful, for every list of actions.  One is not
constant just if it is empty or has an action other than loads and operators.
Wherever it can be folded, and running it does not overflow the stack, the
folded actions leave the very same engine; and constant ones do succeed there.
Where folding fails, running on an empty stack fails with the same error, or
leaves more than one value behind.  What is folded stays so. -/
theorem foldConstant_faithful (expr : List Action) :
    (constantValue? expr = .ok none ↔
        expr = [] ∨ ∃ a ∈ expr, a.op.kind ∉ [OpKind.load, OpKind.unary, OpKind.binary]) ∧
      (∀ folded, foldConstant expr = .ok folded → ∀ e : Engine,
        (∀ err e', runEach expr e = .error err e' → ¬ err.Is .stackFull) →
          runEach folded e = runEach expr e ∧
            (isConstantExpr expr = true → ∃ e', runEach expr e = .ok () e')) ∧
      (∀ err, constantValue? expr = .error err → ∀ e : Engine, e.stack.values = [] →
        (∃ e', runEach expr e = .error err e') ∨
          ∃ a rest e', expr = a :: rest ∧ err = .located a.location .stackFull ∧
            runEach expr e = .ok () e' ∧ 1 < e'.stack.depth) ∧
      ∀ folded, foldConstant expr = .ok folded → foldConstant folded = .ok folded := by
  refine ⟨constantValue?_eq_none_iff, fun folded h e hroom => ?_,
    fun err h e he => runEach_of_constantValue_error h he, fun folded h => ?_⟩
  · rcases foldConstant_eq_ok h with rfl | ⟨loc, v, rfl, hvalue⟩
    · refine ⟨rfl, fun hconstant => ?_⟩
      obtain ⟨v, hvalue⟩ := exists_value_of_foldConstant hconstant h
      obtain ⟨e', hruns, -⟩ := runEach_of_constantValue {} hvalue hroom
      exact ⟨e', hruns⟩
    · obtain ⟨e', hruns, hload⟩ := runEach_of_constantValue loc hvalue hroom
      exact ⟨hload.trans hruns.symm, fun _ => ⟨e', hruns⟩⟩
  · rcases foldConstant_eq_ok h with rfl | ⟨loc, v, rfl, -⟩
    · exact h
    · exact foldConstant_load loc v

/-- Six times seven, in postfix order. -/
def product : List Action :=
  [Action.load ⟨"m", 1⟩ 6, Action.load ⟨"m", 1⟩ 7, Action.plain ⟨"m", 1⟩ (.binary .mul)]

/-- An engine in the middle of an expression that read a symbol without a value. -/
def midway : Engine := { stack := ⟨[1]⟩, unresolved := true }

theorem foldConstant_faithful_product :
    foldConstant product = .ok [Action.load ⟨"m", 1⟩ 42] ∧
      (∀ err e', runEach product midway = .error err e' → ¬ err.Is .stackFull) ∧
      runEach [Action.load ⟨"m", 1⟩ 42] midway = runEach product midway ∧
      ∃ e', runEach product midway = .ok () e' := by
  have hfold : foldConstant product = .ok [Action.load ⟨"m", 1⟩ 42] := by
    cbv
  have hrun : isOkWith (fun _ _ => true) (runEach product midway) = true := by
    decide +kernel
  have hroom : ∀ err e', runEach product midway = .error err e' → ¬ err.Is .stackFull := by
    intro err e' h
    rw [h] at hrun
    cases hrun
  obtain ⟨hsame, hok⟩ := (foldConstant_faithful product).2.1 _ hfold midway hroom
  exact ⟨hfold, hroom, hsame, hok rfl⟩

end Mos6510
