import Mos6510.Proofs.Internal
import Mos6510.Proofs.Nesting

/-!
# The stack from statement to statement

A clause finds the stack empty and leaves it empty, and jumps lead to where a
clause starts.  So wherever a pass stands in the code, the stack holds what the
clause there has computed so far, and nothing else (`Code.stands_of_visits`).

* `Assembler.stack_discipline`: what this means for programs that are read from
  source text;
* `Assembler.skippedSource_overflows`: the length of a part of a binary file has
  one slot less than other expressions.
-/

namespace Mos6510

open Outcome EngineM

/-! ## Clauses in code -/

/-- The actions do not end within an expression. -/
def EndsClause (acts : List Action) : Prop := ∀ a ∈ acts.getLast?, a.op.computes = false

theorem EndsClause.of_append {as bs : List Action} (h : EndsClause (as ++ bs)) : EndsClause bs := by
  intro a ha
  refine h a ?_
  rw [List.getLast?_append, ha]
  rfl

theorem EndsClause.snoc {as : List Action} {a : Action} (h : EndsClause (as ++ [a])) :
    a.op.computes = false :=
  h a List.getLast?_concat

/-- The action of a statement computes no value. -/
theorem Statement.Lowers.op_computes {loc : Location} {stmt : Statement} {e : List Action} {op : Op}
    (h : stmt.Lowers loc e op) : op.computes = false := by
  cases h with
  | instruction _ hop => cases hop <;> rfl
  | _ => rfl

namespace Builder

theorem Adds.exists_last {loc : Location} {ids ids' : Ids} {stmt : Statement} {acts : List Action}
    {blocks blocks' : List Block} (h : Adds loc ids stmt blocks acts ids' blocks') :
    ∃ init a, acts = init ++ [a] ∧ a.op.computes = false := by
  cases h with
  | simple h => exact ⟨_, _, rfl, h.op_computes⟩
  | otherwise => exact ⟨[_], _, rfl, rfl⟩
  | openRepeat => exact ⟨_, _, (List.append_assoc _ [_, _] [_]).symm, rfl⟩
  | closeRepeat => exact ⟨[_], _, rfl, rfl⟩
  | closeWhile => exact ⟨[_], _, rfl, rfl⟩
  | _ => exact ⟨_, _, rfl, rfl⟩

/-- Where a statement is lowered, the actions put together so far end a clause. -/
theorem issue_endsClause {loc : Location} {stmt : Statement} {b b' : Builder} {u : Unit}
    (h : issue loc stmt b = .ok u b') : EndsClause b'.actions.toList := by
  have hsnoc : ∀ {as : List Action} {a : Action}, a.op.computes = false → EndsClause (as ++ [a]) := by
    intro as a ha b hb
    rw [List.getLast?_concat] at hb
    obtain rfl := Option.some.inj hb
    exact ha
  cases Issued.of_issue h with
  | adds hadds =>
      obtain ⟨init, a, rfl, ha⟩ := hadds.exists_last
      rw [Array.toList_appendList, ← List.append_assoc]
      exact hsnoc ha
  | openMacro => exact fun _ h => absurd h nofun
  | closeMacro =>
      rw [Array.toList_appendList]
      exact hsnoc rfl

end Builder

/-- The actions of some clauses, such as are prepared for execution. -/
abbrev SettledClauses : List Action → Prop := InClauses IsEval fun a => a.op.Settled

theorem Code.isTarget_of_computes {a : Action} (h : a.op.computes = true) : isTarget a = false := by
  obtain ⟨loc, op, x⟩ := a
  cases op with
  | target => cases h
  | _ => rfl

namespace Clause.Fits

variable {c : Clause} (h : c.Fits IsEval fun a => a.op.Settled)

include h

theorem computes : Computes c.exprs.flatten := by
  intro a ha
  obtain ⟨e, he, ha⟩ := List.mem_flatten.mp ha
  exact (h.exprs e he).computes a ha

/-- Jump targets are clauses of their own. -/
theorem strip_actions : SettledClauses (Code.strip c.actions) := by
  have hexprs : Code.strip c.exprs.flatten = c.exprs.flatten := by
    rw [Code.strip_eq_filter, List.filter_eq_self]
    intro a ha
    rw [Code.isTarget_of_computes (h.computes a ha)]
    rfl
  rw [Clause.actions, Code.strip_append, hexprs]
  cases htarget : Code.isTarget c.action with
  | true =>
      have hnone : c.exprs = [] := by
        obtain ⟨j, hop⟩ := Code.exists_target htarget
        exact h.exprs_eq_nil (by rw [hop]; rfl)
      rw [hnone, Code.strip_eq_filter, List.filter_cons_of_neg (by simp [htarget])]
      exact .nil
  | false =>
      rw [Code.strip_cons htarget, Code.strip_nil]
      exact .single h

end Clause.Fits

namespace SettledClauses

theorem strip {acts : List Action} (h : SettledClauses acts) : SettledClauses (Code.strip acts) := by
  obtain ⟨cs, rfl, hcs⟩ := h
  induction cs with
  | nil => exact .nil
  | cons c rest ih =>
      obtain ⟨hc, hrest⟩ := List.forall_mem_cons.mp hcs
      rw [List.flatMap_cons, Code.strip_append]
      exact hc.strip_actions.append (ih hrest)

/-- What follows the end of a clause are clauses. -/
theorem of_append {before k : List Action} (h : SettledClauses (before ++ k))
    (hends : EndsClause before) : SettledClauses k := by
  obtain ⟨cs, heq, hcs⟩ := h
  induction cs generalizing before with
  | nil =>
      rw [(List.append_eq_nil_iff.mp heq).2]
      exact .nil
  | cons c rest ih =>
      obtain ⟨hc, hrest⟩ := List.forall_mem_cons.mp hcs
      rw [List.flatMap_cons] at heq
      rcases List.append_eq_append_iff.mp heq with ⟨t, hcut, rfl⟩ | ⟨t, rfl, htail⟩
      · have hlater : SettledClauses (rest.flatMap Clause.actions) := ⟨rest, rfl, hrest⟩
        refine InClauses.append ?_ hlater
        rcases List.eq_nil_or_concat' before with rfl | ⟨earlier, a, rfl⟩
        · rw [← List.nil_append t, ← hcut]
          exact .single hc
        · -- a cut within the clause would stand behind an action of an expression
          rcases List.eq_nil_or_concat' t with rfl | ⟨t, b, rfl⟩
          · exact .nil
          · rw [Clause.actions, ← List.append_assoc] at hcut
            have hexprs := List.append_inj_left' hcut rfl
            have hcomputes := hc.computes a (by rw [hexprs]; simp)
            rw [hends.snoc] at hcomputes
            cases hcomputes
      · exact ih hends.of_append htail.symm hrest

end SettledClauses

namespace Code

variable {seq : List Action} {code : Code} (hcode : ofActions seq = .ok code)
  (hseq : SettledClauses seq)

include hcode hseq

theorem clauses_of_ofActions : SettledClauses code.actions := by
  rw [(ofActions_eq_ok hcode).2.1]
  exact hseq.strip

/-- Jumps lead to where a clause starts. -/
theorem clauses_of_target? {j : Int} {k : List Action} (hj : code.target? j = some k) :
    SettledClauses k := by
  obtain ⟨i, -, hmem⟩ := mem_marks_of_target? hcode hj
  obtain ⟨before, a, after, rfl, ha, hafter⟩ := exists_target_of_mem_marks hmem
  rw [show k = strip after from hafter]
  have hcut : SettledClauses ((before ++ [a]) ++ after) := by simpa using hseq
  refine (hcut.of_append ?_).strip
  intro b hb
  rw [List.getLast?_concat] at hb
  obtain rfl := Option.some.inj hb
  obtain ⟨i, hop⟩ := exists_target ha
  rw [hop]
  rfl

end Code

/-! ## Where a pass stands -/

namespace Code

section

variable (code : Code) (pass : Pass) (e : Engine)

/-- A pass stands at some actions with an engine: at the end, or within a clause
that it has started on an empty stack. -/
inductive Stands (n : Nat) (k : List Action) (d : Engine) : Prop
  | finished : k = [] → d.stack.values = [] → Stands n k d
  | within {c : Clause} {begun left rest : List Action} {d₀ : Engine} :
      c.Fits IsEval (fun a => a.op.Settled) → c.exprs.flatten = begun ++ left →
        k = left ++ c.action :: rest → SettledClauses rest →
        code.Visits pass e n (c.actions ++ rest) d₀ → d₀.stack.values = [] →
        performAll begun d₀ = .ok () d → Stands n k d

end

variable {seq : List Action} {code : Code} {pass : Pass} {e d d' : Engine} {n : Nat}
  {k l : List Action} {a : Action}

/-- Where a clause starts. -/
theorem Stands.of_clauses (hk : SettledClauses k) (hvisits : code.Visits pass e n k d)
    (hempty : d.stack.values = []) : code.Stands pass e n k d := by
  obtain ⟨cs, rfl, hcs⟩ := hk
  cases cs with
  | nil => exact .finished rfl hempty
  | cons c rest =>
      obtain ⟨hc, hrest⟩ := List.forall_mem_cons.mp hcs
      rw [List.flatMap_cons] at hvisits
      refine .within hc (List.nil_append _).symm ?_ ⟨rest, rfl, hrest⟩ hvisits hempty rfl
      rw [List.flatMap_cons, Clause.actions, List.append_assoc, List.singleton_append]

/-- An action that computes a value is one more of its clause. -/
theorem Stands.next (h : code.Stands pass e n (a :: l) d) (hop : a.op.computes = true)
    (hrun : a.run (d.atAction a) = .ok () d') : code.Stands pass e n l d' := by
  cases h with
  | finished hk => cases hk
  | @within c begun left rest d₀ hc hflat hk hrest hvisits hempty hbegun =>
      cases left with
      | nil =>
          obtain ⟨rfl, -⟩ := List.cons.inj hk
          rw [hc.action.acts] at hop
          cases hop
      | cons b left =>
          obtain ⟨rfl, rfl⟩ := List.cons.inj hk
          refine .within hc ?_ rfl hrest hvisits hempty (performAll_snoc.mpr ⟨d, hbegun, hrun⟩)
          rw [hflat, List.append_assoc, List.singleton_append]

/-- Any other action ends its clause, and finds on the stack what it takes. -/
theorem Stands.last (h : code.Stands pass e n (a :: l) d) (hop : a.op.computes = false) :
    ∃ (c : Clause) (d₀ : Engine), c.Fits IsEval (fun a => a.op.Settled) ∧ c.action = a ∧ SettledClauses l ∧
      code.Visits pass e n (c.actions ++ l) d₀ ∧ d₀.stack.values = [] ∧
      performAll c.exprs.flatten d₀ = .ok () d ∧ d.stack.values.length = a.op.operands := by
  cases h with
  | finished hk => cases hk
  | @within c begun left rest d₀ hc hflat hk hrest hvisits hempty hbegun =>
      cases left with
      | nil =>
          obtain ⟨rfl, rfl⟩ := List.cons.inj hk
          rw [List.append_nil] at hflat
          rw [← hflat] at hbegun
          -- everything before the last action is run, so its operands are on the stack
          have hdepth := performAll_depth hc.computes hbegun
          rw [depth_flatten hc.exprs, hempty, List.length_nil, Nat.zero_add, hc.count] at hdepth
          exact ⟨c, d₀, hc, rfl, hrest, hvisits, hempty, hbegun, hdepth⟩
      | cons b left =>
          obtain ⟨rfl, rfl⟩ := List.cons.inj hk
          have hcomputes := hc.computes a (by rw [hflat]; simp)
          rw [hop] at hcomputes
          cases hcomputes

/-- Then the stack is empty again. -/
theorem Stands.empty (h : code.Stands pass e n (a :: l) d) (hop : a.op.computes = false)
    (hrun : a.run (d.atAction a) = .ok () d') : SettledClauses l ∧ d'.stack.values = [] := by
  obtain ⟨c, d₀, hc, rfl, hl, -, -, -, hdepth⟩ := h.last hop
  refine ⟨hl, ?_⟩
  rw [Action.run_operands hc.action.args hop hrun]
  exact List.drop_eq_nil_of_le hdepth.le

section

variable (hcode : ofActions seq = .ok code) (hseq : SettledClauses seq)

include hcode hseq

/-- Every pass always stands so. -/
theorem stands_of_visits (h : code.Visits pass e n k d) : code.Stands pass e n k d := by
  induction h with
  | start => exact .of_clauses (clauses_of_ofActions hcode hseq) .start rfl
  | @next m a l d d' hvisits hrun hj ih =>
      cases hop : a.op.computes with
      | true => exact ih.next hop hrun
      | false =>
          obtain ⟨hl, hempty⟩ := ih.empty hop hrun
          exact .of_clauses hl (.next hvisits hrun hj) hempty
  | @jump m a j l l' d d' hvisits hrun hj ht ih =>
      have hspeaks := speaks_of_clauses hseq a (mem_of_visits hcode hvisits).1
      -- no jump waits when an action is entered, so the one taken is its own
      have hpending : d.jump = none := jump_of_visits hvisits
      have hown : a.op.jump? = some j := Action.run_jump hspeaks hrun hpending hj
      have hop : a.op.computes = false := by
        cases hcomputes : a.op with
        | load | get | unary | binary =>
            rw [hcomputes] at hown
            cases hown
        | _ => rfl
      have hempty := (ih.empty hop hrun).2
      exact .of_clauses (clauses_of_target? hcode hseq ht) (.jump hvisits hrun hj ht) hempty

/-- Behind the end of a clause the stack is empty. -/
theorem empty_of_visits {before : List Action} (hplace : code.actions = before ++ k)
    (hends : EndsClause before) (h : code.Visits pass e n k d) : d.stack.values = [] := by
  cases stands_of_visits hcode hseq h with
  | finished _ hempty => exact hempty
  | @within c begun left rest d₀ hc hflat hk hrest hvisits hempty hbegun =>
      rcases List.eq_nil_or_concat' begun with rfl | ⟨begun, a, rfl⟩
      · obtain ⟨-, rfl⟩ := pure_eq_ok.mp hbegun
        exact hempty
      · -- else an action of an expression would stand right before
        obtain ⟨earlier, hearlier⟩ := suffix_of_visits hcode hvisits
        rw [Clause.actions, hflat, List.append_assoc, List.append_assoc, List.singleton_append, ← hk,
          hplace, ← List.append_assoc] at hearlier
        have hbefore := List.append_cancel_right hearlier
        rw [← hbefore] at hends
        have hcomputes := hc.computes a (by rw [hflat]; simp)
        rw [← List.append_assoc] at hends
        rw [hends.snoc] at hcomputes
        cases hcomputes

/-! ## Where the stack is too small -/

omit hcode hseq

/-- At a place in the code an expression is under way, whose value an action
takes together with those of other expressions: some have theirs on the stack
already, below it, and some come after it. -/
def Underway (code : Code) (k : List Action) (lower : List (List Action)) (x : Expr)
    (a : Action) : Prop :=
  ∃ before begun left upper rest,
    code.actions = before ++ (lower ++ (begun ++ left) :: upper).flatten ++ a :: rest ∧
      k = left ++ upper.flatten ++ a :: rest ∧ left ≠ [] ∧
      (begun ++ left).map Action.op = x.actions.map Action.op ∧
      (∀ e ∈ lower ++ upper, IsEval e) ∧ lower.length + 1 + upper.length = a.op.operands

/-- At a place in the code the stack can be too small. -/
inductive Overfull (code : Code) : List Action → Prop
  /-- An expression needs more slots than the stack has. -/
  | operand {k : List Action} {lower : List (List Action)} {x : Expr} {a : Action} :
      code.Underway k lower x a → Stack.limit < x.slots → Overfull code k
  /-- So does an argument of a message. -/
  | argument {a : Action} {l : List Action} {level : Level} {formatted : Bool}
      {args : List (List Action)} {x : Expr} :
      a.op = .message level formatted args → x.actions ∈ args → Stack.limit < x.slots →
        Overfull code (a :: l)
  /-- The length of a part of a binary file needs all of them, and one is taken
  by the skip. -/
  | length {k : List Action} {skip : List Action} {x : Expr} {a : Action} {name : String}
      {bytes : List UInt8} :
      code.Underway k [skip] x a → a.op = .bytes name bytes → x.slots = Stack.limit →
        Overfull code k

/-- A pass fails with the error at such a place. -/
def Overflows (code : Code) (pass : Pass) (e : Engine) (err : Error) : Prop :=
  ∃ n a l d, code.Visits pass e n (a :: l) d ∧ code.FailsAt a d err ∧ code.Overfull (a :: l)

/-- An action of an expression, within its clause. -/
theorem Underway.of_clause {c : Clause} (hc : c.Fits IsEval fun a => a.op.Settled)
    {before rest : List Action} (hplace : code.actions = before ++ (c.actions ++ rest))
    {left begun later : List Action} {lower upper : List (List Action)} {x : Expr}
    (hexprs : c.exprs = lower ++ (begun ++ a :: later) :: upper)
    (hflat : c.exprs.flatten = lower.flatten ++ begun ++ a :: left)
    (hops : (begun ++ a :: later).map Action.op = x.actions.map Action.op) :
    code.Underway (a :: left ++ c.action :: rest) lower x c.action := by
  -- what is left of the clause is the rest of this expression and those above it
  have hleft : later ++ upper.flatten = left := by
    rw [hexprs, List.flatten_append, List.flatten_cons, List.append_assoc, List.append_assoc,
      List.append_cancel_left_eq, List.append_cancel_left_eq] at hflat
    exact (List.cons.inj hflat).2
  refine ⟨before, begun, a :: later, upper, rest, ?_, ?_, List.cons_ne_nil a later, hops, ?_, ?_⟩
  · rw [hplace, Clause.actions, hexprs, List.append_assoc, List.append_assoc, List.singleton_append]
  · rw [← hleft, List.cons_append, List.cons_append, List.cons_append]
  · intro e he
    refine hc.exprs e ?_
    rw [hexprs]
    exact (List.mem_append.mp he).elim (List.mem_append_left _)
      fun he => List.mem_append_right _ (List.mem_cons_of_mem _ he)
  · rw [← hc.count, hexprs, List.length_append, List.length_cons]
    omega

/-- There is room for all expressions but those, next to the values below. -/
theorem Underway.overfull {lower : List (List Action)} {x : Expr} (h : code.Underway k lower x a)
    (hneed : Stack.limit < lower.length + x.slots) : code.Overfull k := by
  by_cases hslots : Stack.limit < x.slots
  · exact .operand h hslots
  · have ⟨_, _, _, upper, _, _, _, _, _, _, hcount⟩ := h
    have htwo : 1 < a.op.operands := by omega
    obtain ⟨hoperands, name, bytes, hop⟩ := Op.exists_bytes_of_operands htwo
    have hone : lower.length = 1 := by omega
    obtain ⟨skip, rfl⟩ := List.length_eq_one_iff.mp hone
    exact .length h hop (by omega)

end

section

variable (hcode : ofActions seq = .ok code) (hseq : SettledClauses seq)

include hcode hseq

/-- Actions fail for want of room only at such places, and never because there
is nothing on the stack. -/
theorem run_fullOnlyIf (hvisits : code.Visits pass e n (a :: l) d) {err : Error}
    (hrun : a.run (d.atAction a) = .error err d') : err.FullOnlyIf (code.Overfull (a :: l)) := by
  have hstands := stands_of_visits hcode hseq hvisits
  cases hop : a.op.computes with
  | true =>
      cases hstands with
      | finished hk => cases hk
      | @within c begun left rest d₀ hc hflat hk hrest hfirst hempty hbegun =>
          cases left with
          | nil =>
              obtain ⟨rfl, -⟩ := List.cons.inj hk
              rw [hc.action.acts] at hop
              cases hop
          | cons b left =>
              obtain ⟨rfl, rfl⟩ := List.cons.inj hk
              obtain ⟨before, hbefore⟩ := suffix_of_visits hcode hfirst
              have hcomputes : Computes begun := fun b hb =>
                hc.computes b (by rw [hflat]; exact List.mem_append_left _ hb)
              have hdepth := performAll_depth hcomputes hbegun
              rw [hempty, List.length_nil] at hdepth
              obtain ⟨htakes, lower, first, later, upper, x, hexprs, rfl, hops, hroom⟩ :=
                depth_within hc.exprs hflat 0
              -- the expression that the action belongs to is the one under way
              have hunderway := Underway.of_clause hc hbefore.symm hexprs hflat hops
              have hstack : (d.atAction a).stack.values.length = d.stack.values.length := rfl
              have hfails := Action.run_fails (Op.isMessage_of_computes hop) hrun
              refine (hfails.overflow (by omega)).imp fun hfull => hunderway.overfull ?_
              omega
  | false =>
      obtain ⟨c, d₀, hc, rfl, -, -, -, -, hdepth⟩ := hstands.last hop
      have hstack : (d.atAction c.action).stack.values.length = d.stack.values.length := rfl
      cases hmsg : c.action.op.isMessage with
      | true =>
          obtain ⟨exprs, loc, op, m⟩ := c
          cases op with
          | message level formatted args =>
              have hargs := hc.action.args level formatted args rfl
              refine (Op.message_overflow hargs hrun).imp fun ⟨x, hx, hneed⟩ => ?_
              rw [hstack, hdepth] at hneed
              exact .argument rfl hx (by simpa [Op.operands] using hneed)
          | _ => cases hmsg
      | false =>
          -- the depth fits what the action takes, so only a computing one could overflow
          have htakes := Op.takes_eq_operands hop
          refine ((Action.run_fails hmsg hrun).overflow (by omega)).imp fun hcomputes => ?_
          rw [hop] at hcomputes
          cases hcomputes.1

/-- A pass fails for want of room only at such places. -/
theorem runPass_fullOnlyIf {verbose : Bool} {e' : Engine} {err : Error}
    (h : Assembler.runPass verbose code pass e = .error err e') :
    err.FullOnlyIf (code.Overflows pass e err) := by
  obtain ⟨n, a, l, d, hvisits, hfails⟩ := runFrom_eq_error (Assembler.runPass_eq_error h)
  have hneed : err.FullOnlyIf (code.Overfull (a :: l)) := by
    cases hfails with
    | run hrun => exact (run_fullOnlyIf hcode hseq hvisits hrun).atAction a
    | @jump j =>
        have hunknown : (Error.unknownJump j).FullOnlyIf (code.Overfull (a :: l)) :=
          .of_single rfl nofun nofun
        exact hunknown.atAction a
    | limit =>
        have hlimit : Error.loopLimit.FullOnlyIf (code.Overfull (a :: l)) :=
          .of_single rfl nofun nofun
        exact hlimit.atAction a
  exact hneed.imp fun hover => ⟨n, a, l, d, hvisits, hfails, hover⟩

/-! ## Branches -/

/-- When a branch is run, the engine notes that a symbol has no value if its own
operand reads one, and only then. -/
theorem branch_unresolved_iff (hvisits : code.Visits pass e n (a :: l) d)
    (hbranch : a.op.isBranch = true) :
    ∃ operand d₀, IsEval operand ∧ code.Visits pass e n (operand ++ a :: l) d₀ ∧
      d₀.stack.values = [] ∧ performAll operand d₀ = .ok () d ∧
      (d.unresolved = true ↔ ∃ b ∈ operand, ∃ name, b.op = .get name ∧ d₀.Lacks name) := by
  have hop : a.op.computes = false := by
    cases hcomputes : a.op with
    | load | get | unary | binary =>
        rw [hcomputes] at hbranch
        cases hbranch
    | _ => rfl
  -- a branch has one operand, so its clause is that one expression
  have hone : a.op.operands = 1 := by
    cases hinstruction : a.op with
    | instruction code =>
        rw [hinstruction] at hbranch
        have hmode : (Opcode.ofCode code).mode = .relative := beq_iff_eq.mp hbranch
        rw [Op.operands, hmode]
        rfl
    | _ =>
        rw [hinstruction] at hbranch
        cases hbranch
  obtain ⟨c, d₀, hc, rfl, -, hfirst, hempty, hexprs, -⟩ :=
    (stands_of_visits hcode hseq hvisits).last hop
  obtain ⟨operand, hoperand⟩ := List.length_eq_one_iff.mp (hc.count.trans hone)
  rw [hoperand, List.flatten_singleton] at hexprs
  have heval : IsEval operand := hc.exprs operand (by simp [hoperand])
  refine ⟨operand, d₀, heval, ?_, hempty, hexprs, ?_⟩
  · rwa [Clause.actions, hoperand, List.flatten_singleton, List.append_assoc,
      List.singleton_append] at hfirst
  · obtain ⟨x, hx⟩ := heval
    have hne : operand ≠ [] := by
      rintro rfl
      have hnone := x.depth_actions 0
      rw [← hx] at hnone
      cases hnone
    exact unresolved_iff hne ⟨[], by rw [hx, List.append_nil]⟩ hempty hexprs

end

end Code

/-! ## Programs -/

/-- The stages before execution have nothing to do with the stack. -/
theorem Error.fullOnlyIf_early (need : Prop) : Early fun err => err.FullOnlyIf need where
  raised err h := by
    have hchain : err.chain = [err] := by cases err <;> first | rfl | cases h
    refine .of_single hchain ?_ ?_ <;> rintro rfl <;> cases h
  located loc err h := h.atLocation loc
  atAction a err h := h.atAction a

/-- What holds of the stack in every pass over the code. -/
structure Code.Disciplined (code : Code) (pass : Pass) (e : Engine) : Prop where
  /-- It is empty wherever the actions before end a clause. -/
  empty : ∀ before k, code.actions = before ++ k → EndsClause before →
    ∀ n d, code.Visits pass e n k d → d.stack.values = []
  /-- It never holds too few values, and too many only where it is too small. -/
  fails : ∀ verbose err e', Assembler.runPass verbose code pass e = .error err e' →
    err.FullOnlyIf (code.Overflows pass e err)
  /-- A branch is run on its own operand alone, and the engine notes then that a
  symbol has no value if this operand reads one, and only then. -/
  branches : ∀ n a l d, code.Visits pass e n (a :: l) d → a.op.isBranch = true →
    ∃ operand d₀, IsEval operand ∧ code.Visits pass e n (operand ++ a :: l) d₀ ∧
      d₀.stack.values = [] ∧ performAll operand d₀ = .ok () d ∧
      (d.unresolved = true ↔ ∃ b ∈ operand, ∃ name, b.op = .get name ∧ d₀.Lacks name)

namespace Assembler

/-- The stack is empty between statements.  What a statement is lowered to ends
a clause; and in every pass over a program that is read from source text, on
every path that its jumps take, the stack is empty behind the end of a clause.
So no pass finds too few values on it, it is too small only for an expression
that needs more slots than it has, or for the length of a part of a binary file
that needs all of them; and a branch is taken for unresolved exactly where its
own operand reads a symbol without a value. -/
theorem stack_discipline (asm : Assembler) (r : Reader) (file : String) (text : List Text.Glyph)
    (actions : List Action) (t t' s : Session) (hmain : r.actions file text t = .ok actions t')
    (hinc : ∀ inc, asm.includer = some inc → inc.Lowered) :
    (∀ loc stmt b b', Builder.issue loc stmt b = .ok () b' → EndsClause b'.actions.toList) ∧
      (∀ seq e₀ s', asm.sequence actions s = .ok (seq, e₀) s' →
        ∃ code, Code.ofActions seq = .ok code ∧ ∀ pass e, code.Disciplined pass e) ∧
      ∀ err s', asm.assemble actions s = .error err s' →
        (asm.notePass .includes actions >>= fun _ => asm.resolveIncludes includeDepth actions) s =
            .error err s' ∨
          err.FullOnlyIf (∃ seq e₀ s₁ code pass e, asm.sequence actions s = .ok (seq, e₀) s₁ ∧
            Code.ofActions seq = .ok code ∧ code.Overflows pass e err) := by
  have hlowered : Lowered actions := ⟨r, file, text, t, t', hmain⟩
  have hsequence : ∀ seq e₀ s', asm.sequence actions s = .ok (seq, e₀) s' →
      ∃ code, Code.ofActions seq = .ok code ∧ ∀ pass e, code.Disciplined pass e := by
    intro seq e₀ s' h
    have hclauses := sequence_clauses hlowered hinc h
    obtain ⟨code, hcode⟩ := Code.exists_ofActions (isTarget_of_clauses hclauses)
    refine ⟨code, hcode, fun pass e => ⟨?_, ?_, ?_⟩⟩
    · intro before k hplace hends n d hvisits
      exact Code.empty_of_visits hcode hclauses hplace hends hvisits
    · intro verbose err e' hrun
      exact Code.runPass_fullOnlyIf hcode hclauses hrun
    · intro n a l d hvisits hbranch
      exact Code.branch_unresolved_iff hcode hclauses hvisits hbranch
  refine ⟨fun _ _ _ _ h => Builder.issue_endsClause h, hsequence, fun err s' h => ?_⟩
  rcases assemble_raises (Error.fullOnlyIf_early _) hlowered hinc h with
    hincluded | hearly | ⟨seq, e₀, s₁, hseq, hfails⟩
  · exact .inl hincluded
  · exact .inr hearly
  · right
    obtain ⟨code, hcode, hdisciplined⟩ := hsequence seq e₀ s₁ hseq
    rcases hfails with hcode' | ⟨code', d, d', hcode', hrun⟩
    · rw [hcode] at hcode'
      cases hcode'
    · obtain rfl := Except.ok.inj (hcode.symm.trans hcode')
      -- every sequence of the session makes this code, so the discipline covers all passes
      have hpass : ∀ {pass e e'}, runPass asm.verbose code pass e = .error err e' →
          err.FullOnlyIf (∃ seq e₀ s₁ code pass e, asm.sequence actions s = .ok (seq, e₀) s₁ ∧
            Code.ofActions seq = .ok code ∧ code.Overflows pass e err) := by
        intro pass e e' h
        refine ((hdisciplined pass e).fails _ _ _ h).imp fun hover => ?_
        exact ⟨seq, e₀, s₁, code, pass, e, hseq, hcode, hover⟩
      rcases runPasses_eq_error hrun with ⟨_, hw⟩ | ⟨_, _, -, hf⟩ | ⟨_, _, _, -, -, hn⟩ | rfl
      · exact hpass hw
      · exact hpass hf
      · exact hpass hn
      · exact .of_single rfl nofun nofun

/-- A branch back to a label, and one to a label that has no value before. -/
def branchesSource : List Text.Glyph :=
  Text.Glyph.ofString "@ = $1000 back: NOP BNE back BEQ ahead ahead: NOP"

/-- In the warm-up pass the second branch is unresolved, the first is not. -/
theorem stack_discipline_branchesSource :
    ∃ actions t' seq e₀ s' code n n' d d', ({} : Reader).actions "main" branchesSource {} = .ok actions t' ∧
      ({} : Assembler).sequence actions t' = .ok (seq, e₀) s' ∧ Code.ofActions seq = .ok code ∧
      (∀ pass e, code.Disciplined pass e) ∧
      code.Visits .warmUp e₀ n (code.actions.drop (code.actions.length - 5)) d ∧
      code.Visits .warmUp e₀ n' (code.actions.drop (code.actions.length - 3)) d' ∧
      d.unresolved = false ∧ d'.unresolved = true := by
  have hrun : isOkWith (fun actions t' => isOkWith (fun p _ =>
      (Code.ofActions p.1).toOption.any fun code =>
        ((code.walk 5 Code.jumpLimit code.actions (code.start .warmUp p.2)).any fun w =>
          w.2.1.length == 5 && !w.2.2.unresolved) &&
        (code.walk 7 Code.jumpLimit code.actions (code.start .warmUp p.2)).any fun w =>
          w.2.1.length == 3 && w.2.2.unresolved)
      (({} : Assembler).sequence actions t')) (({} : Reader).actions "main" branchesSource {}) =
        true := by
    decide +kernel
  obtain ⟨actions, t', hmain, hrun⟩ := exists_of_isOkWith hrun
  obtain ⟨⟨seq, e₀⟩, s', hsequence, hrun⟩ := exists_of_isOkWith hrun
  obtain ⟨code, hcode, hwalks⟩ := (Option.any_eq_true _ _).mp hrun
  obtain ⟨hfirst, hsecond⟩ := Bool.and_eq_true_iff.mp hwalks
  obtain ⟨code', hcode', hdisciplined⟩ :=
    (stack_discipline {} {} "main" branchesSource actions {} t' t' hmain nofun).2.1 seq e₀ s' hsequence
  obtain rfl : code' = code := by
    rw [hcode'] at hcode
    exact Option.some.inj hcode
  obtain ⟨n, d, hvisits, hflag⟩ := Code.Visits.of_walk hcode' (fun d => !d.unresolved) hfirst
  obtain ⟨n', d', hvisits', hflag'⟩ := Code.Visits.of_walk hcode' (·.unresolved) hsecond
  exact ⟨actions, t', seq, e₀, s', code', n, n', d, d', hmain, hsequence, hcode', hdisciplined,
    hvisits, hvisits', by simpa using hflag, hflag'⟩

end Assembler

/-! ## The length of a part of a binary file -/

namespace Skipped

/-- A pass over the code fails where the sum needs all slots. -/
theorem overflows {n : Nat} (hneed : Stack.limit < 1 + (Expr.nested "main" n).slots) {code : Code}
    (hcode : Code.ofActions (sequence n) = .ok code) (verbose : Bool) (e : Engine) :
    ∃ err e', Assembler.runPass verbose code .warmUp e = .error err e' ∧ err.Is .stackFull := by
  have hactions : code.actions = sequence n :=
    (Code.ofActions_eq_ok hcode).2.1.trans (inert_sequence n).straight.strip
  let d : Engine := { code.start .warmUp e with
    pc := Cell.assign {} (4096 &&& 0xFFFF), stack := ⟨[0]⟩, location := ⟨"main", 1⟩ }
  have hload : ∀ v (c : Engine), c.stack = {} → (Action.load ⟨"main", 1⟩ v).perform c =
      .ok () { c.atAction (Action.load ⟨"main", 1⟩ v) with stack := ⟨[v]⟩, unresolved := false } := by
    rintro v c hempty
    obtain ⟨⟩ := c
    cases hempty
    show EStateM.Result.ok () _ = _
    simp [Engine.atAction]
  -- `@` is set and the stack empty again, then one value stays below the sum
  have hbefore : performAll before (code.start .warmUp e) = .ok () d := by
    refine bind_eq_ok.mpr ⟨(), _, hload _ _ rfl, bind_eq_ok.mpr ⟨(), _, rfl, ?_⟩⟩
    refine bind_eq_ok.mpr ⟨(), _, hload _ _ rfl, ?_⟩
    rfl
  have hstrict : d.strict = false := rfl
  have hdepth : d.stack.depth = 1 := rfl
  obtain ⟨err, d', hsum, herr⟩ := Expr.nested_overflows "main" n hstrict
    (by rw [hdepth]; exact Nat.le_add_left 1 1023) (by rwa [hdepth])
  refine ⟨err, d', ?_, herr⟩
  have hrun : performAll (sequence n) (code.start .warmUp e) = .error err d' := by
    rw [sequence, performAll_append, bind_of_ok hbefore, performAll_append]
    exact bind_eq_error.mpr (.inl hsum)
  have hexecute : code.execute (code.start .warmUp e) = .error err d' := by
    show code.runFrom Code.jumpLimit code.actions _ = _
    rw [hactions, ← List.append_nil (sequence n),
      Code.runFrom_straight (inert_sequence n).straight rfl, hrun]
  unfold Assembler.runPass
  exact bind_eq_error.mpr (.inr ⟨(), _, rfl, bind_eq_error.mpr (.inl hexecute)⟩)

theorem sublist_flatten (lower upper : List (List Action)) {es : List Action} :
    es.Sublist (lower ++ es :: upper).flatten := by
  rw [List.flatten_append, List.flatten_cons]
  exact (List.sublist_append_left _ _).trans (List.sublist_append_right _ _)

theorem slots_le {n : Nat} {code : Code} (hcode : Code.ofActions (sequence n) = .ok code)
    {k : List Action} {lower : List (List Action)} {x : Expr} {a : Action}
    (h : code.Underway k lower x a) : x.slots ≤ n + 1 := by
  obtain ⟨front, begun, left, upper, rest, hplace, -, -, hops, -⟩ := h
  have hactions : code.actions = sequence n :=
    (Code.ofActions_eq_ok hcode).2.1.trans (inert_sequence n).straight.strip
  have hcount : (code.actions.map Action.op).countP Op.isBinary = n := by
    rw [hactions, sequence, List.map_append, List.countP_append, List.map_append, List.countP_append,
      Expr.countP_nested]
    simp [before, Op.isBinary, Action.load, Action.set, Action.plain]
  have hpart : (x.actions.map Action.op).countP Op.isBinary ≤ n := by
    rw [← hcount, ← hops]
    refine (List.Sublist.map Action.op ?_).countP_le
    rw [hplace]
    exact (sublist_flatten lower upper).trans ((List.sublist_append_right front _).trans
      (List.sublist_append_left _ _))
  exact x.slots_le.trans (Nat.succ_le_succ hpart)

/-- The sum just fits on the stack, but not above the skip. -/
theorem source_overflows {n : Nat} (hfits : n + 1 = Stack.limit) :
    ∃ actions t' seq e₀ s₁ code err s',
      ({} : Reader).actions "main" (source n) {} = .ok actions t' ∧
      assembler.sequence actions t' = .ok (seq, e₀) s₁ ∧ Code.ofActions seq = .ok code ∧
      assembler.assemble actions t' = .error err s' ∧ err.Is .stackFull ∧
      (∀ k lower x a, code.Underway k lower x a → x.slots ≤ Stack.limit) ∧
      ∀ a ∈ code.actions, a.op.isMessage = false := by
  obtain ⟨t', hread⟩ := reads_source n
  have hinert := inert_sequence n
  have hincluded : (assembler.notePass .includes (actions n) >>= fun _ =>
      assembler.resolveIncludes Assembler.includeDepth (actions n)) t' = .ok (sequence n) t' :=
    bind_eq_ok.mpr ⟨(), t', rfl, resolves_actions n t'⟩
  obtain ⟨s₁, hsequence⟩ := hinert.sequence hincluded
  obtain ⟨code, hcode⟩ : ∃ code, Code.ofActions (sequence n) = .ok code :=
    Code.exists_ofActions fun a ha hmeta => beq_iff_eq.mp (hinert.straight.isCode a ha hmeta)
  have hneed : Stack.limit < 1 + (Expr.nested "main" n).slots := by
    rw [Expr.slots_nested]
    omega
  obtain ⟨err, d, hpass, hfull⟩ := overflows hneed hcode assembler.verbose
    { ({ verbose := assembler.verbose } : Engine) with log := s₁.log }
  have hpasses : Assembler.runPasses assembler.verbose code
      { ({ verbose := assembler.verbose } : Engine) with log := s₁.log } = .error err d :=
    bind_eq_error.mpr (.inl hpass)
  refine ⟨_, t', _, _, s₁, code, err, { s₁ with log := d.log }, hread, hsequence, hcode, ?_, hfull,
    fun _ _ _ _ h => hfits ▸ slots_le hcode h, ?_⟩
  · have hprepare : assembler.prepare (actions n) t' = .ok (code, { verbose := assembler.verbose }) s₁ := by
      rw [Assembler.prepare_eq, bind_of_ok hsequence]
      simp only [hcode]
      rfl
    rw [Assembler.assemble_eq, bind_of_ok hprepare]
    refine bind_eq_error.mpr (.inl ?_)
    unfold Assembler.withEngine
    rw [hpasses]
  · intro a ha
    rw [(Code.ofActions_eq_ok hcode).2.1, hinert.straight.strip] at ha
    rcases List.mem_append.mp ha with hbefore | hrest
    · simp only [before, List.mem_cons, List.not_mem_nil, or_false] at hbefore
      rcases hbefore with rfl | rfl | rfl <;> rfl
    · rcases List.mem_append.mp hrest with hsum | hbytes
      · exact Op.isMessage_of_computes (Expr.actions_compute _ a hsum)
      · rw [List.mem_singleton.mp hbytes]
        rfl

end Skipped

/-- The stack can be too small although no expression needs more slots than it
has: the skip of a part of a binary file is below its length. -/
theorem Assembler.skippedSource_overflows :
    ∃ actions t' seq e₀ s₁ code err s',
      ({} : Reader).actions "main" (Skipped.source (Stack.limit - 1)) {} = .ok actions t' ∧
      Skipped.assembler.sequence actions t' = .ok (seq, e₀) s₁ ∧ Code.ofActions seq = .ok code ∧
      Skipped.assembler.assemble actions t' = .error err s' ∧ err.Is .stackFull ∧
      (∀ k lower x a, code.Underway k lower x a → x.slots ≤ Stack.limit) ∧
      ∀ a ∈ code.actions, a.op.isMessage = false :=
  Skipped.source_overflows (by decide)

end Mos6510
