import Mos6510.Proofs.Arithmetic
import Mos6510.Proofs.Slots
import Mos6510.Proofs.Terms

/-!
# Precedence

How tight an infix operator binds is said by a table (`BinaryOp.table`); prefix
operators bind tighter than all of them, and operators of one row are taken from
left to right.  An expression is written with parentheses just where these rules
would read it otherwise (`Expr.term`), and it has a value over the integers
(`Expr.integer`).

* `Expr.term_fits`, `Expr.term_expr`: what is written so is read back as the same
  expression;
* `Expr.runEach_comes`: its actions compute its value, or fail where it has none;
* `expression_precedence`: both for every expression, whatever follows it.
-/

namespace Mos6510

open Parse Outcome EngineM

/-! ## Writing an expression -/

/-- The infix operators by how tight they bind, loosest first. -/
def BinaryOp.table : List (List BinaryOp) :=
  [[or], [xor], [and], [eq, ne], [lt, le, gt, ge], [shiftLeft, shiftRight], [add, sub], [mul, div]]

/-- The row of an operator in the table. -/
def BinaryOp.row (op : BinaryOp) : Nat := table.findIdx fun ops => ops.contains op

theorem BinaryOp.priority_eq (op : BinaryOp) : op.priority = op.row + 5 := by
  cases op <;> rfl

theorem BinaryOp.row_lt (op : BinaryOp) : op.row < table.length := by
  cases op <;> decide

/-- Is the expression that of an infix operator above some row of the table? -/
def Expr.isAbove (row : Nat) : Expr → Bool
  | binary _ op _ _ => op.row < row
  | _ => false

/-- A term, in parentheses if these are needed. -/
def Term.groupIf (needed : Bool) (line : Nat) (x : Term) : Term :=
  if needed then .group line x line else x

/-- An expression as it is written, with parentheses where they are needed: for
an infix operator under a prefix operator, for a looser one under an infix
operator, and on the right side for one of the same row. -/
def Expr.term : Expr → Term
  | number loc value => .number loc.line (Text.decimal value.toInt) value
  | symbol loc name => if name = pcName then .pc loc.line else .symbol loc.line name
  | unary loc op x =>
    .unary loc.line op (x.term.groupIf (x.isAbove BinaryOp.table.length) loc.line)
  | binary loc op x y =>
    .binary (x.term.groupIf (x.isAbove op.row) loc.line) loc.line op
      (y.term.groupIf (y.isAbove (op.row + 1)) loc.line)

/-- All of an expression stands in one file. -/
def Expr.StandsIn (file : String) : Expr → Prop
  | number loc _ => loc.file = file
  | symbol loc _ => loc.file = file
  | unary loc _ x => loc.file = file ∧ x.StandsIn file
  | binary loc _ x y => loc.file = file ∧ x.StandsIn file ∧ y.StandsIn file

/-! ## Reading it back -/

theorem Term.expr_groupIf (file : String) (needed : Bool) (line : Nat) (x : Term) :
    (x.groupIf needed line).expr file = x.expr file := by
  cases needed <;> rfl

/-- Parentheses where they are needed make a term fit. -/
theorem Term.fits_groupIf {x : Term} {needed : Bool} {prio : Nat} (line : Nat)
    (hinside : x.fits 0 = true) (h : needed = false → x.fits prio = true) :
    (x.groupIf needed line).fits prio = true := by
  cases needed with
  | true => exact hinside
  | false => exact h rfl

namespace Expr

/-- A written expression fits wherever its outermost operator, if it is an infix
one, binds tight enough. -/
theorem term_fits (x : Expr) {prio : Nat}
    (h : ∀ loc op y z, x = binary loc op y z → prio ≤ op.priority) : x.term.fits prio = true := by
  -- an operand that needs no parentheses has an operator of that row or above
  have hrow : ∀ {y : Expr} {row : Nat}, y.isAbove row = false →
      ∀ loc op z w, y = binary loc op z w → row + 5 ≤ op.priority := by
    rintro y row hy loc op z w rfl
    have hle : row ≤ op.row := Nat.le_of_not_lt (of_decide_eq_false hy)
    rw [op.priority_eq]
    exact Nat.add_le_add_right hle 5
  induction x generalizing prio with
  | number => rfl
  | symbol loc name =>
      unfold term
      split <;> rfl
  | unary loc op x ih =>
      refine Term.fits_groupIf _ (ih fun _ _ _ _ _ => Nat.zero_le _) fun hx => ih ?_
      rintro loc' op' y z rfl
      exact absurd op'.row_lt (of_decide_eq_false hx)
  | binary loc op x y ihx ihy =>
      have hop := h loc op x y rfl
      -- on the left a chain of one row goes on, on the right it needs parentheses
      have hleft : (x.term.groupIf (x.isAbove op.row) loc.line).fits op.priority = true := by
        refine Term.fits_groupIf _ (ihx fun _ _ _ _ _ => Nat.zero_le _) fun hx => ?_
        rw [op.priority_eq]
        exact ihx (hrow hx)
      have hright : (y.term.groupIf (y.isAbove (op.row + 1)) loc.line).fits (op.priority + 1) = true := by
        refine Term.fits_groupIf _ (ihy fun _ _ _ _ _ => Nat.zero_le _) fun hy => ?_
        rw [op.priority_eq, Nat.add_right_comm]
        exact ihy (hrow hy)
      rw [term, Term.fits, hleft, hright, decide_eq_true hop]
      rfl

/-- What is written stands for the expression. -/
theorem term_expr {file : String} {x : Expr} (h : x.StandsIn file) : x.term.expr file = x := by
  induction x with
  | number loc value =>
      obtain ⟨f, line⟩ := loc
      cases h
      rfl
  | symbol loc name =>
      obtain ⟨f, line⟩ := loc
      cases h
      unfold term
      split
      · rename_i hpc
        rw [hpc]
        rfl
      · rfl
  | unary loc op x ih =>
      obtain ⟨f, line⟩ := loc
      obtain ⟨rfl, hx⟩ := h
      rw [term, Term.expr, Term.expr_groupIf, ih hx]
  | binary loc op x y ihx ihy =>
      obtain ⟨f, line⟩ := loc
      obtain ⟨rfl, hx, hy⟩ := h
      rw [term, Term.expr, Term.expr_groupIf, Term.expr_groupIf, ihx hx, ihy hy]

theorem nextOperator?_eq_none {rest : List Token}
    (h : ∀ sign line more, rest = ⟨.operator sign, line⟩ :: more → sign.binary? = none) (prio : Nat) :
    nextOperator? prio rest = none := by
  unfold nextOperator?
  split
  · rw [h _ _ _ rfl]
  · rfl

/-- A written expression is read back where no infix operator follows. -/
theorem reads_term {file : String} {x : Expr} (hx : x.StandsIn file) {rest : List Token}
    (hrest : ∀ sign line more, rest = ⟨.operator sign, line⟩ :: more → sign.binary? = none) :
    Reads expression file (x.term.tokens ++ rest) x.actions rest := by
  have hfits : x.term.fits 0 = true := x.term_fits fun _ _ _ _ _ => Nat.zero_le _
  have hnone := nextOperator?_eq_none hrest
  have hread : Reads (climb 0) file (x.term.tokens ++ rest) (x.term.expr file) rest :=
    (x.term.reads_both file).2 0 0 rest rest _ (Nat.le_refl _) hfits (hnone _)
      (reads_extend_none (hnone _))
  rw [term_expr hx] at hread
  exact Reads.bind hread (.pure _)

end Expr

/-! ## Computing its value -/

/-- What reading a name comes to. -/
def Engine.reading (e : Engine) (name : String) : Except Error Int64 :=
  match Engine.readSymbol name e with
  | .ok v _ => .ok v
  | .error err _ => .error err

/-- The value of an expression over the integers, with what reading its names
comes to.  The operand on the left goes first, and an error tells where it came
up. -/
def Expr.integer (reading : String → Except Error Int64) : Expr → Except Error Int
  | number _ value => .ok value.toInt
  | symbol loc name =>
    match reading name with
    | .ok v => .ok v.toInt
    | .error err => .error (err.atLocation loc)
  | unary _ op x => (x.integer reading).map op.ofInt
  | binary loc op x y => do
    let a ← x.integer reading
    let b ← y.integer reading
    match op.ofInts? a b with
    | some v => .ok v
    | none => .error (.located loc .divisionByZero)

/-- Running came to a value on top of the stack, and touched nothing else, or to
an error. -/
def Comes (r : EStateM.Result Error Engine Unit) (e : Engine) : Except Error Int → Prop
  | .ok n => ∃ v e', r = .ok () e' ∧ e.Untouched e' ∧ e'.stack.values = v :: e.stack.values ∧
      v.toInt = n
  | .error err => ∃ e', r = .error err e'

/-- Reading a name does not depend on the stack, nor on what was read before. -/
theorem Engine.Untouched.reading_eq {e e' : Engine} (h : e.Untouched e') (name : String) :
    e'.reading name = e.reading name := by
  unfold reading readSymbol strict
  rw [h.parent, h.pass]
  cases qualify name e.parent with
  | error err => rfl
  | ok full =>
      dsimp only
      rcases cell?_related (r := fun _ => Cell.Same) h.vars h.labels h.pc full with
        ⟨hnone, hnone'⟩ | ⟨c, d, hc, hd, hvalue, hset⟩
      · rw [hnone, hnone']
      · rw [hc, hd]
        dsimp only
        rw [hset, hvalue]
        cases d.isSet <;> cases e.pass.isStrict <;> rfl

theorem runEach_append_eq (as bs : List Action) :
    runEach (as ++ bs) = (runEach as >>= fun _ => runEach bs) := by
  induction as with
  | nil =>
      rw [List.nil_append, runEach]
      rfl
  | cons a rest ih => rw [List.cons_append, runEach, runEach, ih, bind_assoc]

theorem runEach_single_of_ok {loc : Location} {op : Op} {e e' : Engine} {u : Unit}
    (h : op.run loc e = .ok u e') : runEach [Action.plain loc op] e = .ok () e' := by
  rw [runEach, runEach]
  exact bind_eq_ok.mpr ⟨u, e', locating_eq_ok.mpr h, rfl⟩

theorem runEach_single_of_error {loc : Location} {op : Op} {e e' : Engine} {err : Error}
    (h : op.run loc e = .error err e') :
    runEach [Action.plain loc op] e = .error (err.atLocation loc) e' := by
  rw [runEach]
  refine bind_eq_error.mpr (.inl ?_)
  show EStateM.tryCatch (op.run loc) _ e = _
  unfold EStateM.tryCatch
  rw [h]
  rfl

theorem load_comes (loc : Location) (value : Int64) {e : Engine}
    (hroom : e.stack.values.length < Stack.limit) :
    ∃ e', (Op.load value).run loc e = .ok () e' ∧ e.Untouched e' ∧
      e'.stack.values = value :: e.stack.values := by
  have hrun : (Op.load value).run loc e = .ok () _ :=
    bind_eq_ok.mpr ⟨(), _, rfl, Engine.push_eq_ok.mpr ⟨Nat.ne_of_lt hroom, rfl⟩⟩
  exact ⟨_, hrun, (load_pushed hrun).1, rfl⟩

/-- Reading a symbol pushes what reading its name comes to. -/
theorem get_comes (loc : Location) (name : String) {e : Engine}
    (hroom : e.stack.values.length < Stack.limit) :
    match e.reading name with
    | .ok v => ∃ e', (Op.get name).run loc e = .ok () e' ∧ e.Untouched e' ∧
        e'.stack.values = v :: e.stack.values
    | .error err => ∃ e', (Op.get name).run loc e = .error err e' := by
  have hstart : Engine.startOperand e =
      .ok () { e with unresolved := e.unresolved && !e.stack.values.isEmpty } := rfl
  have hsame : e.Untouched { e with unresolved := e.unresolved && !e.stack.values.isEmpty } :=
    { Engine.Untouched.refl e with }
  rw [← hsame.reading_eq name, Engine.reading]
  cases hread : Engine.readSymbol name
      { e with unresolved := e.unresolved && !e.stack.values.isEmpty } with
  | ok v e₂ =>
      have hstack : e₂.stack = e.stack := (Engine.readSymbol_stack hread).trans rfl
      have hdepth : e₂.stack.depth ≠ Stack.limit := by
        rw [hstack]
        exact Nat.ne_of_lt hroom
      have hrun : (Op.get name).run loc e = .ok () { e₂ with stack := ⟨v :: e₂.stack.values⟩ } :=
        bind_eq_ok.mpr ⟨(), _, hstart, bind_eq_ok.mpr ⟨v, e₂, hread,
          Engine.push_eq_ok.mpr ⟨hdepth, rfl⟩⟩⟩
      exact ⟨_, hrun, (get_pushed hrun).1, by rw [hstack]⟩
  | error err e₂ =>
      exact ⟨e₂, bind_eq_error.mpr (.inr ⟨(), _, hstart, bind_eq_error.mpr (.inl hread)⟩)⟩

/-- The actions of an expression compute its value, whatever they find on the
stack, as long as there is room for the slots that it needs. -/
theorem Expr.runEach_comes (x : Expr) {e : Engine}
    (hroom : e.stack.values.length + x.slots ≤ Stack.limit) :
    Comes (runEach x.actions e) e (x.integer e.reading) := by
  induction x generalizing e with
  | number loc value =>
      obtain ⟨e', hrun, hsame, hstack⟩ := load_comes loc value hroom
      exact ⟨value, e', runEach_single_of_ok hrun, hsame, hstack, rfl⟩
  | symbol loc name =>
      have hget := get_comes loc name hroom
      rw [integer]
      cases hread : e.reading name with
      | ok v =>
          rw [hread] at hget
          obtain ⟨e', hrun, hsame, hstack⟩ := hget
          exact ⟨v, e', runEach_single_of_ok hrun, hsame, hstack, rfl⟩
      | error err =>
          rw [hread] at hget
          obtain ⟨e', hrun⟩ := hget
          exact ⟨e', runEach_single_of_error hrun⟩
  | unary loc op x ih =>
      have hx := ih hroom
      have hpos := x.slots_pos
      rw [actions, runEach_append_eq, integer]
      cases hvalue : x.integer e.reading with
      | error err =>
          rw [hvalue] at hx
          obtain ⟨e₁, hx⟩ := hx
          exact ⟨e₁, bind_eq_error.mpr (.inl hx)⟩
      | ok n =>
          rw [hvalue] at hx
          obtain ⟨v, e₁, hx, hsame, hstack, hv⟩ := hx
          have hdepth : e.stack.values.length ≠ Stack.limit := by
            rw [slots] at hroom
            omega
          have hop : (Op.unary op).run loc e₁ =
              .ok () { e₁ with stack := ⟨op.apply v :: e.stack.values⟩ } :=
            bind_eq_ok.mpr ⟨v, _, Engine.pop_eq_ok.mpr ⟨_, hstack, rfl⟩,
              Engine.push_eq_ok.mpr ⟨hdepth, rfl⟩⟩
          rw [bind_of_ok hx, runEach_single_of_ok hop]
          refine ⟨op.apply v, _, rfl, hsame.trans { Engine.Untouched.refl e₁ with }, rfl, ?_⟩
          rw [op.toInt_apply, hv]
  | binary loc op x y ihx ihy =>
      have hx_le : x.slots ≤ (binary loc op x y).slots := Nat.le_max_left _ _
      have hy_lt : y.slots + 1 ≤ (binary loc op x y).slots := Nat.le_max_right _ _
      have hx := ihx (e := e) (by omega)
      rw [actions, runEach_append_eq, runEach_append_eq, integer]
      cases hleft : x.integer e.reading with
      | error err =>
          rw [hleft] at hx
          obtain ⟨e₁, hx⟩ := hx
          exact ⟨e₁, bind_eq_error.mpr (.inl hx)⟩
      | ok m =>
          rw [hleft] at hx
          obtain ⟨v, e₁, hx, hsame₁, hstack₁, hv⟩ := hx
          have hy := ihy (e := e₁) (by rw [hstack₁, List.length_cons]; omega)
          -- the right operand reads the same values as the left one did
          rw [funext hsame₁.reading_eq] at hy
          rw [bind_of_ok hx]
          cases hright : y.integer e.reading with
          | error err =>
              rw [hright] at hy
              obtain ⟨e₂, hy⟩ := hy
              exact ⟨e₂, bind_eq_error.mpr (.inl hy)⟩
          | ok n =>
              rw [hright] at hy
              obtain ⟨w, e₂, hy, hsame₂, hstack₂, hw⟩ := hy
              rw [hstack₁] at hstack₂
              rw [bind_of_ok hy]
              have hints := op.toInt_value? v w
              rw [hv, hw] at hints
              have hpop : Engine.popPair e₂ = .ok (v, w) { e₂ with stack := ⟨e.stack.values⟩ } :=
                Engine.popPair_eq_ok.mpr ⟨_, hstack₂, rfl⟩
              show Comes _ e (match op.ofInts? m n with
                | some v => .ok v
                | none => .error (.located loc .divisionByZero))
              cases hop : op.value? v w with
              | none =>
                  rw [hop] at hints
                  rw [← hints]
                  have hrun : (Op.binary op).run loc e₂ =
                      .error .divisionByZero { e₂ with stack := ⟨e.stack.values⟩ } := by
                    have hstep : (Op.binary op).run loc e₂ = _ := bind_of_ok hpop
                    rw [hstep]
                    dsimp only
                    rw [hop]
                    rfl
                  exact ⟨_, runEach_single_of_error hrun⟩
              | some r =>
                  rw [hop] at hints
                  rw [← hints]
                  have hdepth : e.stack.values.length ≠ Stack.limit := by omega
                  have hrun : (Op.binary op).run loc e₂ =
                      .ok () { e₂ with stack := ⟨r :: e.stack.values⟩ } := by
                    refine Engine.applyBinary_eq_ok.mpr ⟨v, w, r, _, hstack₂, hop, ?_⟩
                    exact Engine.push_eq_ok.mpr ⟨hdepth, rfl⟩
                  refine ⟨r, _, runEach_single_of_ok hrun, ?_, rfl, rfl⟩
                  exact (hsame₁.trans hsame₂).trans { Engine.Untouched.refl e₂ with }

/-- Evaluating an expression on an empty stack gives its value, or its error. -/
theorem Expr.evaluate_integer (x : Expr) {e : Engine} (he : e.stack.values = [])
    (hslots : x.slots ≤ Stack.limit) :
    match x.integer e.reading with
    | .ok n => ∃ v e', evaluate x.actions e = .ok v e' ∧ v.toInt = n ∧ e'.stack.values = []
    | .error err => ∃ e', evaluate x.actions e = .error err e' := by
  have hcomes := x.runEach_comes (e := e) (by rw [he, List.length_nil, Nat.zero_add]; exact hslots)
  cases hvalue : x.integer e.reading with
  | ok n =>
      rw [hvalue] at hcomes
      obtain ⟨v, e', hrun, -, hstack, hv⟩ := hcomes
      rw [he] at hstack
      exact ⟨v, _, bind_eq_ok.mpr ⟨(), e', hrun, Engine.pop_eq_ok.mpr ⟨[], hstack, rfl⟩⟩, hv, rfl⟩
  | error err =>
      rw [hvalue] at hcomes
      obtain ⟨e', hrun⟩ := hcomes
      exact ⟨e', bind_eq_error.mpr (.inl hrun)⟩

/-- Expressions are read by the table of operators.  Whatever expression is
written with parentheses where the table and reading from left to right need
them, and whatever follows it, as long as that is no infix operator: its actions
come out in postfix order, and just what follows is left.  On an empty stack the
actions compute the value of the expression over the integers, wrapped to 64
bits, or fail where it is divided by zero or a name cannot be read, as long as
the stack has the slots that it needs. -/
theorem expression_precedence (file : String) (x : Expr) (hx : x.StandsIn file)
    (rest : List Token)
    (hrest : ∀ sign line more, rest = ⟨.operator sign, line⟩ :: more → sign.binary? = none) :
    (∃ h, expression file (x.term.tokens ++ rest) = .ok (x.actions, ⟨rest, h⟩)) ∧
      ∀ e : Engine, e.stack.values = [] → x.slots ≤ 1024 →
        match x.integer e.reading with
        | .ok n => ∃ v e', evaluate x.actions e = .ok v e' ∧ v.toInt = n ∧ e'.stack.values = []
        | .error err => ∃ e', evaluate x.actions e = .error err e' := by
  refine ⟨?_, fun e he hslots => x.evaluate_integer he hslots⟩
  obtain ⟨⟨left, h⟩, hread, hleft⟩ := Expr.reads_term hx hrest
  dsimp only at hleft
  subst left
  exact ⟨h, hread⟩

/-- `-(7-(2-3))*@` -/
def minuses : Expr :=
  .binary ⟨"m", 1⟩ .mul
    (.unary ⟨"m", 1⟩ .negate (.binary ⟨"m", 1⟩ .sub (.number ⟨"m", 1⟩ 7)
      (.binary ⟨"m", 1⟩ .sub (.number ⟨"m", 1⟩ 2) (.number ⟨"m", 1⟩ 3))))
    (.symbol ⟨"m", 1⟩ "@")

theorem expression_precedence_minuses :
    minuses.StandsIn "m" ∧
      minuses.term.tokens.map (·.lexeme.text) =
        ["-", "(", "7", "-", "(", "2", "-", "3", ")", ")", "*", "@"] ∧
      (∃ h, expression "m" (minuses.term.tokens ++ [⟨.operator .bang, 1⟩]) =
        .ok (minuses.actions, ⟨[⟨.operator .bang, 1⟩], h⟩)) ∧
      ∃ v e', evaluate minuses.actions { pc := { value := 5, isSet := true } } = .ok v e' ∧
        v.toInt = -40 := by
  have hin : minuses.StandsIn "m" := by simp [minuses, Expr.StandsIn]
  have hrest : ∀ sign line more, [(⟨.operator .bang, 1⟩ : Token)] = ⟨.operator sign, line⟩ :: more →
      sign.binary? = none := by
    intro sign line more h
    cases h
    rfl
  have hvalue : minuses.integer
      (Engine.reading { pc := { value := 5, isSet := true } }) = .ok (-40) := by
    decide +kernel
  obtain ⟨hread, heval⟩ := expression_precedence "m" minuses hin _ hrest
  have hresult := heval { pc := { value := 5, isSet := true } } rfl (by decide)
  rw [hvalue] at hresult
  obtain ⟨v, e', hrun, hv, -⟩ := hresult
  exact ⟨hin, by decide +kernel, hread, v, e', hrun, hv⟩

end Mos6510
