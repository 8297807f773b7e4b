import Mos6510.Expr
import Mos6510.Token.Parse

/-!
# Reading expressions

Prefix operators apply to a single operand.  Infix operators are read by
precedence: `climb p` takes all operators that bind at least as tight as `p`,
from left to right.
-/

namespace Mos6510

namespace Expr

/-- The infix operator in front, if it binds at least as tight as asked. -/
def nextOperator? (prio : Nat) : List Token → Option BinaryOp
  | ⟨.operator sign, _⟩ :: _ =>
    match sign.binary? with
    | some op => if prio ≤ op.priority then some op else none
    | none => none
  | _ => none

mutual

/-- An operand with its prefix operators. -/
def operand (file : String) (ts : List Token) : Except Error (Expr × Tail ts) :=
  match ts with
  | ⟨.operator sign, line⟩ :: rest =>
    match sign.unary? with
    | none => .error (.inSource ⟨file, line⟩ .expressionExpected)
    | some op =>
      match operand file rest with
      | .error err => .error err
      | .ok (x, last) => .ok (.unary ⟨file, line⟩ op x, last.behind _)
  | ⟨.number _ value, line⟩ :: rest =>
    .ok (.number ⟨file, line⟩ value, .afterFirst _)
  | ⟨.word name, line⟩ :: rest =>
    .ok (.symbol ⟨file, line⟩ name, .afterFirst _)
  | ⟨.pc, line⟩ :: rest =>
    .ok (.symbol ⟨file, line⟩ pcName, .afterFirst _)
  | ⟨.openParen, _⟩ :: rest =>
    match climb 0 file rest with
    | .error err => .error err
    | .ok (x, more) =>
      match Parse.expect .closeParen .closeExpected file more.val with
      | .error err => .error err
      | .ok (_, last) => .ok (x, (more.within last).behind _)
  | ts => .error (.inSource (Parse.placeOf file ts) .expressionExpected)
termination_by 2 * ts.length
decreasing_by all_goals simp only [List.length_cons]; omega

/-- An expression of operators that bind at least as tight as asked. -/
def climb (prio : Nat) (file : String) (ts : List Token) : Except Error (Expr × Tail ts) :=
  match operand file ts with
  | .error err => .error err
  | .ok (x, rest) =>
    match extend prio x file rest.val with
    | .error err => .error err
    | .ok (y, last) => .ok (y, rest.within last)
termination_by 2 * ts.length + 1
decreasing_by
  · omega
  · have := rest.property
    omega

/-- The operators after a first operand, with their right operands. -/
def extend (prio : Nat) (x : Expr) (file : String) (ts : List Token) :
    Except Error (Expr × Tail ts) :=
  match nextOperator? prio ts with
  | none => .ok (x, .all ts)
  | some op =>
    match ts with
    | [] => .ok (x, .all [])
    | t :: rest =>
      match climb (op.priority + 1) file rest with
      | .error err => .error err
      | .ok (y, more) =>
        match extend prio (.binary ⟨file, t.line⟩ op x y) file more.val with
        | .error err => .error err
        | .ok (z, last) => .ok (z, (more.within last).behind t)
termination_by 2 * ts.length
decreasing_by
  · simp only [List.length_cons]
    omega
  · have := more.property
    simp only [List.length_cons]
    omega

end

/-- A whole expression. -/
def parse : Parse Expr := climb 0

end Expr

def Parse.expression : Parse (List Action) := do
  let x ← Expr.parse
  pure x.actions

end Mos6510
