import Mos6510.Engine.Run

/-!
# Constant expressions

An expression is a list of actions in postfix order.  If it reads no symbol
its value is known before any pass, and it can be replaced by a single load.
-/

namespace Mos6510

/-- Actions that a constant expression is made of. -/
def Op.isConstant : Op → Bool
  | .load _ => true
  | .unary _ => true
  | .binary _ => true
  | _ => false

def isConstantExpr (expr : List Action) : Bool :=
  !expr.isEmpty && expr.all fun a => a.op.isConstant

/-- The value of an expression if it is constant.  A constant expression that
cannot be evaluated, or that leaves values behind, is an error. -/
def constantValue? (expr : List Action) : Except Error (Option Int64) :=
  match expr with
  | [] => .ok none
  | a :: _ =>
    if isConstantExpr expr then
      match evaluate expr {} with
      | .error err _ => .error err
      | .ok v e =>
        if e.stack.depth == 0 then .ok (some v)
        -- more than one value means that the expression was put together wrongly
        else .error (Error.stackFull.atLocation a.location)
    else .ok none

/-- Replace a constant expression by a load of its value. -/
def foldConstant (expr : List Action) : Except Error (List Action) :=
  match expr with
  | [] => .ok []
  | a :: _ =>
    match constantValue? expr with
    | .error err => .error err
    | .ok none => .ok expr
    | .ok (some v) => .ok [Action.load a.location v]

end Mos6510
