import Mos6510.Action
import Mos6510.Symbol

/-!
# Expressions

The tree of a written expression, with the location of each operator and
operand, and its actions in postfix order.
-/

namespace Mos6510

/-- A written expression. -/
inductive Expr where
  | number (loc : Location) (value : Int64)
  /-- A variable, a label, or the program counter `@`. -/
  | symbol (loc : Location) (name : String)
  | unary (loc : Location) (op : UnaryOp) (x : Expr)
  | binary (loc : Location) (op : BinaryOp) (x y : Expr)
  deriving DecidableEq, Repr, Inhabited

/-- The actions of an expression: operands first, then the operator. -/
def Expr.actions : Expr → List Action
  | number loc value => [Action.load loc value]
  | symbol loc name => [Action.get loc name]
  | unary loc op x => x.actions ++ [Action.plain loc (.unary op)]
  | binary loc op x y => x.actions ++ (y.actions ++ [Action.plain loc (.binary op)])

end Mos6510
