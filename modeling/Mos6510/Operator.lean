/-!
# Operators of expressions

Values are 64 bit two's complement numbers; all arithmetic wraps.  Truth is
one, falsehood zero.  A shift takes its amount modulo 64, and a right shift
keeps the sign.
-/

namespace Mos6510

/-- The value of a condition. -/
def truth (b : Bool) : Int64 := if b then 1 else 0

/-- A prefix operator. -/
inductive UnaryOp where
  | logicalNot
  | complement
  | negate
  | lowByte
  | highByte
  deriving DecidableEq, Repr, Inhabited

namespace UnaryOp

/-- Every prefix operator, in order. -/
def all : List UnaryOp := [logicalNot, complement, negate, lowByte, highByte]

def symbol : UnaryOp → String
  | logicalNot => "!"
  | complement => "~"
  | negate => "-"
  | lowByte => "<"
  | highByte => ">"

/-- Prefix operators bind tighter than every infix operator. -/
def priority : Nat := 20

/-- The value of an operator applied to `a`. -/
def apply : UnaryOp → Int64 → Int64
  | logicalNot, a => truth (a == 0)
  | complement, a => ~~~a
  | negate, a => -a
  | lowByte, a => a &&& 0xFF
  | highByte, a => (a >>> 8) &&& 0xFF

end UnaryOp

/-- An infix operator. -/
inductive BinaryOp where
  | add
  | sub
  | mul
  | div
  | and
  | or
  | xor
  | shiftLeft
  | shiftRight
  | eq
  | ne
  | lt
  | le
  | gt
  | ge
  deriving DecidableEq, Repr, Inhabited

namespace BinaryOp

/-- Every infix operator, in order. -/
def all : List BinaryOp :=
  [add, sub, mul, div, and, or, xor, shiftLeft, shiftRight, eq, ne, lt, le, gt, ge]

def symbol : BinaryOp → String
  | add => "+"
  | sub => "-"
  | mul => "*"
  | div => "/"
  | and => "&"
  | or => "|"
  | xor => "^"
  | shiftLeft => "<<"
  | shiftRight => ">>"
  | eq => "=="
  | ne => "!="
  | lt => "<"
  | le => "<="
  | gt => ">"
  | ge => ">="

/-- How tight an operator binds; a higher number binds tighter. -/
def priority : BinaryOp → Nat
  | mul => 12
  | div => 12
  | add => 11
  | sub => 11
  | shiftLeft => 10
  | shiftRight => 10
  | lt => 9
  | le => 9
  | gt => 9
  | ge => 9
  | eq => 8
  | ne => 8
  | and => 7
  | xor => 6
  | or => 5

/-- The value of an operator applied to `a` and `b`; none for a division by
zero.  Division goes toward zero. -/
@[inline] def value? : BinaryOp → Int64 → Int64 → Option Int64
  | add, a, b => some (a + b)
  | sub, a, b => some (a - b)
  | mul, a, b => some (a * b)
  | div, a, b => if b == 0 then none else some (a / b)
  | and, a, b => some (a &&& b)
  | or, a, b => some (a ||| b)
  | xor, a, b => some (a ^^^ b)
  | shiftLeft, a, b => some (a <<< (b &&& 63))
  | shiftRight, a, b => some (a >>> (b &&& 63))
  | eq, a, b => some (truth (a == b))
  | ne, a, b => some (truth (a != b))
  | lt, a, b => some (truth (decide (a < b)))
  | le, a, b => some (truth (decide (a ≤ b)))
  | gt, a, b => some (truth (decide (b < a)))
  | ge, a, b => some (truth (decide (b ≤ a)))

end BinaryOp

end Mos6510
