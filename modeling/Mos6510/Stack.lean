import Mos6510.Error

/-!
# The arithmetic stack

Intermediate values of expressions, top first.
-/

namespace Mos6510

/-- The most values a stack may hold. -/
def Stack.limit : Nat := 1024

/-- A stack of values, top first. -/
structure Stack where
  values : List Int64 := []
  deriving DecidableEq, Repr, Inhabited

namespace Stack

/-- Number of values on the stack. -/
def depth (s : Stack) : Nat := s.values.length

/-- Put a value on top; fails when the stack is full. -/
@[inline] def push (v : Int64) (s : Stack) : Except Error Stack :=
  if s.depth == limit then .error .stackFull else .ok ⟨v :: s.values⟩

/-- The value on top. -/
@[inline] def peek (s : Stack) : Except Error Int64 :=
  match s.values with
  | [] => .error .stackEmpty
  | v :: _ => .ok v

/-- Take the value on top. -/
@[inline] def pop (s : Stack) : Except Error (Int64 × Stack) :=
  match s.values with
  | [] => .error .stackEmpty
  | v :: rest => .ok (v, ⟨rest⟩)

/-- Take the operands of an infix operator, left one first.  A single value
stays where it is. -/
@[inline] def popPair (s : Stack) : Except Error (Int64 × Int64 × Stack) :=
  match s.values with
  | right :: left :: rest => .ok (left, right, ⟨rest⟩)
  | _ => .error .stackEmpty

end Stack

end Mos6510
