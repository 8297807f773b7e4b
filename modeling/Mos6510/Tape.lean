import Mos6510.Error

/-!
# The tape

The character device of an emulated program.  A carriage return is written as
a newline, and a newline is read as a carriage return.
-/

namespace Mos6510

/-- The character device. -/
structure Tape where
  /-- What is still to be read. -/
  input : List UInt8 := []
  /-- Does somebody take the output? -/
  connected : Bool := true
  /-- How many characters can still be written, if that is limited. -/
  room : Option Nat := none
  /-- What was written, latest first. -/
  written : List UInt8 := []
  deriving DecidableEq, Repr, Inhabited

namespace Tape

/-- The carriage return, the end of a line for programs. -/
def carriageReturn : UInt8 := 0x0D

/-- The newline, the end of a line outside. -/
def newline : UInt8 := 0x0A

/-- A character on its way out. -/
def outward (b : UInt8) : UInt8 := if b = carriageReturn then newline else b

/-- A character on its way in. -/
def inward (b : UInt8) : UInt8 := if b = newline then carriageReturn else b

/-- Write a character.  Without somebody to take it, it is dropped. -/
def send (t : Tape) (b : UInt8) : Except Error Tape :=
  if !t.connected then .ok t
  else match t.room with
    | some 0 => .error .tapeFull
    | some (n + 1) => .ok { t with room := some n, written := outward b :: t.written }
    | none => .ok { t with written := outward b :: t.written }

/-- Read a character.  At the end of the input there is none, and a carriage
return stands for it. -/
def receive (t : Tape) : UInt8 × Bool × Tape :=
  match t.input with
  | [] => (carriageReturn, false, t)
  | b :: rest => (inward b, true, { t with input := rest })

/-- All that was written. -/
def output (t : Tape) : List UInt8 := t.written.reverse

end Tape

end Mos6510
