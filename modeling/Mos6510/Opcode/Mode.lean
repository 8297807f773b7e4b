import Mos6510.Text.Digits

/-!
# Addressing modes
-/

namespace Mos6510

/-- How an instruction names its operand. -/
inductive Mode where
  | implied
  | relative
  | immediate
  | absolute
  | absoluteX
  | absoluteY
  | zeroPage
  | zeroPageX
  | zeroPageY
  | indirect
  | indirectX
  | indirectY
  deriving DecidableEq, Repr, Inhabited

namespace Mode

def all : List Mode :=
  [implied, relative, immediate, absolute, absoluteX, absoluteY,
    zeroPage, zeroPageX, zeroPageY, indirect, indirectX, indirectY]

def name : Mode → String
  | implied => "imp"
  | relative => "rel"
  | immediate => "imm"
  | absolute => "abs"
  | absoluteX => "abx"
  | absoluteY => "aby"
  | zeroPage => "zp"
  | zeroPageX => "zpx"
  | zeroPageY => "zpy"
  | indirect => "ind"
  | indirectX => "izx"
  | indirectY => "izy"

/-- Number of operand bytes after the opcode byte. -/
def size : Mode → Nat
  | implied => 0
  | absolute => 2
  | absoluteX => 2
  | absoluteY => 2
  | indirect => 2
  | _ => 1

/-- An operand in the form the mode is written in. -/
def format (mode : Mode) (operand : String) : String :=
  match mode with
  | implied => ""
  | immediate => "#" ++ operand
  | absoluteX => operand ++ ",X"
  | zeroPageX => operand ++ ",X"
  | absoluteY => operand ++ ",Y"
  | zeroPageY => operand ++ ",Y"
  | indirect => "(" ++ operand ++ ")"
  | indirectX => "(" ++ operand ++ ",X)"
  | indirectY => "(" ++ operand ++ "),Y"
  | _ => operand

end Mode

end Mos6510
