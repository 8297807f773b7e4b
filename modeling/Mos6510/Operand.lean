import Mos6510.Constant

/-!
# Operands

The written form of an operand and the addressing modes it can stand for.
A direct operand may be in the zero page: if its value is known, that settles
the mode; if it is not, and the instruction has both encodings, the choice is
left to each pass.
-/

namespace Mos6510

/-- The written form of an operand. -/
inductive OperandForm where
  | implied
  | immediate
  | direct
  | indirect
  | indirectX
  | indirectY
  deriving DecidableEq, Repr, Inhabited

def OperandForm.all : List OperandForm :=
  [.implied, .immediate, .direct, .indirect, .indirectX, .indirectY]

/-- How a form is written. -/
def OperandForm.name : OperandForm → String
  | .implied => "implied"
  | .immediate => "#expr"
  | .direct => "expr"
  | .indirect => "(expr)"
  | .indirectX => "(expr,X)"
  | .indirectY => "(expr),Y"

def OperandForm.mode? : OperandForm → Option Mode
  | .implied => some .implied
  | .immediate => some .immediate
  | .direct => none
  | .indirect => some .indirect
  | .indirectX => some .indirectX
  | .indirectY => some .indirectY

/-- An operand as written. -/
structure Operand where
  form : OperandForm := .implied
  /-- Index register of a direct operand. -/
  index : Index := .none
  /-- The expression, empty for an implied operand. -/
  expr : List Action := []
  deriving Inhabited

namespace Operand

/-- An instruction with a known mode. -/
def fixed (loc : Location) (m : Mnemonic) (expr : List Action) (mode : Mode) :
    Except Error (List Action) :=
  match m.encoding? mode with
  | some op => .ok (expr ++ [Action.plain loc (.instruction op.code)])
  | none => .error .illegalMode

def direct (loc : Location) (m : Mnemonic) (index : Index) (expr : List Action) :
    Except Error (List Action) :=
  let short := Engine.directMode index true
  let long := Engine.directMode index false
  if !m.has short && !m.has long then .error .illegalMode
  else
    match constantValue? expr with
    | .error err => .error err
    | .ok (some v) =>
      if decide (v &&& 0xFFFF < 256) && m.has short then fixed loc m expr short
      else fixed loc m expr long
    | .ok none =>
      if m.has short && m.has long then
        .ok (expr ++ [Action.plain loc (.width m.name index)])
      else if m.has short then fixed loc m expr short
      else fixed loc m expr long

/-- The actions of an instruction: its operand, then its encoding. -/
def resolve (loc : Location) (mnemonic : String) (operand : Operand) :
    Except Error (List Action) :=
  match Mnemonic.ofName? mnemonic with
  | none => .error (.unknownMnemonic mnemonic)
  | some m =>
    match foldConstant operand.expr with
    | .error err => .error err
    | .ok expr =>
      match operand.form.mode? with
      | some mode => fixed loc m expr mode
      | none =>
        if m.isBranch then
          if operand.index == .none then fixed loc m expr .relative else .error .illegalMode
        else direct loc m operand.index expr

end Operand

end Mos6510
