import Mos6510.Operand

/-!
# Statements

What a line of source asks for, with its expressions in postfix order.
-/

namespace Mos6510

/-- An argument of a message. -/
inductive MessageArg where
  | text (value : String)
  | expr (value : List Action)
  deriving Inhabited

/-- One statement. -/
inductive Statement where
  /-- Assign a variable, or the program counter `@`. -/
  | assign (name : String) (expr : List Action)
  /-- Place a label. -/
  | label (name : String)
  | instruction (mnemonic : String) (operand : Operand)
  /-- Store the value of an expression. -/
  | data (word : Bool) (expr : List Action)
  /-- Store the bytes of a text. -/
  | text (word : Bool) (bytes : List UInt8)
  | openIf (cond : List Action)
  | elseIf (cond : List Action)
  | otherwise
  | closeIf
  | openRepeat (count : List Action)
  | closeRepeat
  | openWhile (cond : List Action)
  | closeWhile
  | openMacro (name : String) (params : List String)
  | closeMacro
  | call (name : String) (args : List (List Action))
  | metaLabel (name : String)
  | goto (name : String)
  | message (level : Level) (formatted : Bool) (args : List MessageArg)
  | includeSource (name : String)
  | includeBinary (name : String) (skip length : List Action)
  deriving Inhabited

/-- A statement at its place in the source. -/
structure Line where
  location : Location
  statement : Statement
  deriving Inhabited

end Mos6510
