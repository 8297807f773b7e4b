import Mos6510.Location
import Mos6510.Opcode.Matrix
import Mos6510.Operator

/-!
# Actions

A program is lowered to a flat list of actions, small steps on a stack of
numbers.  An action is a template: running it never changes it, all state
lives in the engine.

Jumps and loop counters are named by numbers.  Those of lowered statements
count from zero; `noJump` names no jump at all.

Most actions are executed in every compile pass.  The *meta* actions are gone
before execution: jump targets become positions, includes and macro calls are
replaced by what they stand for, `.LABEL` and `.GOTO` become jumps.
-/

namespace Mos6510

/-- The index register of an indexed operand. -/
inductive Index where
  | none
  | x
  | y
  deriving DecidableEq, Repr, Inhabited

def Index.all : List Index := [.none, .x, .y]

def Index.name : Index → String
  | .none => "none"
  | .x => "x"
  | .y => "y"

/-- How grave a message of the program is. -/
inductive Level where
  | info
  | warning
  | error
  deriving DecidableEq, Repr, Inhabited

def Level.all : List Level := [.info, .warning, .error]

/-- The name of a level, as messages show it. -/
def Level.name : Level → String
  | .info => "info"
  | .warning => "warning"
  | .error => "error"

/-- The kinds of actions. -/
inductive OpKind where
  | load
  | get
  | set
  | unary
  | binary
  | instruction
  | width
  | data
  | text
  | bytes
  | label
  | target
  | jump
  | jumpIfFalse
  | counterSet
  | counterTest
  | counterStep
  | message
  | string
  | defineMacro
  | callMacro
  | metaLabel
  | goto
  | includeSource
  | includeBinary
  deriving DecidableEq, Repr, Inhabited

namespace OpKind

/-- Every kind, in order. -/
def all : List OpKind :=
  [load, get, set, unary, binary, instruction, width, data, text, bytes, label,
    target, jump, jumpIfFalse, counterSet, counterTest, counterStep, message,
    string, defineMacro, callMacro, metaLabel, goto, includeSource, includeBinary]

def name : OpKind → String
  | load => "load"
  | get => "get"
  | set => "set"
  | unary => "unary"
  | binary => "binary"
  | instruction => "instruction"
  | width => "instruction.width"
  | data => "data"
  | text => "string.write"
  | bytes => "bytes.write"
  | label => "label"
  | target => "jump.target"
  | jump => "jump"
  | jumpIfFalse => "jump.false"
  | counterSet => "counter.set"
  | counterTest => "counter.compare"
  | counterStep => "counter.decrement"
  | message => "message"
  | string => "string"
  | defineMacro => ".macro"
  | callMacro => ".call"
  | metaLabel => ".label"
  | goto => ".goto"
  | includeSource => ".include"
  | includeBinary => ".incbin"

/-- Kinds of actions that are gone before execution. -/
def isMeta : OpKind → Bool
  | target | string | defineMacro | callMacro | metaLabel | goto
  | includeSource | includeBinary => true
  | _ => false

end OpKind

/-- The number that stands for no jump. -/
def noJump : Int := -1

/-- The macro call that an action was instantiated from. -/
structure Expansion where
  /-- Name of the macro. -/
  name : String
  /-- Location of the call. -/
  call : Location
  /-- Sequence number of the call. -/
  seq : Nat
  deriving DecidableEq, Repr, Inhabited

mutual

/-- One step of a lowered program. -/
structure Action where
  location : Location
  op : Op
  /-- Set on actions instantiated from a macro body. -/
  expansion : Option Expansion

/-- What an action does. -/
inductive Op where
  /-- Push a constant. -/
  | load (value : Int64)
  /-- Push the value of a variable or label. -/
  | get (name : String)
  /-- Pop a value into a variable. -/
  | set (name : String)
  /-- Apply a prefix operator to the top of the stack. -/
  | unary (op : UnaryOp)
  /-- Apply an infix operator to the top two values of the stack. -/
  | binary (op : BinaryOp)
  /-- Encode an instruction by its opcode byte. -/
  | instruction (code : UInt8)
  /-- Encode an instruction in the zero page or absolute mode that the value
  of its operand asks for. -/
  | width (mnemonic : String) (index : Index)
  /-- Pop a value and store it as a byte or word of data. -/
  | data (word : Bool)
  /-- Store each byte of a text as a byte or word of data. -/
  | text (word : Bool) (bytes : List UInt8)
  /-- Pop a length and a skip, and store that part of a binary file. -/
  | bytes (name : String) (bytes : List UInt8)
  /-- Set a label to the program counter.  Macro calls make synthetic ones. -/
  | label (name : String) (synthetic : Bool)
  /-- Where jumps with this number go. -/
  | target (jump : Int)
  /-- Go to a jump target. -/
  | jump (jump : Int)
  /-- Pop a value and go to a jump target if it is zero. -/
  | jumpIfFalse (jump : Int)
  /-- Pop a value into a loop counter. -/
  | counterSet (counter : Int)
  /-- Go to a jump target unless the counter is positive. -/
  | counterTest (counter jump : Int)
  /-- Count down and go to a jump target. -/
  | counterStep (counter jump : Int)
  /-- Show a message in the final pass.  An argument is an expression, or a
  single `string`. -/
  | message (level : Level) (formatted : Bool) (args : List (List Action))
  /-- A text argument of a message. -/
  | string (value : String)
  /-- Define a macro. -/
  | defineMacro (name : String) (params : List String) (body : List Action)
  /-- Call a macro. -/
  | callMacro (name : String) (args : List (List Action))
  /-- A destination for `goto`. -/
  | metaLabel (name : String)
  /-- Go to a `metaLabel`. -/
  | goto (name : String)
  /-- Stands for the actions of another source file. -/
  | includeSource (name : String)
  /-- Stands for the contents of a binary file; the arguments push skip and length. -/
  | includeBinary (name : String) (args : List (List Action))

end

namespace Op

def kind : Op → OpKind
  | load _ => .load
  | get _ => .get
  | set _ => .set
  | unary _ => .unary
  | binary _ => .binary
  | instruction _ => .instruction
  | width _ _ => .width
  | data _ => .data
  | text _ _ => .text
  | bytes _ _ => .bytes
  | label _ _ => .label
  | target _ => .target
  | jump _ => .jump
  | jumpIfFalse _ => .jumpIfFalse
  | counterSet _ => .counterSet
  | counterTest _ _ => .counterTest
  | counterStep _ _ => .counterStep
  | message _ _ _ => .message
  | string _ => .string
  | defineMacro _ _ _ => .defineMacro
  | callMacro _ _ => .callMacro
  | metaLabel _ => .metaLabel
  | goto _ => .goto
  | includeSource _ => .includeSource
  | includeBinary _ _ => .includeBinary

/-- Is the action gone before execution? -/
def isMeta (op : Op) : Bool := op.kind.isMeta

/-- What stands after the kind when an action is shown. -/
def detail : Op → String
  | load v => Text.decimal v.toInt
  | get name => name
  | set name => name
  | unary op => op.symbol
  | binary op => op.symbol
  | instruction code => (Opcode.ofCode code).render
  | width mnemonic index => mnemonic ++ "," ++ index.name
  | bytes name _ => name
  | label name _ => name
  | target j => "#" ++ Text.decimal j
  | jump j => "#" ++ Text.decimal j
  | jumpIfFalse j => "#" ++ Text.decimal j
  | counterSet c => "c" ++ Text.decimal c
  | counterTest c j => "c" ++ Text.decimal c ++ " #" ++ Text.decimal j
  | counterStep c j => "c" ++ Text.decimal c ++ " #" ++ Text.decimal j
  | string value => value
  | defineMacro name _ _ => name
  | callMacro name _ => name
  | metaLabel name => name
  | goto name => name
  | includeSource name => name
  | includeBinary name _ => name
  | data _ | text _ _ | message _ _ _ => ""

def render (op : Op) : String :=
  if op.detail.isEmpty then op.kind.name else op.kind.name ++ " " ++ op.detail

end Op

namespace Action

instance : Inhabited Action := ⟨⟨{}, .load 0, none⟩⟩

/-- An action written in the source itself. -/
def plain (loc : Location) (op : Op) : Action := ⟨loc, op, none⟩

/-- Push a constant. -/
def load (loc : Location) (value : Int64) : Action := plain loc (.load value)

/-- Push the value of a symbol. -/
def get (loc : Location) (name : String) : Action := plain loc (.get name)

/-- Pop a value into a variable. -/
def set (loc : Location) (name : String) : Action := plain loc (.set name)

def render (a : Action) : String := a.op.render

end Action

end Mos6510
