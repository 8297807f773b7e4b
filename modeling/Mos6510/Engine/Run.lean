import Mos6510.Engine.State
import Mos6510.Text.Template

/-!
# Running actions

`Action.run` gives every action its effect on the engine.  A meta action has
none: running one is an error.
-/

namespace Mos6510

open Text.Template (Arg)

namespace Engine

/-- The text of a message whose arguments are known. -/
def messageText (formatted : Bool) (args : List Arg) : Except Error String :=
  if formatted then
    match args with
    | .text template :: rest => .ok (Text.Template.fill template rest)
    | _ => .error .messageFormat
  else
    .ok (String.join (args.map fun
      | .text s => s
      | .int v => Text.decimal v.toInt))

/-- Show a message, or fail with it if it is an error. -/
def report (loc : Location) (level : Level) (formatted : Bool) (args : List Arg) :
    EngineM Unit := fun e =>
  match messageText formatted args with
  | .error err => .error err e
  | .ok text =>
    if level == .error then .error (.user text) e
    else .ok () { e with
      log := e.log.add (loc.render ++ ": " ++ level.name ++ ": " ++ text) }

/-- Pop a value into a loop counter.  With nothing to pop the counter is
cleared. -/
def loadCounter (c : Int) : EngineM Unit := do
  let _ ← counter c
  tryCatch (pop >>= setCounter c) fun err => do
    setCounter c 0
    throw err

/-- Store the part of a binary file that the stack selects. -/
def storeBytes (bytes : List UInt8) : EngineM Unit := do
  let length ← pop
  let skip ← pop
  emitBytes false (selectBytes skip length bytes)

/-- Apply an infix operator to the top of the stack. -/
@[inline] def applyBinary (op : BinaryOp) : EngineM Unit := do
  let (a, b) ← popPair
  match op.value? a b with
  | some v => push v
  | none => throw .divisionByZero

end Engine

/-- Attach a location to the error of an operation. -/
def EngineM.locating {α : Type} (loc : Location) (m : EngineM α) : EngineM α :=
  tryCatch m fun err => throw (err.atLocation loc)

mutual

def Action.run : Action → EngineM Unit
  | ⟨loc, op, _⟩ => op.run loc

/-- The effect of an action that stands at a location. -/
def Op.run : Op → Location → EngineM Unit
  | .load v, _ => do
    Engine.startOperand
    Engine.push v
  | .get name, _ => do
    Engine.startOperand
    let v ← Engine.readSymbol name
    Engine.push v
  | .set name, _ => do
    let v ← Engine.pop
    Engine.assign name v
  | .unary op, _ => do
    let v ← Engine.pop
    Engine.push (op.apply v)
  | .binary op, _ => Engine.applyBinary op
  | .instruction code, _ => Engine.encode (Opcode.ofCode code)
  | .width mnemonic index, _ => Engine.encodeWidth mnemonic index
  | .data word, _ => do
    let v ← Engine.pop
    Engine.emitSized .data word v
  | .text word bytes, _ => Engine.emitBytes word bytes
  | .bytes _ bytes, _ => Engine.storeBytes bytes
  | .label name synthetic, _ => Engine.placeLabel name synthetic
  | .jump j, _ => Engine.requestJump j
  | .jumpIfFalse j, _ => do
    let v ← Engine.pop
    if v == 0 then Engine.requestJump j
  | .counterSet c, _ => Engine.loadCounter c
  | .counterTest c j, _ => do
    let v ← Engine.counter c
    if v ≤ 0 then Engine.requestJump j
  | .counterStep c j, _ => do
    let v ← Engine.counter c
    Engine.setCounter c (v - 1)
    Engine.requestJump j
  | .message level formatted args, loc => do
    let e ← get
    if e.isFinal then
      let values ← argValues args
      Engine.report loc level formatted values
  | .target _, _ => throw (.metaExecuted .target)
  | .string _, _ => throw (.metaExecuted .string)
  | .defineMacro _ _ _, _ => throw (.metaExecuted .defineMacro)
  | .callMacro _ _, _ => throw (.metaExecuted .callMacro)
  | .metaLabel _, _ => throw (.metaExecuted .metaLabel)
  | .goto _, _ => throw (.metaExecuted .goto)
  | .includeSource _, _ => throw (.metaExecuted .includeSource)
  | .includeBinary _ _, _ => throw (.metaExecuted .includeBinary)

/-- The values of message arguments, from left to right. -/
def argValues : List (List Action) → EngineM (List Arg)
  | [] => pure []
  | [⟨_, .string s, _⟩] :: rest => do
    let values ← argValues rest
    pure (.text s :: values)
  | expr :: rest => do
    runEach expr
    let v ← Engine.pop
    let values ← argValues rest
    pure (.int v :: values)

/-- Run actions in order, giving an error the location of the action that
raised it. -/
def runEach : List Action → EngineM Unit
  | [] => pure ()
  | a :: rest => do
    EngineM.locating a.location a.run
    runEach rest

end

/-- The value of an expression. -/
def evaluate (expr : List Action) : EngineM Int64 := do
  runEach expr
  Engine.pop

end Mos6510
