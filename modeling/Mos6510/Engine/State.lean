import Mos6510.Log
import Mos6510.Pass
import Mos6510.Region
import Mos6510.Stack
import Mos6510.Symbol

/-!
# The engine

The state of an assembly while its actions are executed: the symbols, the
program counter, the arithmetic stack, the bytes emitted so far.  What an
operation did before it failed stays done.
-/

namespace Mos6510

/-- The state of the execution of actions. -/
structure Engine where
  /-- Report labels as they are placed. -/
  verbose : Bool := false
  pass : Pass := .includes
  /-- The variables, apart from the program counter. -/
  vars : SymbolTable := {}
  labels : SymbolTable := {}
  /-- The program counter, the variable `@`. -/
  pc : Cell := {}
  stack : Stack := {}
  /-- The regions emitted in this pass, latest first. -/
  regions : List Region := []
  /-- The label that scopes local names. -/
  parent : String := ""
  /-- A jump that was asked for and not yet made. -/
  jump : Option Int := none
  /-- Number of jumps made in this pass. -/
  jumps : Nat := 0
  counters : Array Int64 := #[]
  /-- Did the current expression read a symbol without a value? -/
  unresolved : Bool := false
  /-- Location of the action in progress. -/
  location : Location := {}
  /-- What emitted each byte of the final pass, latest first. -/
  source : List (UInt16 × Location) := []
  log : Log := {}
  deriving DecidableEq, Repr, Inhabited

abbrev EngineM := EStateM Error Engine

namespace Engine

/-- Reading a symbol without a value is an error in a strict pass. -/
def strict (e : Engine) : Bool := e.pass.isStrict

/-- Is this the pass that produces the program? -/
def isFinal (e : Engine) : Bool := e.pass == .final

/-- Start a pass.  The symbols keep their values, apart from the program
counter. -/
def begin (pass : Pass) (e : Engine) : Engine :=
  { e with
    pass := pass
    pc := {}
    stack := {}
    regions := []
    parent := ""
    jump := none
    jumps := 0
    unresolved := false
    source := if pass == .final then [] else e.source }

/-! ## The stack -/

@[inline] def push (v : Int64) : EngineM Unit := fun e =>
  match e.stack.push v with
  | .ok s => .ok () { e with stack := s }
  | .error err => .error err e

@[inline] def pop : EngineM Int64 := fun e =>
  match e.stack.pop with
  | .ok (v, s) => .ok v { e with stack := s }
  | .error err => .error err e

/-- The value on top of the stack. -/
@[inline] def peek : EngineM Int64 := fun e =>
  match e.stack.peek with
  | .ok v => .ok v e
  | .error err => .error err e

/-- Pop the operands of an infix operator, left one first. -/
@[inline] def popPair : EngineM (Int64 × Int64) := fun e =>
  match e.stack.popPair with
  | .ok (a, b, s) => .ok (a, b) { e with stack := s }
  | .error err => .error err e

/-- An operand on an empty stack starts a new expression. -/
@[inline] def startOperand : EngineM Unit := fun e =>
  .ok () { e with unresolved := e.unresolved && !e.stack.values.isEmpty }

/-! ## Symbols -/

/-- The cell of a full name: a variable, or else a label. -/
def cell? (e : Engine) (full : String) : Option Cell :=
  if full == pcName then some e.pc
  else (e.vars.find? full).or (e.labels.find? full)

/-- Is the full name that of a variable? -/
def isVariable (e : Engine) (full : String) : Bool :=
  full == pcName || e.vars.contains full

/-- Change the cell of a full name. -/
def updateCell (e : Engine) (full : String) (f : Cell → Cell) : Engine :=
  if full == pcName then { e with pc := f e.pc }
  else if e.vars.contains full then { e with vars := e.vars.update full f }
  else { e with labels := e.labels.update full f }

/-- Note that a symbol was read. -/
@[inline] def markRead (full : String) (c : Cell) (e : Engine) : Engine :=
  if c.wasRead then e else e.updateCell full Cell.read

/-- Read a symbol.  Before the strict passes a symbol without a value reads
as zero, and the expression counts as unresolved. -/
def readSymbol (name : String) : EngineM Int64 := fun e =>
  match qualify name e.parent with
  | .error err => .error err e
  | .ok full =>
    match e.cell? full with
    | none => .error (.undefinedSymbol full) e
    | some c =>
      if c.isSet then .ok c.value (e.markRead full c)
      else if e.strict then .error (.uninitialized full) e
      else .ok c.value { e.markRead full c with unresolved := true }

/-- Assign a variable.  The program counter holds sixteen bits; labels cannot
be assigned. -/
def assign (name : String) (v : Int64) : EngineM Unit := fun e =>
  match qualify name e.parent with
  | .error err => .error err e
  | .ok full =>
    if full == pcName then .ok () { e with pc := e.pc.assign (v &&& 0xFFFF) }
    else if e.vars.contains full then
      .ok () { e with vars := e.vars.update full (·.assign v) }
    else .error (.undefinedSymbol full) e

/-- The program counter, once it is set. -/
def pcAddress? (e : Engine) : Option UInt16 :=
  if e.pc.isSet then some e.pc.value.toUInt64.toUInt16 else none

/-- The program counter. -/
def pcAddress : EngineM UInt16 := fun e =>
  match e.pcAddress? with
  | some a => .ok a e
  | none => .error .pcUnset e

/-- The address that a label gets.  A synthetic label met before the program
counter is set gets zero. -/
def labelAddress? (e : Engine) (synthetic : Bool) : Option UInt16 :=
  if synthetic && !e.pc.isSet then some 0 else e.pcAddress?

/-- Set a label to the program counter.  A parent label scopes the local
names after it. -/
def placeLabel (name : String) (synthetic : Bool) : EngineM Unit := fun e =>
  match qualify name e.parent with
  | .error err => .error err e
  | .ok full =>
    if e.labels.contains full then
      match e.labelAddress? synthetic with
      | none => .error .pcUnset e
      | some a =>
        .ok () { e with
          labels := e.labels.update full (·.assign (Int64.ofNat a.toNat))
          parent := if isParentLabel name synthetic then full else e.parent
          log := e.log.addIf (e.verbose && e.isFinal)
            (e.location.render ++ ": " ++ full ++ " = $" ++ Text.hex 4 a.toNat) }
    else .error (.undefinedSymbol full) e

/-- Make a variable known.  The program counter always is. -/
def declareVariable (name parent : String) : EngineM Unit := fun e =>
  if name == pcName then .ok () e
  else match qualify name parent with
    | .error err => .error err e
    | .ok full =>
      if e.labels.contains full then .error (.conflict full) e
      else if e.isVariable full then .ok () e
      else .ok () { e with vars := e.vars.declare full }

/-- Make a label known.  The result is the parent of the names after it. -/
def declareLabel (name : String) (synthetic : Bool) (parent : String) : EngineM String := fun e =>
  match qualify name parent with
  | .error err => .error err e
  | .ok full =>
    if e.isVariable full then .error (.conflict full) e
    else if e.labels.contains full then .error (.duplicateLabel full) e
    else .ok (if isParentLabel name synthetic then full else parent)
      { e with labels := e.labels.declare full }

/-! ## Bytes -/

/-- Does a byte at an address go on with a region? -/
@[inline] def goesOn (kind : RegionKind) (a : UInt16) (r : Region) : Bool :=
  r.kind == kind && r.stop == a.toNat

/-- Add a byte at an address: to the latest region if it is of the kind and
ends there, else to a new one. -/
def extendRegions (kind : RegionKind) (a : UInt16) (b : UInt8) : List Region → List Region
  | [] => [({ start := a, kind := kind } : Region).push b]
  | r :: rest =>
    if goesOn kind a r then r.push b :: rest
    else ({ start := a, kind := kind } : Region).push b :: r :: rest

/-- Is there no room for a byte in the region that it goes on with? -/
def noRoom (kind : RegionKind) (a : UInt16) : List Region → Bool
  | [] => false
  | r :: _ => goesOn kind a r && r.isFull

/-- Move the program counter on by one.  It is moved even when it wraps. -/
def advancePc (a : UInt16) : EngineM Unit := fun e =>
  let next : UInt16 := a + 1
  let e := { e with pc := e.pc.assign (Int64.ofNat next.toNat) }
  if next == 0 then .error .pcWrap e else .ok () e

/-- Emit the low byte of a value at the program counter. -/
def emit (kind : RegionKind) (v : Int64) : EngineM Unit := fun e =>
  match e.pcAddress? with
  | none => .error .pcUnset e
  | some a =>
    if noRoom kind a e.regions then .error .regionOverflow e
    else
      let e := { e with regions := extendRegions kind a v.toUInt64.toUInt8 e.regions }
      let e := if e.isFinal then { e with source := (a, e.location) :: e.source } else e
      advancePc a e

/-- Emit a word, low byte first. -/
def emitWord (kind : RegionKind) (v : Int64) : EngineM Unit := do
  emit kind v
  emit kind (v >>> 8)

/-- Emit a byte or a word. -/
def emitSized (kind : RegionKind) (word : Bool) (v : Int64) : EngineM Unit :=
  if word then emitWord kind v else emit kind v

/-- Emit each byte as a byte or a word of data. -/
def emitBytes (word : Bool) : List UInt8 → EngineM Unit
  | [] => pure ()
  | b :: rest => do
    emitSized .data word (Int64.ofNat b.toNat)
    emitBytes word rest

/-- The part of a file that a skip and a length select.  A skip stays inside
the file; a negative length means the rest of it. -/
def selectBytes (skip length : Int64) (bytes : List UInt8) : List UInt8 :=
  let rest := bytes.drop skip.toInt.toNat
  if length < 0 then rest else rest.take length.toInt.toNat

/-! ## Loops -/

@[inline] def requestJump (j : Int) : EngineM Unit := fun e =>
  .ok () { e with jump := if j = noJump then none else some j }

/-- The value of a loop counter, if there is one of that number. -/
def counter? (e : Engine) (c : Int) : Option Int64 :=
  if c < 0 then none else e.counters[c.toNat]?

/-- The value of a loop counter. -/
@[inline] def counter (c : Int) : EngineM Int64 := fun e =>
  match e.counter? c with
  | some v => .ok v e
  | none => .error (.unknownCounter c) e

@[inline] def setCounter (c : Int) (v : Int64) : EngineM Unit := fun e =>
  .ok () { e with counters := e.counters.setIfInBounds c.toNat v }

/-! ## Instructions -/

/-- The mode of a direct operand: zero page for addresses below 256. -/
def directMode (index : Index) (small : Bool) : Mode :=
  match index, small with
  | .none, true => .zeroPage
  | .none, false => .absolute
  | .x, true => .zeroPageX
  | .x, false => .absoluteX
  | .y, true => .zeroPageY
  | .y, false => .absoluteY

/-- How far a branch at `a` has to go to reach an operand. -/
def branchDistance (operand : Int64) (a : UInt16) : Int64 :=
  (operand &&& 0xFFFF) - (Int64.ofNat a.toNat + 1)

/-- Emit the operand of a branch.  A branch to a symbol without a value goes
nowhere yet. -/
def emitBranch (operand : Int64) : EngineM Unit := do
  let a ← pcAddress
  let e ← get
  if e.strict || !e.unresolved then
    let d := branchDistance operand a
    if d < -128 || 127 < d then throw (.branchReach d) else emit .code d
  else emit .code 0

/-- Encode an instruction.  Its operand is on the stack. -/
def encode (op : Opcode) : EngineM Unit := do
  if op.mode == .implied then emit .code (Int64.ofNat op.code.toNat)
  else
    let operand ← pop
    emit .code (Int64.ofNat op.code.toNat)
    if op.mode == .relative then emitBranch operand
    else emitSized .code (op.mode.size == 2) operand

/-- Encode an instruction in the mode that the value of its operand asks for. -/
def encodeWidth (mnemonic : String) (index : Index) : EngineM Unit := do
  let v ← peek
  let mode := directMode index (decide (v &&& 0xFFFF < 256))
  match (Mnemonic.ofName? mnemonic).bind (·.encoding? mode) with
  | some op => encode op
  | none => throw .illegalMode

end Engine

end Mos6510
