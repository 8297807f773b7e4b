import Mos6510.Image
import Mos6510.Listing
import Mos6510.Log
import Mos6510.Machine
import Mos6510.Tape
import Mos6510.Text.Duration

/-!
# Emulation

A program runs like a subroutine: it is done when it returns to address zero,
or at a `BRK`.  Two routines of the system are there, one that writes a
character to the tape and one that reads one.  Undocumented instructions are
errors.
-/

namespace Mos6510

/-- A machine with its tape and what is known of the program. -/
structure Emulator where
  machine : Machine := {}
  /-- Executes the instruction at the program counter. -/
  processor : Machine → Machine := Machine.step
  tape : Tape := {}
  log : Log := {}
  /-- Report every instruction. -/
  verbose : Bool := false
  /-- The budget of a run, unlimited if zero. -/
  maxCycles : UInt64 := 0
  /-- Labels of addresses, for reports. -/
  labels : UInt16 → Option String := fun _ => none
  /-- Source of addresses, for errors. -/
  source : UInt16 → Option Location := fun _ => none

abbrev EmulatorM := EStateM Error Emulator

namespace Emulator

/-- Clock of a PAL machine in hertz. -/
def clock : Int64 := 985248

/-- The system routine that writes the accumulator. -/
def writeRoutine : UInt16 := 0xFFD2

/-- The system routine that reads into the accumulator. -/
def readRoutine : UInt16 := 0xFFCF

/-- Where the last return of a program goes. -/
def returnAddress : UInt16 := 0

/-- An emulator whose system routines return at once. -/
def fresh : Emulator :=
  let rts : UInt8 := 0x60
  { machine := { memory := (Memory.zero.set writeRoutine rts).set readRoutine rts } }

/-- Make a program known. -/
def know (e : Emulator) (p : Program) : Emulator :=
  { e with labels := byAddress p.labelMap, source := byAddress p.source }

/-- Load an image from disk to its address. -/
def load (prg : List UInt8) : EmulatorM UInt16 := fun e =>
  match Image.ofPrg prg with
  | .error err => .error err e
  | .ok img =>
    if memorySize < img.start.toNat + img.bytes.length then .error .imageTooLarge e
    else
      .ok img.start { e with
        machine := { e.machine with memory := e.machine.memory.store img.start img.bytes } }

/-- Prepare a call of an address, and start to count cycles. -/
def call (e : Emulator) (start : UInt16) : Emulator :=
  let m := { e.machine with sp := 0xFF }.pushWord (returnAddress - 1)
  { e with machine := { m with pc := start, cycles := 0 } }

/-- The source of an address, where known. -/
def locationOf (e : Emulator) (a : UInt16) : Location := (e.source a).getD {}

/-- Cycles since the last call. -/
def cycles (e : Emulator) : UInt64 := e.machine.cycles

/-- The time that the cycles take, in nanoseconds of 64 bits. -/
def elapsed (e : Emulator) : Int64 := e.cycles.toInt64 * 1000000000 / clock

/-- The report of an instruction. -/
def traceLine (e : Emulator) : String :=
  let m := e.machine
  let text := (disassemble? e.labels m.pc (m.memory.slice m.pc 3)).map (·.1)
  Text.hex 4 m.pc.toNat ++ "  A=" ++ Text.hex 2 m.a.toNat ++ " X=" ++ Text.hex 2 m.x.toNat
    ++ " Y=" ++ Text.hex 2 m.y.toNat ++ " SP=" ++ Text.hex 2 m.sp.toNat ++ "  " ++ text.getD ""

def runLine (e : Emulator) : String :=
  "emulation: " ++ Text.decimal e.cycles.toNat ++ " cycles, " ++ Text.duration e.elapsed.toInt

/-- Do what the system routine at the program counter does besides
returning. -/
def serve (e : Emulator) : Except Error Emulator :=
  if e.machine.pc == writeRoutine then
    match e.tape.send e.machine.a with
    | .ok tape => .ok { e with tape := tape }
    | .error err => .error err
  -- at the end of the input the program reads a carriage return
  else if e.machine.pc == readRoutine then
    let (b, _, tape) := e.tape.receive
    .ok { e with tape := tape, machine := { e.machine with a := b } }
  else .ok e

def overBudget (e : Emulator) : Bool := e.maxCycles != 0 && e.maxCycles < e.cycles

/-- Execute a documented instruction. -/
def advance (e : Emulator) : EStateM.Result Error Emulator Bool :=
  let e := if e.verbose then { e with log := e.log.add e.traceLine } else e
  let e := { e with machine := e.processor e.machine }
  if e.overBudget then .error (.cycleLimit e.maxCycles) e else .ok false e

/-- Execute what is at the program counter, unless the program is done. -/
def stepInner : EmulatorM Bool := fun e =>
  if e.machine.pc == returnAddress then .ok true e
  else
    match e.serve with
    | .error err => .error err e
    | .ok e =>
      let op := Opcode.ofCode (e.machine.memory.get e.machine.pc)
      -- a `BRK` ends the program
      if op.code == 0 then .ok true e
      else if op.mnemonic == .kil then .error .jammed e
      else if !op.documented then .error (.illegalOpcode op.code) e
      else e.advance

/-- Execute one instruction.  The answer says whether the program is done; an
error names the instruction. -/
def step : EmulatorM Bool := fun e =>
  let pc := e.machine.pc
  match stepInner e with
  | .ok done e => .ok done e
  | .error err e => .error (.running pc (e.locationOf pc) err) e

/-- Execute instructions until the program is done, but no more than a
number. -/
def steps : Nat → EmulatorM Bool
  | 0 => fun e => .ok false e
  | n + 1 => fun e =>
    match step e with
    | .ok true e => .ok true e
    | .ok false e => steps n e
    | .error err e => .error err e

/-- As many instructions as a run can have: each takes at least one cycle of
the budget.  Without a budget there are more than can ever be executed. -/
def stepBound (e : Emulator) : Nat :=
  if e.maxCycles == 0 then 0x4000000000000000 else e.maxCycles.toNat + 1

def noteRun (e : Emulator) : Emulator :=
  { e with log := e.log.addIf e.verbose e.runLine }

/-- Call an address and run until the program is done or fails.  A run that is
cancelled stops before its first instruction. -/
def run (cancelled : Bool) (start : UInt16) : EmulatorM Unit := fun e =>
  let e := e.call start
  if cancelled then .error .cancelled e
  else
    match steps e.stepBound e with
    | .ok _ e => .ok () e.noteRun
    | .error err e => .error err e.noteRun

end Emulator

end Mos6510
