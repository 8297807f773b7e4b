import Mos6510.Machine.Memory
import Mos6510.Opcode.Matrix

/-!
# The processor

An NMOS processor with its documented instructions.  `Machine.step` executes
the instruction at the program counter and counts its cycles.
-/

namespace Mos6510

/-- The processor flags. -/
structure Flags where
  negative : Bool := false
  overflow : Bool := false
  decimal : Bool := false
  noInterrupt : Bool := false
  zero : Bool := false
  carry : Bool := false
  deriving DecidableEq, Repr, Inhabited

namespace Flags

@[inline] def bit (b : Bool) (mask : UInt8) : UInt8 := if b then mask else 0

/-- The flags as a byte, without the two bits that stand for no flag. -/
def toByte (f : Flags) : UInt8 :=
  bit f.negative 0x80 ||| bit f.overflow 0x40 ||| bit f.decimal 0x08
    ||| bit f.noInterrupt 0x04 ||| bit f.zero 0x02 ||| bit f.carry 0x01

def ofByte (b : UInt8) : Flags :=
  { negative := b &&& 0x80 != 0
    overflow := b &&& 0x40 != 0
    decimal := b &&& 0x08 != 0
    noInterrupt := b &&& 0x04 != 0
    zero := b &&& 0x02 != 0
    carry := b &&& 0x01 != 0 }

@[inline] def after (f : Flags) (v : UInt8) : Flags :=
  { f with zero := v == 0, negative := v &&& 0x80 != 0 }

end Flags

/-- Processor and memory. -/
structure Machine where
  a : UInt8 := 0
  x : UInt8 := 0
  y : UInt8 := 0
  sp : UInt8 := 0xFF
  pc : UInt16 := 0
  flags : Flags := {}
  /-- Cycles counted so far. -/
  cycles : UInt64 := 0
  memory : Memory := Memory.zero
  deriving Inhabited

namespace Machine

/-! ## Stack -/

def push (m : Machine) (b : UInt8) : Machine :=
  { m with memory := m.memory.set (0x100 ||| m.sp.toUInt16) b, sp := m.sp - 1 }

def pop (m : Machine) : UInt8 × Machine :=
  let sp := m.sp + 1
  (m.memory.get (0x100 ||| sp.toUInt16), { m with sp := sp })

/-- Push an address, high byte first. -/
def pushWord (m : Machine) (w : UInt16) : Machine :=
  (m.push (w >>> 8).toUInt8).push w.toUInt8

def popWord (m : Machine) : UInt16 × Machine :=
  let (low, m) := m.pop
  let (high, m) := m.pop
  (low.toUInt16 ||| (high.toUInt16 <<< 8), m)

/-! ## Operands -/

/-- An operand: the address it is at, its first byte, and whether indexing
left the page. -/
structure Operand where
  address : UInt16
  first : UInt8
  crossed : Bool
  deriving DecidableEq, Repr, Inhabited

/-- Do two addresses lie in different pages? -/
@[inline] def pagesDiffer (a b : UInt16) : Bool := a &&& 0xFF00 != b &&& 0xFF00

@[inline] def indexed (first : UInt8) (base : UInt16) (index : UInt8) : Operand :=
  let a := base + index.toUInt16
  ⟨a, first, pagesDiffer base a⟩

/-- A byte of the operand.  Those beyond the top of memory are zero. -/
@[inline] def operandByte (m : Machine) (n : UInt16) : UInt8 :=
  let base := m.pc + 1
  if base + n < base then 0 else m.memory.get (base + n)

/-- The operand of the instruction at the program counter. -/
@[inline] def operand (m : Machine) (mode : Mode) : Operand :=
  let first := m.operandByte 0
  let word := first.toUInt16 ||| ((m.operandByte 1).toUInt16 <<< 8)
  match mode with
  | .implied => ⟨0, first, false⟩
  | .immediate => ⟨m.pc + 1, first, false⟩
  | .relative => ⟨m.pc + 2 + first.toInt8.toInt16.toUInt16, first, false⟩
  | .absolute => ⟨word, first, false⟩
  | .absoluteX => indexed first word m.x
  | .absoluteY => indexed first word m.y
  | .zeroPage => ⟨first.toUInt16, first, false⟩
  -- indexing within the zero page wraps in eight bits
  | .zeroPageX => ⟨(first + m.x).toUInt16, first, false⟩
  | .zeroPageY => ⟨(first + m.y).toUInt16, first, false⟩
  | .indirect => ⟨m.memory.pointer word, first, false⟩
  | .indirectX => ⟨m.memory.pointer (first + m.x).toUInt16, first, false⟩
  | .indirectY => indexed first (m.memory.pointer first.toUInt16) m.y

/-! ## Arithmetic -/

@[inline] def loadA (m : Machine) (v : UInt8) : Machine :=
  { m with a := v, flags := m.flags.after v }

@[inline] def loadX (m : Machine) (v : UInt8) : Machine :=
  { m with x := v, flags := m.flags.after v }

@[inline] def loadY (m : Machine) (v : UInt8) : Machine :=
  { m with y := v, flags := m.flags.after v }

@[inline] def carryIn (m : Machine) : UInt32 := if m.flags.carry then 1 else 0

/-- Take a result with its carry and overflow into the accumulator. -/
@[inline] def loadSum (m : Machine) (v : UInt32) (carry overflow : Bool) : Machine :=
  { m with
    a := v.toUInt8
    flags := { m.flags.after v.toUInt8 with carry := carry, overflow := overflow } }

@[inline] def bit7 (v : UInt32) : Bool := v &&& 0x80 != 0

def addBinary (m : Machine) (v : UInt8) : Machine :=
  let a := m.a.toUInt32
  let b := v.toUInt32
  let sum := a + b + m.carryIn
  m.loadSum sum (0x100 ≤ sum) (bit7 (a ^^^ sum) && !bit7 (a ^^^ b))

/-- Add with carry in decimal mode, digit by digit. -/
def addDecimal (m : Machine) (v : UInt8) : Machine :=
  let a := m.a.toUInt32
  let b := v.toUInt32
  let low := (a &&& 0x0F) + (b &&& 0x0F) + m.carryIn
  -- each digit wraps at ten and carries into the next
  let (low, carry) : UInt32 × UInt32 := if 10 ≤ low then (low - 10, 16) else (low, 0)
  let high := (a &&& 0xF0) + (b &&& 0xF0) + carry
  let (high, carry) := if 0xA0 ≤ high then (high - 0xA0, true) else (high, false)
  let sum := high ||| low
  m.loadSum sum carry (bit7 (a ^^^ sum) && !bit7 (a ^^^ b))

/-- Subtract with carry, the complement of the borrow. -/
def subBinary (m : Machine) (v : UInt8) : Machine :=
  let a := m.a.toUInt32
  let b := v.toUInt32
  let sum := a + (0xFF - b) + m.carryIn
  m.loadSum sum (0x100 ≤ sum) (bit7 (a ^^^ sum) && bit7 (a ^^^ b))

/-- Subtract with carry in decimal mode, digit by digit. -/
def subDecimal (m : Machine) (v : UInt8) : Machine :=
  let a := m.a.toUInt32
  let b := v.toUInt32
  let low := 0x0F + (a &&& 0x0F) - (b &&& 0x0F) + m.carryIn
  -- a digit that borrows is brought back by six
  let (low, carry) : UInt32 × UInt32 := if low < 16 then (low - 6, 0) else (low - 16, 16)
  let high := 0xF0 + (a &&& 0xF0) - (b &&& 0xF0) + carry
  let (high, carry) := if high < 0x100 then (high - 0x60, false) else (high - 0x100, true)
  let sum := high ||| low
  m.loadSum sum carry (bit7 (a ^^^ sum) && bit7 (a ^^^ b))

@[inline] def compare (m : Machine) (r v : UInt8) : Machine :=
  { m with flags := { m.flags.after (r - v) with carry := v ≤ r } }

/-! ## Reading, changing and writing -/

/-- What an instruction that changes a byte in place makes of it, and the
flags after it. -/
def change (f : Flags) (mn : Mnemonic) (v : UInt8) : UInt8 × Flags :=
  match mn with
  | .asl =>
    let w := v <<< 1
    (w, { f.after w with carry := v &&& 0x80 != 0 })
  | .lsr =>
    let w := v >>> 1
    (w, { f.after w with carry := v &&& 1 != 0 })
  -- the carry moves in at one end while the bit at the other becomes the carry
  | .rol =>
    let w := (v <<< 1) ||| Flags.bit f.carry 1
    (w, { f.after w with carry := v &&& 0x80 != 0 })
  | .ror =>
    let w := (v >>> 1) ||| Flags.bit f.carry 0x80
    (w, { f.after w with carry := v &&& 1 != 0 })
  | .inc => (v + 1, f.after (v + 1))
  | .dec => (v - 1, f.after (v - 1))
  | _ => (v, f)

/-- Change the accumulator or a byte of memory. -/
def modify (m : Machine) (mn : Mnemonic) (mode : Mode) (o : Operand) : Machine :=
  if mode = .implied then
    let (v, f) := change m.flags mn m.a
    { m with a := v, flags := f }
  else
    let (v, f) := change m.flags mn (m.memory.get o.address)
    { m with memory := m.memory.set o.address v, flags := f }

/-- Branch if a condition holds.  A taken branch costs a cycle, and one more
if it leaves the page of the next instruction. -/
@[inline] def branch (m : Machine) (taken : Bool) (o : Operand) : Machine :=
  if taken then
    { m with
      cycles := m.cycles + (if pagesDiffer m.pc o.address then 2 else 1)
      pc := o.address }
  else m

/-- Does the instruction write memory without reading it? -/
def isStore : Mnemonic → Bool
  | .sta | .stx | .sty => true
  | _ => false

/-- Does the instruction change a byte in place? -/
def isModify : Mnemonic → Bool
  | .asl | .lsr | .rol | .ror | .inc | .dec => true
  | _ => false

/-- Carry out an instruction, with the program counter after it already. -/
def perform (m : Machine) (mn : Mnemonic) (mode : Mode) (o : Operand) : Machine :=
  let value := m.memory.get o.address
  match mn with
  | .lda => m.loadA value
  | .ldx => m.loadX value
  | .ldy => m.loadY value
  | .sta => { m with memory := m.memory.set o.address m.a }
  | .stx => { m with memory := m.memory.set o.address m.x }
  | .sty => { m with memory := m.memory.set o.address m.y }
  | .adc => if m.flags.decimal then m.addDecimal value else m.addBinary value
  | .sbc => if m.flags.decimal then m.subDecimal value else m.subBinary value
  | .and => m.loadA (m.a &&& value)
  | .ora => m.loadA (m.a ||| value)
  | .eor => m.loadA (m.a ^^^ value)
  | .cmp => m.compare m.a value
  | .cpx => m.compare m.x value
  | .cpy => m.compare m.y value
  | .bit =>
    { m with flags := { m.flags with
        zero := m.a &&& value == 0
        negative := value &&& 0x80 != 0
        overflow := value &&& 0x40 != 0 } }
  | .asl | .lsr | .rol | .ror | .inc | .dec => m.modify mn mode o
  | .inx => m.loadX (m.x + 1)
  | .iny => m.loadY (m.y + 1)
  | .dex => m.loadX (m.x - 1)
  | .dey => m.loadY (m.y - 1)
  | .tax => m.loadX m.a
  | .tay => m.loadY m.a
  | .txa => m.loadA m.x
  | .tya => m.loadA m.y
  | .tsx => m.loadX m.sp
  | .txs => { m with sp := m.x }
  | .clc => { m with flags := { m.flags with carry := false } }
  | .sec => { m with flags := { m.flags with carry := true } }
  | .cld => { m with flags := { m.flags with decimal := false } }
  | .sed => { m with flags := { m.flags with decimal := true } }
  | .cli => { m with flags := { m.flags with noInterrupt := false } }
  | .sei => { m with flags := { m.flags with noInterrupt := true } }
  | .clv => { m with flags := { m.flags with overflow := false } }
  | .pha => m.push m.a
  -- pushed flags have the break bit and the unused one set
  | .php => m.push (m.flags.toByte ||| 0x30)
  | .pla =>
    let (v, m) := m.pop
    m.loadA v
  | .plp =>
    let (v, m) := m.pop
    { m with flags := Flags.ofByte v }
  | .bcc => m.branch (!m.flags.carry) o
  | .bcs => m.branch m.flags.carry o
  | .bne => m.branch (!m.flags.zero) o
  | .beq => m.branch m.flags.zero o
  | .bpl => m.branch (!m.flags.negative) o
  | .bmi => m.branch m.flags.negative o
  | .bvc => m.branch (!m.flags.overflow) o
  | .bvs => m.branch m.flags.overflow o
  | .jmp => { m with pc := o.address }
  -- the address pushed is the last of the call, and a return goes one further
  | .jsr => { m.pushWord (m.pc - 1) with pc := o.address }
  | .rts =>
    let (w, m) := m.popWord
    { m with pc := w + 1 }
  | .rti =>
    let (v, m) := m.pop
    let (w, m) := m.popWord
    { m with flags := Flags.ofByte v, pc := w }
  | _ => m

/-- The cycles of an instruction that changes a byte in place. -/
def modifyCycles : Mode → UInt64
  | .implied => 2
  | .zeroPage => 5
  | .zeroPageX => 6
  | .absolute => 6
  | _ => 7

def storeCycles : Mode → UInt64
  | .zeroPage => 3
  | .zeroPageX => 4
  | .zeroPageY => 4
  | .absolute => 4
  | .absoluteX => 5
  | .absoluteY => 5
  | _ => 6

/-- The cycles of an instruction that reads its operand, without page
crossing. -/
def readCycles : Mode → UInt64
  | .implied => 2
  | .immediate => 2
  | .relative => 2
  | .zeroPage => 3
  | .indirectX => 6
  | .indirectY => 5
  | _ => 4

/-- The cycles of an instruction, branches taken apart. -/
def baseCycles (mn : Mnemonic) (mode : Mode) (crossed : Bool) : UInt64 :=
  match mn with
  | .brk => 7
  | .jsr => 6
  | .rts => 6
  | .rti => 6
  | .pha => 3
  | .php => 3
  | .pla => 4
  | .plp => 4
  | .jmp => if mode = .indirect then 5 else 3
  | mn =>
    -- a store always takes the cycle that a read takes only across pages
    if isModify mn then modifyCycles mode
    else if isStore mn then storeCycles mode
    else readCycles mode + (if crossed then 1 else 0)

/-- Execute the instruction at the program counter. -/
def step (m : Machine) : Machine :=
  let op := Opcode.ofCode (m.memory.get m.pc)
  let o := m.operand op.mode
  let m := { m with
    pc := m.pc + UInt16.ofNat op.length
    cycles := m.cycles + baseCycles op.mnemonic op.mode o.crossed }
  m.perform op.mnemonic op.mode o

end Machine

end Mos6510
