import Mos6510.Mnemonic
import Mos6510.Opcode.Mode

/-!
# The opcode matrix

What each of the 256 opcode bytes stands for.
-/

namespace Mos6510

/-- One encoding of an instruction. -/
structure Opcode where
  /-- The opcode byte. -/
  code : UInt8
  mnemonic : Mnemonic
  mode : Mode
  /-- False for the instructions that the processor's makers never described. -/
  documented : Bool
  deriving DecidableEq, Repr, Inhabited

namespace Opcode

open Mnemonic Mode

/-- What an opcode byte stands for, apart from the byte itself. -/
abbrev Entry := Mnemonic × Mode × Bool

/-- An entry for a documented instruction. -/
def known (m : Mnemonic) (mode : Mode) : Entry := (m, mode, true)

/-- An entry for an undocumented instruction. -/
def hidden (m : Mnemonic) (mode : Mode) : Entry := (m, mode, false)

/-- The entries of all opcode bytes, in order. -/
def matrix : Array Entry := #[
  -- four entries a line, in the order of the code
  known brk implied, known ora indirectX, hidden kil implied, hidden slo indirectX,
  hidden nop zeroPage, known ora zeroPage, known asl zeroPage, hidden slo zeroPage,
  known php implied, known ora immediate, known asl implied, hidden anc immediate,
  hidden nop absolute, known ora absolute, known asl absolute, hidden slo absolute,
  known bpl relative, known ora indirectY, hidden kil implied, hidden slo indirectY,
  hidden nop zeroPageX, known ora zeroPageX, known asl zeroPageX, hidden slo zeroPageX,
  known clc implied, known ora absoluteY, hidden nop implied, hidden slo absoluteY,
  hidden nop absoluteX, known ora absoluteX, known asl absoluteX, hidden slo absoluteX,
  known jsr absolute, known and indirectX, hidden kil implied, hidden rla indirectX,
  known bit zeroPage, known and zeroPage, known rol zeroPage, hidden rla zeroPage,
  known plp implied, known and immediate, known rol implied, hidden anc immediate,
  known bit absolute, known and absolute, known rol absolute, hidden rla absolute,
  known bmi relative, known and indirectY, hidden kil implied, hidden rla indirectY,
  hidden nop zeroPageX, known and zeroPageX, known rol zeroPageX, hidden rla zeroPageX,
  known sec implied, known and absoluteY, hidden nop implied, hidden rla absoluteY,
  hidden nop absoluteX, known and absoluteX, known rol absoluteX, hidden rla absoluteX,
  known rti implied, known eor indirectX, hidden kil implied, hidden sre indirectX,
  hidden nop zeroPage, known eor zeroPage, known lsr zeroPage, hidden sre zeroPage,
  known pha implied, known eor immediate, known lsr implied, hidden alr immediate,
  known jmp absolute, known eor absolute, known lsr absolute, hidden sre absolute,
  known bvc relative, known eor indirectY, hidden kil implied, hidden sre indirectY,
  hidden nop zeroPageX, known eor zeroPageX, known lsr zeroPageX, hidden sre zeroPageX,
  known cli implied, known eor absoluteY, hidden nop implied, hidden sre absoluteY,
  hidden nop absoluteX, known eor absoluteX, known lsr absoluteX, hidden sre absoluteX,
  known rts implied, known adc indirectX, hidden kil implied, hidden rra indirectX,
  hidden nop zeroPage, known adc zeroPage, known ror zeroPage, hidden rra zeroPage,
  known pla implied, known adc immediate, known ror implied, hidden arr immediate,
  known jmp indirect, known adc absolute, known ror absolute, hidden rra absolute,
  known bvs relative, known adc indirectY, hidden kil implied, hidden rra indirectY,
  hidden nop zeroPageX, known adc zeroPageX, known ror zeroPageX, hidden rra zeroPageX,
  known sei implied, known adc absoluteY, hidden nop implied, hidden rra absoluteY,
  hidden nop absoluteX, known adc absoluteX, known ror absoluteX, hidden rra absoluteX,
  hidden nop immediate, known sta indirectX, hidden nop immediate, hidden sax indirectX,
  known sty zeroPage, known sta zeroPage, known stx zeroPage, hidden sax zeroPage,
  known dey implied, hidden nop immediate, known txa implied, hidden xaa immediate,
  known sty absolute, known sta absolute, known stx absolute, hidden sax absolute,
  known bcc relative, known sta indirectY, hidden kil implied, hidden ahx indirectY,
  known sty zeroPageX, known sta zeroPageX, known stx zeroPageY, hidden sax zeroPageY,
  known tya implied, known sta absoluteY, known txs implied, hidden tas absoluteY,
  hidden shy absoluteX, known sta absoluteX, hidden shx absoluteY, hidden ahx absoluteY,
  known ldy immediate, known lda indirectX, known ldx immediate, hidden lax indirectX,
  known ldy zeroPage, known lda zeroPage, known ldx zeroPage, hidden lax zeroPage,
  known tay implied, known lda immediate, known tax implied, hidden lax immediate,
  known ldy absolute, known lda absolute, known ldx absolute, hidden lax absolute,
  known bcs relative, known lda indirectY, hidden kil implied, hidden lax indirectY,
  known ldy zeroPageX, known lda zeroPageX, known ldx zeroPageY, hidden lax zeroPageY,
  known clv implied, known lda absoluteY, known tsx implied, hidden las absoluteY,
  known ldy absoluteX, known lda absoluteX, known ldx absoluteY, hidden lax absoluteY,
  known cpy immediate, known cmp indirectX, hidden nop immediate, hidden dcp indirectX,
  known cpy zeroPage, known cmp zeroPage, known dec zeroPage, hidden dcp zeroPage,
  known iny implied, known cmp immediate, known dex implied, hidden axs immediate,
  known cpy absolute, known cmp absolute, known dec absolute, hidden dcp absolute,
  known bne relative, known cmp indirectY, hidden kil implied, hidden dcp indirectY,
  hidden nop zeroPageX, known cmp zeroPageX, known dec zeroPageX, hidden dcp zeroPageX,
  known cld implied, known cmp absoluteY, hidden nop implied, hidden dcp absoluteY,
  hidden nop absoluteX, known cmp absoluteX, known dec absoluteX, hidden dcp absoluteX,
  known cpx immediate, known sbc indirectX, hidden nop immediate, hidden isc indirectX,
  known cpx zeroPage, known sbc zeroPage, known inc zeroPage, hidden isc zeroPage,
  known inx implied, known sbc immediate, known nop implied, hidden sbc immediate,
  known cpx absolute, known sbc absolute, known inc absolute, hidden isc absolute,
  known beq relative, known sbc indirectY, hidden kil implied, hidden isc indirectY,
  hidden nop zeroPageX, known sbc zeroPageX, known inc zeroPageX, hidden isc zeroPageX,
  known sed implied, known sbc absoluteY, hidden nop implied, hidden isc absoluteY,
  hidden nop absoluteX, known sbc absoluteX, known inc absoluteX, hidden isc absoluteX]

/-- The opcode of a byte. -/
def ofCode (code : UInt8) : Opcode :=
  let e := matrix.getD code.toNat (known brk implied)
  { code := code, mnemonic := e.1, mode := e.2.1, documented := e.2.2 }

/-- All opcodes, in order of their bytes. -/
def all : List Opcode := (List.range 256).map fun n => ofCode (UInt8.ofNat n)

/-- Length of the encoded instruction in bytes. -/
def length (op : Opcode) : Nat := 1 + op.mode.size

/-- The opcode as action listings show it. -/
def render (op : Opcode) : String :=
  "$" ++ Text.hex 2 op.code.toNat ++ ":" ++ op.mnemonic.name ++ "," ++ op.mode.name

end Opcode

namespace Mnemonic

/-- The encoding of a mnemonic in an addressing mode: the documented one, or
else the one with the lowest byte. -/
def encoding? (m : Mnemonic) (mode : Mode) : Option Opcode :=
  let fits := Opcode.all.filter fun op => op.mnemonic == m && op.mode == mode
  (fits.find? (·.documented)).or fits.head?

/-- Does the mnemonic have an encoding in the mode? -/
def has (m : Mnemonic) (mode : Mode) : Bool := (m.encoding? mode).isSome

/-- The addressing modes of a mnemonic, in order. -/
def modes (m : Mnemonic) : List Mode := Mode.all.filter m.has

/-- Branches have a relative encoding and no other. -/
def isBranch (m : Mnemonic) : Bool := m.modes == [.relative]

end Mnemonic

end Mos6510
