import Mos6510.Text.Upper

/-!
# Mnemonics

The instruction names of the NMOS processor, with those of its undocumented
instructions.
-/

namespace Mos6510

/-- The name of an instruction. -/
inductive Mnemonic where
  | adc | ahx | alr | anc | and | arr | asl | axs | bcc | bcs | beq | bit
  | bmi | bne | bpl | brk | bvc | bvs | clc | cld | cli | clv | cmp | cpx
  | cpy | dcp | dec | dex | dey | eor | inc | inx | iny | isc | jmp | jsr
  | kil | las | lax | lda | ldx | ldy | lsr | nop | ora | pha | php | pla
  | plp | rla | rol | ror | rra | rti | rts | sax | sbc | sec | sed | sei
  | shx | shy | slo | sre | sta | stx | sty | tas | tax | tay | tsx | txa
  | txs | tya | xaa
  deriving DecidableEq, Repr, Inhabited

namespace Mnemonic

/-- Every mnemonic, in alphabetical order. -/
def all : List Mnemonic := [
  adc, ahx, alr, anc, and, arr, asl, axs, bcc, bcs, beq, bit, bmi, bne, bpl,
  brk, bvc, bvs, clc, cld, cli, clv, cmp, cpx, cpy, dcp, dec, dex, dey, eor,
  inc, inx, iny, isc, jmp, jsr, kil, las, lax, lda, ldx, ldy, lsr, nop, ora,
  pha, php, pla, plp, rla, rol, ror, rra, rti, rts, sax, sbc, sec, sed, sei,
  shx, shy, slo, sre, sta, stx, sty, tas, tax, tay, tsx, txa, txs, tya, xaa]

/-- The mnemonic as it is written, in upper case. -/
def name : Mnemonic → String
  | adc => "ADC"
  | ahx => "AHX"
  | alr => "ALR"
  | anc => "ANC"
  | and => "AND"
  | arr => "ARR"
  | asl => "ASL"
  | axs => "AXS"
  | bcc => "BCC"
  | bcs => "BCS"
  | beq => "BEQ"
  | bit => "BIT"
  | bmi => "BMI"
  | bne => "BNE"
  | bpl => "BPL"
  | brk => "BRK"
  | bvc => "BVC"
  | bvs => "BVS"
  | clc => "CLC"
  | cld => "CLD"
  | cli => "CLI"
  | clv => "CLV"
  | cmp => "CMP"
  | cpx => "CPX"
  | cpy => "CPY"
  | dcp => "DCP"
  | dec => "DEC"
  | dex => "DEX"
  | dey => "DEY"
  | eor => "EOR"
  | inc => "INC"
  | inx => "INX"
  | iny => "INY"
  | isc => "ISC"
  | jmp => "JMP"
  | jsr => "JSR"
  | kil => "KIL"
  | las => "LAS"
  | lax => "LAX"
  | lda => "LDA"
  | ldx => "LDX"
  | ldy => "LDY"
  | lsr => "LSR"
  | nop => "NOP"
  | ora => "ORA"
  | pha => "PHA"
  | php => "PHP"
  | pla => "PLA"
  | plp => "PLP"
  | rla => "RLA"
  | rol => "ROL"
  | ror => "ROR"
  | rra => "RRA"
  | rti => "RTI"
  | rts => "RTS"
  | sax => "SAX"
  | sbc => "SBC"
  | sec => "SEC"
  | sed => "SED"
  | sei => "SEI"
  | shx => "SHX"
  | shy => "SHY"
  | slo => "SLO"
  | sre => "SRE"
  | sta => "STA"
  | stx => "STX"
  | sty => "STY"
  | tas => "TAS"
  | tax => "TAX"
  | tay => "TAY"
  | tsx => "TSX"
  | txa => "TXA"
  | txs => "TXS"
  | tya => "TYA"
  | xaa => "XAA"

/-- The mnemonic with a name, written in either letter case. -/
def ofName? (s : String) : Option Mnemonic :=
  all.find? fun m => m.name == Text.upper s

end Mnemonic

end Mos6510
