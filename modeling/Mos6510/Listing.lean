import Mos6510.Opcode.Matrix
import Mos6510.Program
import Std.Data.HashMap

/-!
# Listings

A listing shows code as instructions and data as a hex dump.  Each region is
cut into rows that together hold its bytes in order; a row of code is one
instruction, a row of data lies within sixteen bytes and ends before the next
label.
-/

namespace Mos6510

/-- A table of addresses; the latest of several entries counts. -/
def byAddress {α : Type} (entries : List (UInt16 × α)) : UInt16 → Option α :=
  let table := Std.HashMap.ofList entries
  fun a => table[a]?

/-- An address as it is shown: by its label, or in hex. -/
def showAddress (labels : UInt16 → Option String) (digits : Nat) (a : UInt16) : String :=
  (labels a).getD ("$" ++ Text.hex digits a.toNat)

/-- The address that a branch at `pc` with a displacement goes to. -/
def branchTarget (pc : UInt16) (displacement : UInt8) : UInt16 :=
  pc + 2 + displacement.toInt8.toInt16.toUInt16

/-- The operand bytes of an instruction as they are shown. -/
def Mode.showOperand (labels : UInt16 → Option String) (pc : UInt16) (mode : Mode)
    (low high : UInt8) : String :=
  match mode with
  | .implied => ""
  | .immediate => "$" ++ Text.hex 2 low.toNat
  | .relative => showAddress labels 4 (branchTarget pc low)
  | .zeroPage => showAddress labels 2 low.toUInt16
  | .zeroPageX => showAddress labels 2 low.toUInt16
  | .zeroPageY => showAddress labels 2 low.toUInt16
  | .indirectX => showAddress labels 2 low.toUInt16
  | .indirectY => showAddress labels 2 low.toUInt16
  | .absolute => showAddress labels 4 (low.toUInt16 ||| (high.toUInt16 <<< 8))
  | .absoluteX => showAddress labels 4 (low.toUInt16 ||| (high.toUInt16 <<< 8))
  | .absoluteY => showAddress labels 4 (low.toUInt16 ||| (high.toUInt16 <<< 8))
  | .indirect => showAddress labels 4 (low.toUInt16 ||| (high.toUInt16 <<< 8))

/-- The instruction at the start of some bytes, and its size.  An undocumented
one is marked with a star.  There is none if the bytes are too few. -/
def disassemble? (labels : UInt16 → Option String) (pc : UInt16) (code : List UInt8) :
    Option (String × Nat) :=
  match code with
  | [] => none
  | b :: rest =>
    let op := Opcode.ofCode b
    -- the last bytes of a region may be the front of an instruction only
    if code.length < op.length then none
    else
      let star := if op.documented then "" else "*"
      let operand :=
        op.mode.showOperand labels pc (rest.headD 0) ((rest.drop 1).headD 0)
      let shown := if op.mode = .implied then "" else " " ++ op.mode.format operand
      some (star ++ op.mnemonic.name ++ shown, op.length)

/-- What a listing shows. -/
structure Listing where
  regions : List Region
  /-- The label shown at each address. -/
  labels : UInt16 → Option String
  /-- The source of each byte where known. -/
  source : UInt16 → Option Location
  /-- The symbol table, if it is wanted. -/
  symbols : Option (List (String × Int64))

/-- A row: an address, and the bytes from there on. -/
structure Row where
  address : Nat
  bytes : List UInt8
  deriving DecidableEq, Repr, Inhabited

namespace Listing

def ofProgram (p : Program) : Listing :=
  { regions := p.regions
    labels := byAddress p.labelMap
    source := byAddress p.source
    symbols := some p.symbols }

/-! ## Rows -/

/-- Cut bytes into rows.  `more` says how many bytes after its first a row
takes. -/
def rows (more : Nat → UInt8 → List UInt8 → Nat) (address : Nat) (bytes : List UInt8) :
    List Row :=
  match bytes with
  | [] => []
  | b :: rest =>
    let n := more address b rest
    ⟨address, b :: rest.take n⟩ :: rows more (address + 1 + (rest.take n).length) (rest.drop n)
termination_by bytes.length
decreasing_by
  simp only [List.length_drop, List.length_cons]
  omega

/-- A row of code takes one instruction, or all there is if that is too
short. -/
def moreCode (_address : Nat) (b : UInt8) (rest : List UInt8) : Nat :=
  let size := (Opcode.ofCode b).mode.size
  if size ≤ rest.length then size else rest.length

/-- A row of data ends at sixteen bytes and before the next label. -/
def moreData (labels : UInt16 → Option String) (address : Nat) (_b : UInt8)
    (rest : List UInt8) : Nat :=
  let limit := min rest.length (15 - address % 16)
  ((List.range limit).takeWhile fun n =>
    (labels (UInt16.ofNat (address + 1 + n))).isNone).length

/-! ## Text -/

def hexByte (b : UInt8) : String := Text.hex 2 b.toNat

def labelLine (l : Listing) (address : Nat) : String :=
  match l.labels (UInt16.ofNat address) with
  | some name => name ++ ":\n"
  | none => ""

/-- The text of a row of code: its instruction, or its bytes as data. -/
def instructionText (l : Listing) (r : Row) : String :=
  match disassemble? l.labels (UInt16.ofNat r.address) r.bytes with
  | some (text, _) => text
  | none => ".DB " ++ ", ".intercalate (r.bytes.map fun b => "$" ++ hexByte b)

def codeLine (l : Listing) (r : Row) : String :=
  let origin := match l.source (UInt16.ofNat r.address) with
    | some loc => "  ; " ++ loc.render
    | none => ""
  " " ++ Text.hex 4 r.address ++ "  "
    ++ Text.padRight 8 (" ".intercalate (r.bytes.map hexByte)) ++ "  "
    ++ l.instructionText r ++ origin

/-- A byte as a character; a dot for what is none in ASCII. -/
def printed (b : UInt8) : Char := if b < 32 || 127 < b then '.' else Char.ofNat b.toNat

/-- Some text over and over. -/
def repeated (n : Nat) (s : String) : String := String.join (List.replicate n s)

def dataLine (r : Row) : String :=
  let skip := r.address % 16
  " " ++ Text.hex 4 (r.address - skip) ++ " "
    ++ repeated skip ".. "
    ++ String.join (r.bytes.map fun b => hexByte b ++ " ")
    ++ repeated (16 - r.bytes.length - skip) ".. " ++ " | "
    ++ repeated skip " " ++ String.ofList (r.bytes.map printed)

def line (l : Listing) (kind : RegionKind) (r : Row) : String :=
  match kind with
  | .code => l.codeLine r
  | .data => dataLine r

def rowText (l : Listing) (kind : RegionKind) (r : Row) : String :=
  l.labelLine r.address ++ l.line kind r ++ "\n"

def regionRows (l : Listing) (r : Region) : List Row :=
  match r.kind with
  | .code => rows moreCode r.start.toNat r.bytes.toList
  | .data => rows (moreData l.labels) r.start.toNat r.bytes.toList

def regionText (l : Listing) (r : Region) : String :=
  "; " ++ r.render ++ "\n" ++ String.join ((l.regionRows r).map (l.rowText r.kind)) ++ "\n"

/-- A symbol with its value, in hex if it can be an address. -/
def symbolText (s : String × Int64) : String :=
  if 0 ≤ s.2 && s.2 ≤ 0xFFFF then s.1 ++ " = $" ++ Text.hex 4 s.2.toInt.toNat ++ "\n"
  else s.1 ++ " = " ++ Text.decimal s.2.toInt ++ "\n"

def render (l : Listing) : String :=
  String.join (l.regions.map l.regionText) ++
    match l.symbols with
    | none => ""
    | some symbols => "; symbols\n" ++ String.join (symbols.map symbolText)

end Listing

end Mos6510
