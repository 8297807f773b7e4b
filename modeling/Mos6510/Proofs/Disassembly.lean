import Mos6510.Listing
import Mos6510.Proofs.Emission
import Mos6510.Proofs.Reference

/-!
# Disassembly inverts assembly

The instructions that the final pass executes lie in the regions of code one
after the other, each in its bytes.  A linear sweep of these regions decodes
them again.

* `Instruction.text`: what a listing shows for an instruction, said of its
  operand and not of its bytes;
* `disassemble?_bytes`: that is what the bytes of the instruction decode to;
* `Holds`: regions hold instructions, each of them from its address on;
  `holds_traced` carries it along the final pass;
* `sweep_code_eq`: so the sweep decodes what was executed.
-/

namespace Mos6510

open Outcome

/-! ## Words -/

/-- The second byte of an operand is its value shifted down. -/
theorem low_or_high (v : Int64) :
    v.toUInt64.toUInt8.toUInt16 ||| ((v >>> 8).toUInt64.toUInt8.toUInt16 <<< 8) =
      v.toUInt64.toUInt16 := by
  have hshift : (v >>> 8).toUInt64.toBitVec = v.toUInt64.toBitVec.sshiftRight 8 := rfl
  apply UInt16.eq_of_toBitVec_eq
  simp only [UInt16.toBitVec_or, UInt16.toBitVec_shiftLeft, UInt8.toBitVec_toUInt16,
    UInt64.toBitVec_toUInt8, UInt64.toBitVec_toUInt16, hshift]
  ext i hi
  simp only [BitVec.getElem_or, BitVec.getElem_setWidth]
  by_cases hlow : i < 8
  · simp [hlow]
  · have hhigh : i - 8 < 8 := by omega
    have hsplit : 8 + (i - 8) = i := by omega
    have hsign : ¬64 ≤ i - 8 := by omega
    have hwidth : i < 64 := by omega
    simp [hlow, hhigh, hsplit, hsign, hwidth, BitVec.getLsbD_sshiftRight]

theorem toNat_low16 (v : Int64) : v.toUInt64.toUInt16.toNat = (v.toInt % 0x10000).toNat := by
  have hint : v.toInt = v.toBitVec.toInt := rfl
  have hnat : v.toUInt64.toNat = v.toBitVec.toNat := rfl
  have hlt := v.toBitVec.isLt
  rw [UInt64.toNat_toUInt16, hint, hnat, BitVec.toInt_eq_toNat_cond]
  split <;> omega

theorem toNat_low8 (v : Int64) : v.toUInt64.toUInt8.toNat = (v.toInt % 0x100).toNat := by
  have hint : v.toInt = v.toBitVec.toInt := rfl
  have hnat : v.toUInt64.toNat = v.toBitVec.toNat := rfl
  have hlt := v.toBitVec.isLt
  rw [UInt64.toNat_toUInt8, hint, hnat, BitVec.toInt_eq_toNat_cond]
  split <;> omega

theorem toInt_and_low (v : Int64) : (v &&& 0xFFFF).toInt = v.toInt % 0x10000 := by
  have hint : v.toInt = v.toBitVec.toInt := rfl
  have hmasked : (v &&& 0xFFFF).toInt = (v.toBitVec &&& 0xFFFF#64).toInt := rfl
  have hnat : (v.toBitVec &&& 0xFFFF#64).toNat = v.toBitVec.toNat % 0x10000 := by
    rw [BitVec.toNat_and]
    exact Nat.and_two_pow_sub_one_eq_mod _ 16
  have hlt := v.toBitVec.isLt
  rw [hint, hmasked, BitVec.toInt_eq_toNat_cond, BitVec.toInt_eq_toNat_cond, hnat]
  split <;> split <;> omega

/-! ## Branches -/

theorem toInt_branchDistance (v : Int64) (a : UInt16) :
    (Engine.branchDistance v a).toInt = v.toInt % 0x10000 - (a.toNat + 1) := by
  have ha := a.toNat_lt
  have hnext : (Int64.ofNat a.toNat + 1).toInt = a.toNat + 1 := by
    have hone : (1 : Int64).toInt = 1 := rfl
    rw [Int64.toInt_add, Int64.toInt_ofNat_of_lt (by omega), hone]
    exact Int.bmod_eq_of_le (by omega) (by omega)
  unfold Engine.branchDistance
  rw [Int64.toInt_sub, toInt_and_low, hnext]
  exact Int.bmod_eq_of_le (by omega) (by omega)

theorem inReach_iff {d : Int64} : Engine.inReach d ↔ -128 ≤ d.toInt ∧ d.toInt ≤ 127 := by
  unfold Engine.inReach
  simp [Int64.lt_iff_toInt_lt]

/-- A displacement is extended by its sign. -/
theorem toNat_displacement (d : UInt8) :
    d.toInt8.toInt16.toUInt16.toNat = if d.toNat < 128 then d.toNat else d.toNat + 0xFF00 := by
  have hlt := d.toNat_lt
  have hextend : d.toInt8.toInt16.toUInt16.toNat = (d.toBitVec.signExtend 16).toNat := rfl
  have hnat : d.toBitVec.toNat = d.toNat := rfl
  rw [hextend, BitVec.toNat_signExtend, BitVec.msb_eq_decide, BitVec.toNat_setWidth, hnat]
  split <;> simp_all

/-- A branch in reach goes to its operand. -/
theorem toNat_branchTarget {v : Int64} {a : UInt16} (ha : a.toNat + 2 < 0x10000)
    (hreach : Engine.inReach (Engine.branchDistance v (a + 1))) :
    (branchTarget a (Engine.branchDistance v (a + 1)).toUInt64.toUInt8).toNat =
      (v.toInt % 0x10000).toNat := by
  have hdistance := toInt_branchDistance v (a + 1)
  rw [toNat_address_succ (by omega)] at hdistance
  obtain ⟨hlow, hhigh⟩ := inReach_iff.mp hreach
  unfold branchTarget
  rw [UInt16.toNat_add, UInt16.toNat_add, toNat_displacement, toNat_low8]
  simp only [UInt16.reduceToNat, Nat.reducePow]
  split <;> omega

/-! ## Instructions and their text -/

/-- An instruction at an address, with the value of its operand. -/
structure Instruction where
  address : UInt16
  opcode : Opcode
  operand : Int64

/-- Is an operand in the mode a whole address?  That of a branch is, though it
is kept as a distance. -/
def Mode.isWide (mode : Mode) : Bool := mode.size == 2 || mode == .relative

namespace Instruction

/-- What is left of the operand: modulo 2^16 where it is a whole address, else
modulo 2^8. -/
def value (i : Instruction) : UInt16 :=
  UInt16.ofNat (i.operand.toInt % if i.opcode.mode.isWide then 0x10000 else 0x100).toNat

/-- The operand as a listing shows it. -/
def shownOperand (labels : UInt16 → Option String) (i : Instruction) : String :=
  if i.opcode.mode = .immediate then "$" ++ Text.hex 2 i.value.toNat
  else showAddress labels (if i.opcode.mode.isWide then 4 else 2) i.value

/-- The instruction as a listing shows it. -/
def text (labels : UInt16 → Option String) (i : Instruction) : String :=
  (if i.opcode.documented then "" else "*") ++ i.opcode.mnemonic.name ++
    if i.opcode.mode = .implied then ""
    else " " ++ i.opcode.mode.format (i.shownOperand labels)

def bytes (i : Instruction) : List UInt8 := i.opcode.bytes i.address i.operand

/-- The instruction stands in the opcode matrix, reaches its operand and lies
below the top of memory. -/
structure Encodable (i : Instruction) : Prop where
  ofCode : Opcode.ofCode i.opcode.code = i.opcode
  reaches : i.opcode.Reaches i.address i.operand
  room : i.address.toNat + i.opcode.length < 0x10000

end Instruction

/-- What decoding finds at an address. -/
structure Decoded where
  address : UInt16
  opcode : Opcode
  text : String
  deriving DecidableEq

def Instruction.decoded (labels : UInt16 → Option String) (i : Instruction) : Decoded :=
  ⟨i.address, i.opcode, i.text labels⟩

theorem toUInt16_low8 (v : Int64) :
    v.toUInt64.toUInt8.toUInt16 = UInt16.ofNat (v.toInt % 0x100).toNat := by
  rw [← UInt16.toNat_inj, UInt8.toNat_toUInt16, toNat_low8, UInt16.toNat_ofNat']
  simp only [Nat.reducePow]
  omega

theorem low16_eq (v : Int64) :
    v.toUInt64.toUInt16 = UInt16.ofNat (v.toInt % 0x10000).toNat := by
  rw [← UInt16.toNat_inj, toNat_low16, UInt16.toNat_ofNat']
  simp only [Nat.reducePow]
  omega

/-- The operand bytes show the operand. -/
theorem showOperand_operandBytes (labels : UInt16 → Option String) {i : Instruction}
    (hi : i.Encodable) (hmode : i.opcode.mode ≠ .implied) (rest : List UInt8) :
    i.opcode.mode.showOperand labels i.address
        ((i.opcode.operandBytes i.address i.operand ++ rest).headD 0)
        (((i.opcode.operandBytes i.address i.operand ++ rest).drop 1).headD 0) =
      i.shownOperand labels := by
  obtain ⟨a, op, v⟩ := i
  obtain ⟨hcode, hreach, hroom⟩ := hi
  unfold Opcode.Reaches at hreach
  unfold Opcode.length at hroom
  unfold Opcode.operandBytes Instruction.shownOperand Instruction.value
  dsimp only at *
  generalize op.mode = mode at *
  -- one byte, two bytes, or the distance of a branch
  have hbyte := toUInt16_low8 v
  have hword := (low_or_high v).trans (low16_eq v)
  cases mode with
  | implied => exact absurd rfl hmode
  | relative =>
      have htarget : branchTarget a (Engine.branchDistance v (a + 1)).toUInt64.toUInt8 =
          UInt16.ofNat (v.toInt % 0x10000).toNat := by
        rw [← low16_eq, ← UInt16.toNat_inj, toNat_low16]
        exact toNat_branchTarget hroom (hreach rfl)
      exact congrArg (showAddress labels 4) htarget
  | immediate =>
      have hnat : v.toUInt64.toUInt8.toNat =
          (UInt16.ofNat (v.toInt % 0x100).toNat).toNat := by
        rw [← hbyte, UInt8.toNat_toUInt16]
      exact congrArg (fun n => "$" ++ Text.hex 2 n) hnat
  | absolute => exact congrArg (showAddress labels 4) hword
  | absoluteX => exact congrArg (showAddress labels 4) hword
  | absoluteY => exact congrArg (showAddress labels 4) hword
  | indirect => exact congrArg (showAddress labels 4) hword
  | _ => exact congrArg (showAddress labels 2) hbyte

/-- The bytes of an instruction decode to it, whatever comes after them. -/
theorem disassemble?_bytes (labels : UInt16 → Option String) {i : Instruction}
    (hi : i.Encodable) (rest : List UInt8) :
    disassemble? labels i.address (i.bytes ++ rest) = some (i.text labels, i.opcode.length) := by
  have hlong : ¬(i.bytes ++ rest).length < i.opcode.length := by
    rw [List.length_append, Instruction.bytes, Opcode.length_bytes]
    omega
  have hshow := fun hmode => showOperand_operandBytes labels hi hmode rest
  unfold Instruction.bytes Opcode.bytes at *
  unfold disassemble? Instruction.text
  simp only [List.cons_append] at hlong ⊢
  rw [hi.ofCode, if_neg hlong]
  by_cases hmode : i.opcode.mode = .implied
  · rw [if_pos hmode, if_pos hmode]
  · rw [if_neg hmode, if_neg hmode, hshow hmode]

/-! ## Linear sweeps -/

/-- Decode bytes from an address on, one thing after the other.  `decode` finds
the first and its size; there is no result where it finds none. -/
def sweepBy {α : Type} (decode : UInt16 → List UInt8 → Option (α × Nat)) (address : UInt16)
    (code : List UInt8) : Option (List α) :=
  match code with
  | [] => some []
  | b :: rest =>
    match decode address (b :: rest) with
    | none => none
    | some (found, size) =>
      (sweepBy decode (address + UInt16.ofNat size) (rest.drop (size - 1))).map fun others =>
        found :: others
termination_by code.length
decreasing_by
  simp only [List.length_drop, List.length_cons]
  omega

/-- Decode the instruction at the start of some bytes. -/
def decode? (labels : UInt16 → Option String) (address : UInt16) (code : List UInt8) :
    Option (Decoded × Nat) :=
  (disassemble? labels address code).map fun found =>
    (⟨address, Opcode.ofCode (code.headD 0), found.1⟩, found.2)

/-- Decode all instructions of some bytes.  There is no result if the bytes end
within an instruction. -/
def sweep (labels : UInt16 → Option String) (address : UInt16) (code : List UInt8) :
    Option (List Decoded) :=
  sweepBy (decode? labels) address code

/-- Sweep some regions, one after the other. -/
def sweepAll (labels : UInt16 → Option String) : List Region → Option (List Decoded)
  | [] => some []
  | r :: rest =>
    (sweep labels r.start r.bytes.toList).bind fun ds =>
      (sweepAll labels rest).map fun es => ds ++ es

/-- Instructions that lie in some bytes from an address on, one after the
other. -/
inductive Laid : UInt16 → List UInt8 → List Instruction → Prop
  | nil {a : UInt16} : Laid a [] []
  | cons {i : Instruction} {bs : List UInt8} {is : List Instruction} : i.Encodable →
      Laid (i.address + UInt16.ofNat i.bytes.length) bs is →
      Laid i.address (i.bytes ++ bs) (i :: is)

theorem Laid.single {i : Instruction} (hi : i.Encodable) : Laid i.address i.bytes [i] := by
  simpa using Laid.cons hi .nil

theorem Laid.append {a : UInt16} {bs cs : List UInt8} {is js : List Instruction}
    (h : Laid a bs is) (h' : Laid (a + UInt16.ofNat bs.length) cs js) :
    Laid a (bs ++ cs) (is ++ js) := by
  induction h with
  | nil => simpa using h'
  | @cons i bs is hi _ ih =>
      rw [List.append_assoc, List.cons_append]
      refine .cons hi (ih ?_)
      rwa [List.length_append, UInt16.ofNat_add, ← UInt16.add_assoc] at h'

/-- A sweep decodes the instructions that lie in the bytes. -/
theorem Laid.sweep_eq (labels : UInt16 → Option String) {a : UInt16} {bs : List UInt8}
    {is : List Instruction} (h : Laid a bs is) :
    sweep labels a bs = some (is.map (·.decoded labels)) := by
  induction h with
  | nil => rw [sweep, sweepBy]; rfl
  | @cons i bs is hi _ ih =>
      have hlength : i.bytes.length = i.opcode.length := i.opcode.length_bytes _ _
      have hdecode : decode? labels i.address (i.bytes ++ bs) =
          some (i.decoded labels, i.bytes.length) := by
        rw [decode?, disassemble?_bytes labels hi bs, hlength]
        show some (Decoded.mk i.address (Opcode.ofCode i.opcode.code) (i.text labels), _) = _
        rw [hi.ofCode]
        rfl
      -- behind the opcode byte lie the other bytes of the instruction
      have hbytes : i.bytes ++ bs =
          i.opcode.code :: (i.opcode.operandBytes i.address i.operand ++ bs) := rfl
      have hrest : (i.opcode.operandBytes i.address i.operand ++ bs).drop (i.bytes.length - 1) =
          bs := List.drop_left
      rw [hbytes] at hdecode ⊢
      rw [sweep, sweepBy, hdecode]
      dsimp only
      rw [hrest]
      exact congrArg (Option.map _) ih

theorem sweepAll_append {labels : UInt16 → Option String} {rs ss : List Region}
    {ds es : List Decoded} (h : sweepAll labels rs = some ds) (h' : sweepAll labels ss = some es) :
    sweepAll labels (rs ++ ss) = some (ds ++ es) := by
  induction rs generalizing ds with
  | nil =>
      cases h
      exact h'
  | cons r rest ih =>
      rw [sweepAll, Option.bind_eq_some_iff] at h
      obtain ⟨first, hfirst, h⟩ := h
      obtain ⟨others, hothers, rfl⟩ := Option.map_eq_some_iff.mp h
      rw [List.cons_append, sweepAll, hfirst, Option.bind_some, ih hothers, Option.map_some,
        List.append_assoc]

/-! ## Regions that hold instructions -/

/-- Regions, latest first, that together hold some instructions. -/
inductive Holds : List Region → List Instruction → Prop
  | nil : Holds [] []
  | cons {r : Region} {rs : List Region} {is js : List Instruction} :
      Laid r.start r.bytes.toList js → Holds rs is → Holds (r :: rs) (is ++ js)

theorem Holds.sweepAll_eq (labels : UInt16 → Option String) {rs : List Region}
    {is : List Instruction} (h : Holds rs is) :
    sweepAll labels rs.reverse = some (is.map (·.decoded labels)) := by
  induction h with
  | nil => rfl
  | @cons r rs is js hlaid _ ih =>
      have hlast : sweepAll labels [r] = some (js.map (·.decoded labels)) := by
        rw [sweepAll, hlaid.sweep_eq labels]
        simp [sweepAll]
      rw [List.reverse_cons, List.map_append]
      exact sweepAll_append ih hlast

def codeRegions (rs : List Region) : List Region := rs.filter fun r => r.kind == .code

/-- A region with some bytes added at its end. -/
def Region.pushAll (r : Region) (bs : List UInt8) : Region := { r with bytes := r.bytes ++ bs }

namespace Engine

/-- Bytes that go on with the latest region are added to it. -/
theorem extendAll_of_goesOn {kind : RegionKind} {a : UInt16} {bs : List UInt8} {r : Region}
    (hroom : a.toNat + bs.length < 0x10000) (h : goesOn kind a r = true) (rest : List Region) :
    extendAll kind a bs (r :: rest) = r.pushAll bs :: rest := by
  induction bs generalizing a r with
  | nil => simp [extendAll, Region.pushAll]
  | cons b bs ih =>
      rw [List.length_cons] at hroom
      have hnext : goesOn kind (a + 1) (r.push b) = true := by
        simp only [goesOn, Bool.and_eq_true, beq_iff_eq] at h ⊢
        refine ⟨h.1, ?_⟩
        rw [toNat_address_succ (by omega), ← h.2]
        simp [Region.stop, Region.size, Region.push]
        omega
      rw [extendAll, extendRegions, if_pos h, ih _ hnext]
      · simp [Region.pushAll, Region.push]
      · rw [toNat_address_succ (by omega)]
        omega

/-- All bytes of an instruction go to one region: the latest, or a new one. -/
theorem extendAll_eq (kind : RegionKind) {a : UInt16} {b : UInt8} {bs : List UInt8}
    (hroom : a.toNat + (b :: bs).length < 0x10000) (rs : List Region) :
    ∃ r rest, r.kind = kind ∧ r.stop = a.toNat ∧
      extendAll kind a (b :: bs) rs = r.pushAll (b :: bs) :: rest ∧
      (rs = r :: rest ∨ (r = { start := a, kind := kind } ∧ rs = rest)) := by
  have hnew : extendRegions kind a b rs = ({ start := a, kind := kind } : Region).push b :: rs →
      extendAll kind a (b :: bs) rs =
        ({ start := a, kind := kind } : Region).pushAll (b :: bs) :: rs := by
    intro hextend
    have hgoes : goesOn kind a { start := a, kind := kind } = true := by
      simp [goesOn, Region.stop, Region.size]
    rw [extendAll, hextend, ← extendAll_of_goesOn hroom hgoes rs, extendAll,
      extendRegions, if_pos hgoes]
  cases rs with
  | nil => exact ⟨_, [], rfl, rfl, hnew rfl, .inr ⟨rfl, rfl⟩⟩
  | cons r rest =>
      cases h : goesOn kind a r with
      | true =>
          have hkept := h
          simp only [goesOn, Bool.and_eq_true, beq_iff_eq] at hkept
          exact ⟨r, rest, hkept.1, hkept.2, extendAll_of_goesOn hroom h rest, .inl rfl⟩
      | false =>
          refine ⟨_, r :: rest, rfl, rfl, hnew ?_, .inr ⟨rfl, rfl⟩⟩
          rw [extendRegions, h]
          rfl

end Engine

theorem codeRegions_cons {r : Region} (h : r.kind = .code) (rs : List Region) :
    codeRegions (r :: rs) = r :: codeRegions rs := by
  rw [codeRegions, List.filter_cons_of_pos (by simpa using h)]
  rfl

/-- An instruction that is emitted at its address is held after the others. -/
theorem Holds.extend {rs : List Region} {is : List Instruction} (h : Holds (codeRegions rs) is)
    {i : Instruction} (hi : i.Encodable) :
    Holds (codeRegions (Engine.extendAll .code i.address i.bytes rs)) (is ++ [i]) := by
  have hroom : i.address.toNat + i.bytes.length < 0x10000 := by
    rw [Instruction.bytes, Opcode.length_bytes]
    exact hi.room
  obtain ⟨r, rest, hkind, hstop, hextend, hcases⟩ := Engine.extendAll_eq .code hroom rs
  have hpushed : codeRegions (Engine.extendAll .code i.address i.bytes rs) =
      r.pushAll i.bytes :: codeRegions rest := by
    have hlast : (r.pushAll i.bytes).kind = .code := hkind
    exact (congrArg codeRegions hextend).trans (codeRegions_cons hlast rest)
  have hbytes : (r.pushAll i.bytes).bytes.toList = r.bytes.toList ++ i.bytes := by
    simp [Region.pushAll]
  rw [hpushed]
  rcases hcases with rfl | ⟨rfl, rfl⟩
  · -- the latest region ends where the instruction begins
    rw [codeRegions_cons hkind] at h
    cases h with
    | cons hlaid hrest =>
        rw [List.append_assoc]
        refine .cons ?_ hrest
        rw [hbytes]
        refine hlaid.append ?_
        have hnext : r.start + UInt16.ofNat r.bytes.toList.length = i.address := by
          have hlt := i.address.toNat_lt
          rw [← UInt16.toNat_inj, UInt16.toNat_add, UInt16.toNat_ofNat', ← hstop]
          simp only [Region.stop, Region.size, Array.length_toList] at hstop ⊢
          omega
        show Laid (r.start + _) _ _
        rw [hnext]
        exact .single hi
  · refine .cons ?_ h
    rw [hbytes]
    exact .single hi

/-! ## What is executed -/

namespace Visit

/-- The encoding that a visit chooses, if it visits an instruction. -/
def opcode? (v : Visit) : Option Opcode :=
  match v.action.op with
  | .instruction code => some (Opcode.ofCode code)
  | .width mnemonic index =>
    v.engine.stack.values.head?.bind fun x =>
      (Mnemonic.ofName? mnemonic).bind fun m =>
        m.encoding? (Engine.directMode index (decide (x &&& 0xFFFF < 256)))
  | _ => none

/-- The instruction that a visit executes. -/
def instruction? (v : Visit) : Option Instruction :=
  v.opcode?.bind fun op =>
    v.engine.pcAddress?.bind fun a =>
      (op.takeOperand? v.engine.stack).map fun taken => ⟨a, op, taken.1⟩

end Visit

/-- The instructions among some visits. -/
def instructions (vs : List Visit) : List Instruction := vs.filterMap Visit.instruction?

/-- Does the action encode an instruction? -/
def Op.isInstruction : Op → Bool
  | .instruction _ => true
  | .width _ _ => true
  | _ => false

/-- The regions of code that are emitted so far. -/
def Engine.code (e : Engine) : List Region := codeRegions e.regions

theorem code_overlooks : Overlooks Engine.code where
  stack := fun _ _ => rfl
  jump := fun _ _ => rfl
  counters := fun _ _ => rfl
  log := fun _ _ => rfl

/-- A byte of data goes to no region of code. -/
theorem emit_data_code (v : Int64) : Keeps Engine.code (Engine.emit .data v) := by
  intro e u e' h
  obtain ⟨a, -, -, -, rfl⟩ := Engine.emit_eq_ok.mp h
  show codeRegions (Engine.extendRegions .data a _ e.regions) = codeRegions e.regions
  have hnew : ∀ (b : UInt8) (rs : List Region),
      codeRegions (({ start := a, kind := .data } : Region).push b :: rs) = codeRegions rs := by
    intro b rs
    rfl
  cases e.regions with
  | nil => exact hnew _ _
  | cons r rest =>
      rw [Engine.extendRegions]
      by_cases hgoes : Engine.goesOn .data a r = true
      · rw [if_pos hgoes]
        simp only [Engine.goesOn, Bool.and_eq_true, beq_iff_eq] at hgoes
        simp [codeRegions, Region.push, hgoes.1]
      · rw [if_neg hgoes]
        exact hnew _ _

/-- Reads and assignments emit nothing, and neither do labels. -/
theorem readSymbol_code (name : String) : Keeps Engine.code (Engine.readSymbol name) := by
  intro e v e' h
  obtain ⟨full, c, -, -, -, hcase⟩ := Engine.readSymbol_eq_ok.mp h
  obtain ⟨vars, labels, pc, heq, -⟩ := e.markRead_eq full c
  rcases hcase with ⟨-, rfl⟩ | ⟨-, -, rfl⟩
  · rw [heq]
    rfl
  · rw [heq]
    rfl

theorem assign_code (name : String) (v : Int64) : Keeps Engine.code (Engine.assign name v) := by
  intro e u e' h
  obtain ⟨full, -, ⟨-, rfl⟩ | ⟨-, -, rfl⟩⟩ := Engine.assign_eq_ok.mp h
  · rfl
  · rfl

theorem placeLabel_code (name : String) (synthetic : Bool) :
    Keeps Engine.code (Engine.placeLabel name synthetic) := by
  intro e u e' h
  obtain ⟨full, a, -, -, -, rfl⟩ := Engine.placeLabel_eq_ok.mp h
  rfl

/-- Only instructions emit code. -/
theorem Op.run_code (op : Op) (loc : Location) (hinstr : op.isInstruction = false)
    (hmsg : op.isMessage = false) : Keeps Engine.code (op.run loc) := by
  have hkeeps := code_overlooks
  cases op with
  | load v => exact (startOperand_keeps fun _ _ => rfl).bind fun _ => hkeeps.push v
  | get name =>
      exact (startOperand_keeps fun _ _ => rfl).bind fun _ => (readSymbol_code name).bind fun v =>
        hkeeps.push v
  | set name => exact hkeeps.pop.bind fun v => assign_code name v
  | label name synthetic => exact placeLabel_code name synthetic
  | instruction => cases hinstr
  | width => cases hinstr
  | message => cases hmsg
  | _ => exact Op.run_routine hkeeps.toDisregards _ (fun _ => emit_data_code) loc rfl

/-- In a strict pass an instruction adds itself to the code. -/
theorem encode_holds {op : Opcode} (hcode : Opcode.ofCode op.code = op) {u : Unit} {e e' : Engine}
    (hstrict : e.strict = true) (h : Engine.encode op e = .ok u e') :
    ∃ a x s, e.pcAddress? = some a ∧ op.takeOperand? e.stack = some (x, s) ∧
      ∀ is, Holds e.code is → Holds e'.code (is ++ [⟨a, op, x⟩]) := by
  obtain ⟨x, s, a, htake, ha, hreach, a', ha', hroom, rfl⟩ :=
    (Engine.encode_eq_ok_iff hstrict).mp h
  obtain rfl : a = a' := Option.some.inj (ha.symm.trans ha')
  rw [Opcode.length_bytes] at hroom
  refine ⟨a, x, s, ha, htake, fun is his => ?_⟩
  have hextended := his.extend (i := ⟨a, op, x⟩) ⟨hcode, hreach, hroom⟩
  unfold Engine.code
  rw [Engine.regions_emittedAll]
  exact hextended

namespace Visit

theorem instruction?_eq_none {v : Visit} (h : v.action.op.isInstruction = false) :
    v.instruction? = none := by
  obtain ⟨⟨loc, op, x⟩, e⟩ := v
  cases op with
  | instruction => cases h
  | width => cases h
  | _ => rfl

/-- In the final pass, an instruction that is executed adds itself to the
code. -/
theorem exists_instruction? {v : Visit} {e' : Engine} (hpass : v.engine.pass = .final)
    (h : v.action.op.isInstruction = true) (hrun : v.action.run v.engine = .ok () e') :
    ∃ i, v.instruction? = some i ∧
      ∀ is, Holds v.engine.code is → Holds e'.code (is ++ [i]) := by
  obtain ⟨⟨loc, op, x⟩, e⟩ := v
  have hstrict : e.strict = true := Engine.strict_of_final hpass
  have hencoded : ∀ opcode, (Visit.mk ⟨loc, op, x⟩ e).opcode? = some opcode →
      Opcode.ofCode opcode.code = opcode → Engine.encode opcode e = .ok () e' →
      ∃ i, (Visit.mk ⟨loc, op, x⟩ e).instruction? = some i ∧
        ∀ is, Holds e.code is → Holds e'.code (is ++ [i]) := by
    intro opcode hopcode hcode hencode
    obtain ⟨a, v, s, ha, htake, hholds⟩ := encode_holds hcode hstrict hencode
    refine ⟨⟨a, opcode, v⟩, ?_, hholds⟩
    rw [instruction?, hopcode, Option.bind_some, ha, Option.bind_some, htake]
    rfl
  cases op with
  | instruction code => exact hencoded _ rfl rfl hrun
  | width mnemonic index =>
      obtain ⟨v, rest, opcode, hs, hopcode, hencode⟩ := Engine.encodeWidth_eq_ok.mp hrun
      obtain ⟨m, -, hm⟩ := Option.bind_eq_some_iff.mp hopcode
      refine hencoded opcode ?_ (Mnemonic.encoding?_eq_some hm).1 hencode
      have hs : e.stack.values = v :: rest := hs
      show e.stack.values.head?.bind _ = _
      rw [hs]
      exact hopcode
  | _ => cases h

end Visit

/-- What the final pass has emitted holds the instructions visited so far. -/
theorem holds_traced : Traced fun past e => e.pass = .final ∧ Holds e.code (instructions past) where
  op := by
    rintro past e e' ⟨loc, op, x⟩ hmsg ⟨hpass, hpast⟩ hrun
    refine ⟨(Op.run_symbolStep loc hmsg hrun).2.trans hpass, ?_⟩
    rw [instructions, List.filterMap_append]
    cases hinstr : op.isInstruction with
    | false =>
        rw [List.filterMap_cons_none (Visit.instruction?_eq_none hinstr),
          op.run_code loc hinstr hmsg hrun]
        simpa [instructions] using hpast
    | true =>
        obtain ⟨i, hi, hholds⟩ :=
          Visit.exists_instruction? (v := ⟨⟨loc, op, x⟩, e⟩) hpass hinstr hrun
        rw [List.filterMap_cons_some hi]
        exact hholds _ hpast
  enter := by
    rintro past e ⟨loc, op, x⟩ hmsg ⟨hpass, hpast⟩
    have hinstr : op.isInstruction = false := by
      cases op with
      | message => rfl
      | _ => cases hmsg
    rw [instructions, List.filterMap_append,
      List.filterMap_cons_none (Visit.instruction?_eq_none hinstr)]
    exact ⟨hpass, by simpa [instructions] using hpast⟩
  pop := by
    rintro past e e' v ⟨hpass, hpast⟩ hrun
    obtain ⟨rest, -, rfl⟩ := Engine.pop_eq_ok.mp hrun
    exact ⟨hpass, hpast⟩
  report := by
    rintro past e e' loc level formatted args ⟨hpass, hpast⟩ hrun
    obtain ⟨text, -, -, rfl⟩ := Engine.report_eq_ok.mp hrun
    exact ⟨hpass, hpast⟩

/-- A final pass leaves the instructions that it visited in the regions of
code, and every visit to an instruction is one of them. -/
theorem Code.Passes.holds {code : Code} {e e' : Engine} {vs : List Visit}
    (h : code.Passes .final e vs e') :
    Holds e'.code (instructions vs) ∧
      ∀ v ∈ vs, v.instruction?.isSome = v.action.op.isInstruction := by
  have hstart : (code.start .final e).pass = .final ∧
      Holds (code.start .final e).code (instructions []) := ⟨rfl, .nil⟩
  obtain ⟨halong, -, hend⟩ :=
    h.along holds_traced (fun _ _ _ hpast => hpast) (fun _ _ hpast => hpast) hstart
  refine ⟨hend, fun v hv => ?_⟩
  obtain ⟨before, after, rfl⟩ := List.append_of_mem hv
  obtain ⟨⟨hpass, -⟩, e₁, hrun⟩ := halong.visit
  cases hinstr : v.action.op.isInstruction with
  | false => rw [Visit.instruction?_eq_none hinstr]; rfl
  | true =>
      obtain ⟨i, hi, -⟩ := Visit.exists_instruction? hpass hinstr hrun
      rw [hi]
      rfl

namespace Assembler

/-- Disassembly inverts assembly: a linear sweep of the regions of code, in the
order in which they were emitted, decodes exactly the instructions that the
final pass executed, each at the address where it was assembled.  No executed
instruction is left out. -/
theorem sweep_code_eq (asm : Assembler) (actions : List Action) (s s' : Session) (a : Assembly)
    (h : asm.assemble actions s = .ok a s') (labels : UInt16 → Option String) :
    sweepAll labels (codeRegions a.engine.regions.reverse) =
        some ((instructions (asm.finalTrace actions s)).map (·.decoded labels)) ∧
      ∀ v ∈ asm.finalTrace actions s, v.instruction?.isSome = v.action.op.isInstruction := by
  obtain ⟨e₀, s₁, w, f, hprepare, hstages, -, -⟩ := assemble_eq_ok_iff.mp h
  obtain ⟨e, log, hpasses, hengine⟩ := exists_passes_finalTrace hprepare hstages
  obtain ⟨hholds, hall⟩ := hpasses.holds
  have hregions : a.engine.regions = e.regions := by rw [hengine]
  refine ⟨?_, hall⟩
  rw [hregions, codeRegions, List.filter_reverse]
  exact hholds.sweepAll_eq labels

/-- Two regions of code around a byte of data; the operand of the load has
more than sixteen bits. -/
def codeAroundData : List Action :=
  [.load {} 0x1000, .set {} "@", .plain {} (.label "loop" false), .load {} 0x12345,
    .plain {} (.width "LDA" .none), .get {} "loop", .plain {} (.instruction 0xD0),
    .load {} 7, .plain {} (.data false), .plain {} (.instruction 0xEA)]

theorem sweep_code_eq_codeAroundData :
    ∃ a s', ({} : Assembler).assemble codeAroundData {} = .ok a s' ∧
      sweepAll (fun a => if a = 0x1000 then some "loop" else none)
          (codeRegions a.engine.regions.reverse) =
        some [⟨0x1000, Opcode.ofCode 0xAD, "LDA $2345"⟩, ⟨0x1003, Opcode.ofCode 0xD0, "BNE loop"⟩,
          ⟨0x1006, Opcode.ofCode 0xEA, "NOP"⟩] := by
  have hrun : isOkWith (fun _ _ => true) (({} : Assembler).assemble codeAroundData {}) = true := by
    decide +kernel
  obtain ⟨a, s', h, -⟩ := exists_of_isOkWith hrun
  refine ⟨a, s', h, ?_⟩
  rw [(sweep_code_eq {} codeAroundData {} s' a h _).1]
  decide +kernel

end Assembler

end Mos6510
