import Mos6510.Proofs.Effect

/-!
# Bytes at the program counter

Bytes go to the address that the program counter holds and on from there.
`Emits kind bs e e'` says that some bytes were emitted and nothing else was
done; emissions compose (`emits_append`).

* `emitSized_eq_ok`: a byte or a word emits its one or two bytes;
* `encode_eq_ok_iff`: where symbols have to have values, an instruction takes
  its operand and emits its bytes, `Opcode.bytes`, all of them below the top
  of memory;
* `encode_unreachable`: a branch that does not reach fails with its distance.
-/

namespace Mos6510

open Outcome

/-! ## Addresses -/

theorem address_succ_ne_zero {a : UInt16} : a + 1 ≠ 0 ↔ a.toNat + 1 < 0x10000 := by
  have hlt := a.toNat_lt
  rw [Ne, ← UInt16.toNat_inj, UInt16.toNat_add]
  simp only [UInt16.reduceToNat, Nat.reducePow]
  omega

theorem toNat_address_succ {a : UInt16} (h : a.toNat + 1 < 0x10000) :
    (a + 1).toNat = a.toNat + 1 := by
  rw [UInt16.toNat_add]
  simp only [UInt16.reduceToNat, Nat.reducePow]
  omega

namespace Engine

/-- A region that goes on at an address ends there, so it has room. -/
theorem noRoom_eq_false (kind : RegionKind) (a : UInt16) (rs : List Region) :
    noRoom kind a rs = false := by
  cases rs with
  | nil => rfl
  | cons r rest =>
      have hlt := a.toNat_lt
      simp only [noRoom, goesOn, Region.isFull, Bool.and_eq_false_iff, beq_eq_false_iff_ne,
        decide_eq_false_iff_not]
      omega

/-! ## Runs of bytes -/

/-- The engine after some bytes were emitted from an address on. -/
def emittedAll (e : Engine) (kind : RegionKind) : UInt16 → List UInt8 → Engine
  | _, [] => e
  | a, b :: bs => (e.emitted kind a b).emittedAll kind (a + 1) bs

/-- Regions with some bytes added from an address on. -/
def extendAll (kind : RegionKind) : UInt16 → List UInt8 → List Region → List Region
  | _, [], rs => rs
  | a, b :: bs, rs => extendAll kind (a + 1) bs (extendRegions kind a b rs)

theorem emittedAll_append (e : Engine) (kind : RegionKind) (a : UInt16) (bs cs : List UInt8) :
    e.emittedAll kind a (bs ++ cs) =
      (e.emittedAll kind a bs).emittedAll kind (a + UInt16.ofNat bs.length) cs := by
  induction bs generalizing e a with
  | nil => simp [emittedAll]
  | cons b bs ih =>
      have hnext : a + 1 + UInt16.ofNat bs.length = a + UInt16.ofNat (b :: bs).length := by
        rw [List.length_cons, UInt16.ofNat_add, UInt16.add_assoc, UInt16.add_comm 1]
        rfl
      rw [List.cons_append, emittedAll, emittedAll, ih, hnext]

@[simp] theorem regions_emittedAll (e : Engine) (kind : RegionKind) (a : UInt16)
    (bs : List UInt8) : (e.emittedAll kind a bs).regions = extendAll kind a bs e.regions := by
  induction bs generalizing e a with
  | nil => rfl
  | cons b bs ih => exact ih (e.emitted kind a b) (a + 1)

theorem pcAddress?_emitted (e : Engine) (kind : RegionKind) (a : UInt16) (b : UInt8) :
    (e.emitted kind a b).pcAddress? = some (a + 1) := by
  have hkept : (Int64.ofNat (a + 1).toNat).toUInt64.toUInt16 = a + 1 := by
    generalize a + 1 = next
    simp
  show some (Int64.ofNat (a + 1).toNat).toUInt64.toUInt16 = some (a + 1)
  rw [hkept]

/-- After some bytes the program counter is behind them. -/
theorem pcAddress?_emittedAll {e : Engine} {a : UInt16} (h : e.pcAddress? = some a)
    (kind : RegionKind) (bs : List UInt8) :
    (e.emittedAll kind a bs).pcAddress? = some (a + UInt16.ofNat bs.length) := by
  induction bs generalizing e a with
  | nil => simpa [emittedAll] using h
  | cons b bs ih =>
      rw [emittedAll, ih (pcAddress?_emitted e kind a b), List.length_cons, UInt16.ofNat_add,
        UInt16.add_assoc, UInt16.add_comm 1]
      rfl

/-- Some bytes were emitted at the program counter, below the top of memory. -/
def Emits (kind : RegionKind) (bs : List UInt8) (e e' : Engine) : Prop :=
  ∃ a, e.pcAddress? = some a ∧ a.toNat + bs.length < 0x10000 ∧ e' = e.emittedAll kind a bs

/-- Bytes are emitted one part after the other. -/
theorem emits_append {kind : RegionKind} (bs cs : List UInt8) {e e' : Engine} :
    Emits kind (bs ++ cs) e e' ↔ ∃ e₁, Emits kind bs e e₁ ∧ Emits kind cs e₁ e' := by
  -- no address wraps as long as the bytes before it fit
  have hbehind : ∀ a : UInt16, a.toNat + bs.length < 0x10000 →
      (a + UInt16.ofNat bs.length).toNat = a.toNat + bs.length := by
    intro a ha
    rw [UInt16.toNat_add, UInt16.toNat_ofNat']
    simp only [Nat.reducePow]
    omega
  constructor
  · rintro ⟨a, ha, hroom, rfl⟩
    rw [List.length_append] at hroom
    refine ⟨_, ⟨a, ha, by omega, rfl⟩, _, pcAddress?_emittedAll ha kind bs, ?_, ?_⟩
    · rw [hbehind a (by omega)]
      omega
    · exact emittedAll_append e kind a bs cs
  · rintro ⟨_, ⟨a, ha, hroom, rfl⟩, a', ha', hroom', rfl⟩
    obtain rfl := Option.some.inj ((pcAddress?_emittedAll ha kind bs).symm.trans ha')
    rw [hbehind a hroom] at hroom'
    refine ⟨a, ha, ?_, (emittedAll_append e kind a bs cs).symm⟩
    rw [List.length_append]
    omega

/-- A byte is emitted wherever there is room for it. -/
theorem emit_emits {kind : RegionKind} {v : Int64} {u : Unit} {e e' : Engine} :
    emit kind v e = .ok u e' ↔ Emits kind [v.toUInt64.toUInt8] e e' := by
  rw [emit_eq_ok]
  constructor
  · rintro ⟨a, ha, -, hwrap, rfl⟩
    exact ⟨a, ha, address_succ_ne_zero.mp hwrap, rfl⟩
  · rintro ⟨a, ha, hroom, rfl⟩
    exact ⟨a, ha, noRoom_eq_false kind a _, address_succ_ne_zero.mpr hroom, rfl⟩

/-- The bytes of a value: its low one, or its two low ones, lowest first. -/
def sizedBytes (word : Bool) (v : Int64) : List UInt8 :=
  if word then [v.toUInt64.toUInt8, (v >>> 8).toUInt64.toUInt8] else [v.toUInt64.toUInt8]

theorem emitSized_eq_ok {kind : RegionKind} {word : Bool} {v : Int64} {u : Unit}
    {e e' : Engine} :
    emitSized kind word v e = .ok u e' ↔ Emits kind (sizedBytes word v) e e' := by
  unfold emitSized emitWord sizedBytes
  cases word with
  | false => exact emit_emits
  | true =>
      show _ ↔ Emits kind ([v.toUInt64.toUInt8] ++ [(v >>> 8).toUInt64.toUInt8]) e e'
      rw [if_pos rfl, bind_eq_ok, emits_append]
      constructor
      · rintro ⟨_, e₁, hlow, hhigh⟩
        exact ⟨e₁, emit_emits.mp hlow, emit_emits.mp hhigh⟩
      · rintro ⟨e₁, hlow, hhigh⟩
        exact ⟨(), e₁, emit_emits.mpr hlow, emit_emits.mpr hhigh⟩

end Engine

/-! ## Instructions -/

namespace Opcode

/-- The operand that the instruction takes from a stack, and the stack that is
left.  An implied operand is not on the stack. -/
def takeOperand? (op : Opcode) (s : Stack) : Option (Int64 × Stack) :=
  if op.mode = .implied then some (0, s)
  else match s.values with
    | [] => none
    | v :: rest => some (v, ⟨rest⟩)

/-- The bytes after the opcode byte of an instruction at an address.  A branch
holds the distance to its operand. -/
def operandBytes (op : Opcode) (a : UInt16) (v : Int64) : List UInt8 :=
  if op.mode = .implied then []
  else if op.mode = .relative then [(Engine.branchDistance v (a + 1)).toUInt64.toUInt8]
  else Engine.sizedBytes (op.mode.size == 2) v

/-- The bytes of an instruction at an address. -/
def bytes (op : Opcode) (a : UInt16) (v : Int64) : List UInt8 := op.code :: op.operandBytes a v

@[simp] theorem length_bytes (op : Opcode) (a : UInt16) (v : Int64) :
    (op.bytes a v).length = op.length := by
  unfold bytes operandBytes length Engine.sizedBytes
  cases op.mode <;> rfl

/-- Is the operand of an instruction at an address within its reach?  Only
branches have a limited one. -/
def Reaches (op : Opcode) (a : UInt16) (v : Int64) : Prop :=
  op.mode = .relative → Engine.inReach (Engine.branchDistance v (a + 1))

end Opcode

namespace Engine

/-- An opcode byte is emitted wherever there is room for it. -/
theorem emit_opcode {a : UInt16} {e : Engine} (op : Opcode) (ha : e.pcAddress? = some a)
    (hroom : a.toNat + 1 < 0x10000) :
    emit .code (Int64.ofNat op.code.toNat) e = .ok () (e.emitted .code a op.code) := by
  have hcode : (Int64.ofNat op.code.toNat).toUInt64.toUInt8 = op.code := by simp
  refine emit_emits.mpr ?_
  rw [hcode]
  exact ⟨a, ha, hroom, rfl⟩

/-- What follows the opcode byte, in a strict pass. -/
theorem emit_operand_eq_ok {op : Opcode} {a : UInt16} {v : Int64} {u : Unit} {e e' : Engine}
    (ha : e.pcAddress? = some (a + 1)) (hstrict : e.strict = true) (hmode : op.mode ≠ .implied) :
    (if op.mode == .relative then emitBranch v else emitSized .code (op.mode.size == 2) v) e =
        .ok u e' ↔
      op.Reaches a v ∧ Emits .code (op.operandBytes a v) e e' := by
  unfold Opcode.Reaches Opcode.operandBytes
  -- a branch is measured from the address behind its one operand byte
  by_cases hrelative : op.mode = .relative
  · rw [if_pos (by simpa using hrelative), if_neg hmode, if_pos hrelative, emitBranch_eq_ok]
    constructor
    · rintro ⟨a', ha', ⟨-, hreach, hemit⟩ | ⟨hnot, -⟩⟩
      · obtain rfl := Option.some.inj (ha.symm.trans ha')
        exact ⟨fun _ => hreach, emit_emits.mp hemit⟩
      · rw [hstrict] at hnot
        cases hnot
    · rintro ⟨hreach, hemit⟩
      refine ⟨a + 1, ha, .inl ⟨?_, hreach hrelative, emit_emits.mpr hemit⟩⟩
      rw [hstrict]
      rfl
  · rw [if_neg (by simpa using hrelative), if_neg hmode, if_neg hrelative, emitSized_eq_ok]
    exact ⟨fun h => ⟨fun hr => absurd hr hrelative, h⟩, fun h => h.2⟩

/-- In a strict pass an instruction takes its operand, which has to be in
reach, and emits its bytes. -/
theorem encode_eq_ok_iff {op : Opcode} {u : Unit} {e e' : Engine} (hstrict : e.strict = true) :
    encode op e = .ok u e' ↔
      ∃ v s a, op.takeOperand? e.stack = some (v, s) ∧ e.pcAddress? = some a ∧
        op.Reaches a v ∧ Emits .code (op.bytes a v) { e with stack := s } e' := by
  have hcode : (Int64.ofNat op.code.toNat).toUInt64.toUInt8 = op.code := by simp
  unfold encode Opcode.takeOperand? Opcode.bytes
  -- an implied operation takes no operand; all others pop one first
  by_cases hmode : op.mode = .implied
  · rw [if_pos (by simpa using hmode), if_pos hmode, emit_emits, hcode]
    constructor
    · rintro ⟨a, ha, hemits⟩
      refine ⟨0, e.stack, a, rfl, ha, fun hr => ?_, a, ha, ?_⟩
      · rw [hmode] at hr
        cases hr
      · rw [Opcode.operandBytes, if_pos hmode]
        exact hemits
    · rintro ⟨v, s, a, hs, -, -, hemits⟩
      cases hs
      rw [Opcode.operandBytes, if_pos hmode] at hemits
      exact hemits
  · rw [if_neg (by simpa using hmode), if_neg hmode, bind_eq_ok]
    constructor
    · rintro ⟨v, e₁, hpop, h⟩
      obtain ⟨rest, hs, rfl⟩ := pop_eq_ok.mp hpop
      obtain ⟨_, e₂, hemit, h⟩ := bind_eq_ok.mp h
      have hemits := emit_emits.mp hemit
      rw [hcode] at hemits
      obtain ⟨a, ha, hroom, rfl⟩ := hemits
      have ha₂ := pcAddress?_emitted { e with stack := ⟨rest⟩ } .code a op.code
      obtain ⟨hreach, hoperand⟩ := (emit_operand_eq_ok ha₂ hstrict hmode).mp h
      refine ⟨v, ⟨rest⟩, a, by rw [hs], ha, hreach, ?_⟩
      exact (emits_append [op.code] _).mpr ⟨_, ⟨a, ha, hroom, rfl⟩, hoperand⟩
    · rintro ⟨v, s, a, htake, ha, hreach, hemits⟩
      obtain ⟨e₂, ⟨a', ha', hroom, rfl⟩, hoperand⟩ := (emits_append [op.code] _).mp hemits
      obtain rfl : a = a' := Option.some.inj (ha.symm.trans ha')
      cases hs : e.stack.values with
      | nil =>
          rw [hs] at htake
          cases htake
      | cons w rest =>
          rw [hs] at htake
          cases htake
          have hemit := emit_opcode (e := { e with stack := ⟨rest⟩ }) op ha hroom
          have ha₂ := pcAddress?_emitted { e with stack := ⟨rest⟩ } .code a op.code
          refine ⟨v, _, pop_eq_ok.mpr ⟨rest, hs, rfl⟩, ?_⟩
          rw [bind_of_ok hemit]
          exact (emit_operand_eq_ok ha₂ hstrict hmode).mpr ⟨hreach, hoperand⟩

theorem emitBranch_unreachable {v : Int64} {a : UInt16} {e : Engine} (ha : e.pcAddress? = some a)
    (hstrict : e.strict = true) (hreach : ¬inReach (branchDistance v a)) :
    emitBranch v e = .error (.branchReach (branchDistance v a)) e := by
  have hcheck : (e.strict || !e.unresolved) = true := by rw [hstrict]; rfl
  have hfar : (branchDistance v a < -128 || 127 < branchDistance v a) = true :=
    Classical.not_not.mp hreach
  unfold emitBranch
  rw [bind_of_ok (pcAddress_eq_ok.mpr ⟨ha, rfl⟩), bind_of_ok (get_eq_ok.mpr ⟨rfl, rfl⟩),
    if_pos hcheck, if_pos hfar]
  rfl

/-- A branch out of reach fails with its distance. -/
theorem encode_unreachable {op : Opcode} {v : Int64} {rest : List Int64} {a : UInt16} {e : Engine}
    (hstrict : e.strict = true) (hs : e.stack.values = v :: rest) (ha : e.pcAddress? = some a)
    (hroom : a.toNat + 1 < 0x10000) (hmode : op.mode = .relative)
    (hreach : ¬inReach (branchDistance v (a + 1))) :
    ∃ e', encode op e = .error (.branchReach (branchDistance v (a + 1))) e' := by
  have hemit := emit_opcode (e := { e with stack := ⟨rest⟩ }) op ha hroom
  have ha' := pcAddress?_emitted { e with stack := ⟨rest⟩ } .code a op.code
  refine ⟨_, Eq.trans ?_ (emitBranch_unreachable ha' hstrict hreach)⟩
  unfold encode
  rw [hmode, if_neg (by decide), bind_of_ok (pop_eq_ok.mpr ⟨rest, hs, rfl⟩), bind_of_ok hemit]
  rfl

end Engine

end Mos6510
