import Mathlib.Algebra.Ring.Int.Parity
import Mos6510.Operator

/-!
# Operators on integers

Operators work on 64 bits.  This file says what they do in terms of the
integers that these stand for: sums, differences, products, quotients and
negatives are those of integers, as far as 64 bits hold them (`wrap`); bitwise
operators work on the two's complement (`bits`); a shift multiplies by a power
of two or divides by one.

* `UnaryOp.toInt_apply` and `BinaryOp.toInt_value?` say so for all operators.
-/

namespace Mos6510

/-- What 64 bits hold of an integer. -/
def wrap (n : Int) : Int := n.bmod (2 ^ 64)

/-- The bits of an integer in two's complement. -/
def bits (n : Int) : Nat := (n % 2 ^ 64).toNat

/-- One if something holds, and zero if not. -/
def indicator (p : Prop) [Decidable p] : Int := if p then 1 else 0

/-- A prefix operator on integers. -/
def UnaryOp.ofInt : UnaryOp → Int → Int
  | logicalNot, a => indicator (a = 0)
  | complement, a => -a - 1
  | negate, a => wrap (-a)
  | lowByte, a => a % 2 ^ 8
  | highByte, a => a / 2 ^ 8 % 2 ^ 8

/-- An infix operator on integers; nothing is divided by zero.  Quotients are
rounded toward zero, and shifts to the right down. -/
def BinaryOp.ofInts? : BinaryOp → Int → Int → Option Int
  | add, a, b => some (wrap (a + b))
  | sub, a, b => some (wrap (a - b))
  | mul, a, b => some (wrap (a * b))
  | div, a, b => if b = 0 then none else some (wrap (a.tdiv b))
  | and, a, b => some (wrap (bits a &&& bits b : Nat))
  | or, a, b => some (wrap (bits a ||| bits b : Nat))
  | xor, a, b => some (wrap (bits a ^^^ bits b : Nat))
  | shiftLeft, a, b => some (wrap (a * 2 ^ (b % 64).toNat))
  | shiftRight, a, b => some (a / 2 ^ (b % 64).toNat)
  | eq, a, b => some (indicator (a = b))
  | ne, a, b => some (indicator (a ≠ b))
  | lt, a, b => some (indicator (a < b))
  | le, a, b => some (indicator (a ≤ b))
  | gt, a, b => some (indicator (b < a))
  | ge, a, b => some (indicator (b ≤ a))

/-! ## Bits -/

theorem wrap_of_lt {n : Int} (h : -2 ^ 63 ≤ n) (h' : n < 2 ^ 63) : wrap n = n := by
  unfold wrap
  rw [Int.bmod_eq_of_le] <;> omega

theorem toNat_eq_bits (a : Int64) : a.toBitVec.toNat = bits a.toInt := by
  have hmod : (a.toInt % 2 ^ 64 : Int) = a.toBitVec.toNat % 2 ^ 64 := by
    rw [← Int64.toInt_toBitVec, BitVec.toInt_eq_toNat_bmod]
    exact Int.bmod_emod
  have hlt := a.toBitVec.isLt
  unfold bits
  omega

/-- The low bits of an integer are those of its two's complement. -/
theorem bits_mod (n : Int) {k : Nat} (hk : k ≤ 64) : ((bits n % 2 ^ k : Nat) : Int) = n % 2 ^ k := by
  have hdvd : (2 ^ k : Int) ∣ 2 ^ 64 := pow_dvd_pow 2 hk
  unfold bits
  rw [Int.natCast_mod, Int.toNat_of_nonneg (Int.emod_nonneg _ (by decide))]
  push_cast
  exact Int.emod_emod_of_dvd n hdvd

theorem toInt_and (a b : Int64) :
    (a &&& b).toInt = wrap (bits a.toInt &&& bits b.toInt : Nat) := by
  rw [← toNat_eq_bits, ← toNat_eq_bits, ← Int64.toInt_toBitVec, Int64.toBitVec_and,
    BitVec.toInt_and]
  rfl

theorem toInt_or (a b : Int64) :
    (a ||| b).toInt = wrap (bits a.toInt ||| bits b.toInt : Nat) := by
  rw [← toNat_eq_bits, ← toNat_eq_bits, ← Int64.toInt_toBitVec, Int64.toBitVec_or,
    BitVec.toInt_or]
  rfl

theorem toInt_xor (a b : Int64) :
    (a ^^^ b).toInt = wrap (bits a.toInt ^^^ bits b.toInt : Nat) := by
  rw [← toNat_eq_bits, ← toNat_eq_bits, ← Int64.toInt_toBitVec, Int64.toBitVec_xor,
    BitVec.toInt_xor]
  rfl

theorem toInt_complement (a : Int64) : (~~~a).toInt = -a.toInt - 1 := by
  have hle := a.le_toInt
  have hlt := a.toInt_lt
  rw [Int64.toInt_not]
  exact wrap_of_lt (by omega) (by omega)

theorem toInt_byte (a : Int64) : (a &&& 0xFF).toInt = a.toInt % 2 ^ 8 := by
  have hmask : bits (0xFF : Int64).toInt = 2 ^ 8 - 1 := by decide
  rw [toInt_and, hmask, Nat.and_two_pow_sub_one_eq_mod, bits_mod _ (by decide)]
  exact wrap_of_lt (by omega) (by omega)

/-! ## Shifts -/

/-- The amount of a shift counts modulo 64. -/
theorem toNat_amount (b : Int64) :
    ((b &&& 63).toBitVec.smod 64).toNat = (b.toInt % 64).toNat := by
  have hlow : (b &&& 63).toBitVec.toNat = bits b.toInt % 2 ^ 6 := by
    rw [Int64.toBitVec_and, BitVec.toNat_and, toNat_eq_bits]
    exact Nat.and_two_pow_sub_one_eq_mod _ 6
  have hlt : (b &&& 63).toBitVec.toNat < 64 := by
    rw [hlow]
    omega
  have hmsb : (b &&& 63).toBitVec.msb = false := by
    rw [BitVec.msb_eq_false_iff_two_mul_lt]
    omega
  have hpositive : (64 : BitVec 64).msb = false := by decide
  have hnumber : (64 : BitVec 64).toNat = 64 := rfl
  have hbits := bits_mod b.toInt (k := 6) (by decide)
  rw [BitVec.smod_eq, hmsb, hpositive]
  simp only
  rw [BitVec.umod_eq, BitVec.toNat_umod, hnumber, Nat.mod_eq_of_lt hlt, hlow]
  omega

theorem toInt_shiftLeft (a b : Int64) :
    (a <<< (b &&& 63)).toInt = wrap (a.toInt * 2 ^ (b.toInt % 64).toNat) := by
  rw [← Int64.toInt_toBitVec, Int64.toBitVec_shiftLeft, BitVec.shiftLeft_eq',
    BitVec.toInt_shiftLeft, toNat_amount, Nat.shiftLeft_eq, toNat_eq_bits, Int.natCast_mul]
  unfold bits wrap
  rw [Int.toNat_of_nonneg (Int.emod_nonneg _ (by decide)), Int.natCast_pow]
  exact Int.emod_mul_bmod a.toInt (2 ^ 64)

theorem toInt_shiftRight (a b : Int64) :
    (a >>> (b &&& 63)).toInt = a.toInt / 2 ^ (b.toInt % 64).toNat := by
  rw [← Int64.toInt_toBitVec, Int64.toBitVec_shiftRight, BitVec.sshiftRight_eq',
    BitVec.toInt_sshiftRight, toNat_amount, Int64.toInt_toBitVec, Int.shiftRight_eq_div_pow]
  push_cast
  rfl

/-! ## Operators -/

theorem toInt_truth (b : Bool) : (truth b).toInt = indicator (b = true) := by
  cases b <;> rfl

theorem indicator_congr {p q : Prop} [Decidable p] [Decidable q] (h : p ↔ q) :
    indicator p = indicator q := if_congr h rfl rfl

/-- A prefix operator does what it does on integers. -/
theorem UnaryOp.toInt_apply (op : UnaryOp) (a : Int64) : (op.apply a).toInt = op.ofInt a.toInt := by
  cases op with
  | logicalNot =>
      rw [apply, toInt_truth]
      exact indicator_congr (by rw [beq_iff_eq, ← Int64.toInt_inj, Int64.toInt_zero])
  | complement => exact toInt_complement a
  | negate => exact Int64.toInt_neg a
  | lowByte => exact toInt_byte a
  | highByte =>
      have height : (8 : Int64) = 8 &&& 63 := by decide
      rw [apply, toInt_byte, height, toInt_shiftRight]
      rfl

/-- An infix operator does what it does on integers, and has no value where
something is divided by zero. -/
theorem BinaryOp.toInt_value? (op : BinaryOp) (a b : Int64) :
    (op.value? a b).map Int64.toInt = op.ofInts? a.toInt b.toInt := by
  have hcompare : ∀ {c : Bool} {p : Prop} [Decidable p], (c = true ↔ p) →
      (some (truth c)).map Int64.toInt = some (indicator p) := by
    intro c p _ h
    rw [Option.map_some, toInt_truth, indicator_congr h]
  cases op with
  | add => exact congrArg some (Int64.toInt_add a b)
  | sub => exact congrArg some (Int64.toInt_sub a b)
  | mul => exact congrArg some (Int64.toInt_mul a b)
  | div =>
      have hzero : (b == 0) = true ↔ b.toInt = 0 := by
        rw [beq_iff_eq, ← Int64.toInt_inj, Int64.toInt_zero]
      by_cases hb : b.toInt = 0
      · simp only [value?, ofInts?, hzero.mpr hb, hb, if_true, Option.map_none]
      · simp only [value?, ofInts?, hzero, hb, if_false, Option.map_some]
        exact congrArg some (Int64.toInt_div a b)
  | and => exact congrArg some (toInt_and a b)
  | or => exact congrArg some (toInt_or a b)
  | xor => exact congrArg some (toInt_xor a b)
  | shiftLeft => exact congrArg some (toInt_shiftLeft a b)
  | shiftRight => exact congrArg some (toInt_shiftRight a b)
  | eq => exact hcompare (by rw [beq_iff_eq, Int64.toInt_inj])
  | ne => exact hcompare (by rw [bne_iff_ne, ne_eq, ne_eq, Int64.toInt_inj])
  | lt => exact hcompare (by rw [decide_eq_true_eq, Int64.lt_iff_toInt_lt])
  | le => exact hcompare (by rw [decide_eq_true_eq, Int64.le_iff_toInt_le])
  | gt => exact hcompare (by rw [decide_eq_true_eq, Int64.lt_iff_toInt_lt])
  | ge => exact hcompare (by rw [decide_eq_true_eq, Int64.le_iff_toInt_le])

end Mos6510
