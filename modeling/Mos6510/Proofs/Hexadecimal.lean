import Mathlib.Algebra.Group.Nat.Defs
import Mos6510.Text.Digits
import Mos6510.Text.Numeral

/-!
# Hexadecimal columns

A number that fits a width is written in exactly so many digits (`toList_hex`), and
these digits read back as the number (`readDigits_hexDigits`).
-/

namespace Mos6510.Text

/-- The last digits of a number, as many as asked for. -/
def hexDigits : Nat → Nat → List Char
  | 0, _ => []
  | width + 1, n => hexDigits width (n / 16) ++ [upperDigit (n % 16)]

theorem length_hexDigits (width n : Nat) : (hexDigits width n).length = width := by
  induction width generalizing n with
  | zero => rfl
  | succ width ih => rw [hexDigits, List.length_append, ih, List.length_singleton]

theorem hexDigits_zero (width : Nat) : hexDigits width 0 = List.replicate width '0' := by
  induction width with
  | zero => rfl
  | succ width ih =>
      rw [hexDigits, Nat.zero_div, ih, List.replicate_succ']
      rfl

theorem digitsAux_zero (fuel : Nat) (acc : List Char) :
    digitsAux upperDigit 16 fuel 0 acc = acc := by
  cases fuel <;> rfl

/-- Filled up with zeros, the digits in front of others are all digits of the width. -/
theorem replicate_digitsAux {width fuel n : Nat} (hwidth : n < 16 ^ width) (hfuel : n < 16 ^ fuel)
    (acc : List Char) :
    List.replicate (width + acc.length - (digitsAux upperDigit 16 fuel n acc).length) '0' ++
      digitsAux upperDigit 16 fuel n acc = hexDigits width n ++ acc := by
  induction width generalizing fuel n acc with
  | zero =>
      obtain rfl : n = 0 := Nat.lt_one_iff.mp hwidth
      rw [digitsAux_zero, Nat.add_sub_cancel, hexDigits_zero]
  | succ width ih =>
      obtain rfl | hpos := Nat.eq_zero_or_pos n
      · rw [digitsAux_zero, Nat.add_sub_cancel, hexDigits_zero]
      · obtain ⟨fuel, rfl⟩ : ∃ k, fuel = k + 1 :=
          Nat.exists_eq_succ_of_ne_zero (by rintro rfl; omega)
        have hwidth' : n / 16 < 16 ^ width := by
          rw [Nat.pow_succ] at hwidth
          omega
        have hfuel' : n / 16 < 16 ^ fuel := by
          rw [Nat.pow_succ] at hfuel
          omega
        rw [digitsAux, if_neg (Nat.ne_of_gt hpos), hexDigits, List.append_assoc,
          List.singleton_append, ← ih hwidth' hfuel', List.length_cons, Nat.add_right_comm,
          Nat.add_assoc]

/-- A number that fits the width is written in exactly so many digits. -/
theorem toList_hex {width n : Nat} (hpos : 0 < width) (h : n < 16 ^ width) :
    (hex width n).toList = hexDigits width n := by
  rw [hex, String.toList_ofList, zeroPad, digits]
  split
  · next hzero =>
    -- zero has a digit of its own
    obtain ⟨width, rfl⟩ := Nat.exists_eq_succ_of_ne_zero (Nat.ne_of_gt hpos)
    rw [hzero, hexDigits_zero, List.replicate_succ']
    rfl
  · have hfuel : n < 16 ^ (n.log2 + 1) :=
      Nat.lt_of_lt_of_le Nat.lt_log2_self (Nat.pow_le_pow_left (by decide) _)
    have hdigits := replicate_digitsAux h hfuel []
    rwa [List.append_nil] at hdigits

/-! ## Reading back -/

theorem digitIn?_upperDigit_hex {d : Nat} (h : d < 16) : digitIn? 16 (upperDigit d) = some d := by
  have hall : ∀ d < 16, digitIn? 16 (upperDigit d) = some d := by decide
  exact hall d h

/-- Digits are read on top of what was read before them. -/
theorem readDigits_hexDigits_append {width m n : Nat} (hwidth : n < 16 ^ width)
    (hroom : m * 16 ^ width + n < UInt64.size) (rest : List Char) :
    readDigits 16 false m (hexDigits width n ++ rest) =
      readDigits 16 false (m * 16 ^ width + n) rest := by
  induction width generalizing n rest with
  | zero =>
      obtain rfl : n = 0 := Nat.lt_one_iff.mp hwidth
      rw [Nat.pow_zero, Nat.mul_one, Nat.add_zero]
      rfl
  | succ width ih =>
      rw [Nat.pow_succ, ← Nat.mul_assoc] at hroom
      rw [Nat.pow_succ] at hwidth
      have hvalue : (m * 16 ^ width + n / 16) * 16 + n % 16 = m * 16 ^ width * 16 + n := by omega
      rw [hexDigits, List.append_assoc, List.singleton_append, ih (by omega) (by omega), readDigits,
        digitIn?_upperDigit_hex (Nat.mod_lt n (by decide)), Nat.pow_succ, ← Nat.mul_assoc]
      simp only [Bool.false_and, Bool.false_eq_true, if_false, hvalue, if_pos hroom]

/-- The digits of a number read back as the number. -/
theorem readDigits_hexDigits {width n : Nat} (hwidth : n < 16 ^ width) (hroom : n < UInt64.size) :
    readDigits 16 false 0 (hexDigits width n) = .ok n := by
  have hread := readDigits_hexDigits_append (m := 0) hwidth (by omega) []
  rwa [List.append_nil, Nat.zero_mul, Nat.zero_add] at hread

end Mos6510.Text
