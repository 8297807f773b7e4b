import Mos6510.Machine

/-!
# Cycles of instructions

An instruction takes the cycles of its mnemonic and mode, one more if indexing
leaves the page, and one or two more for a branch that is taken.  Carrying it out
counts nothing else, so every step takes from two to nine cycles (`step_cycles`).
-/

namespace Mos6510.Machine

variable (m : Machine)

/-! ## What does not count -/

theorem sum_cycles (v : UInt8) :
    (if m.flags.decimal then m.addDecimal v else m.addBinary v).cycles = m.cycles := by
  split <;> rfl

theorem difference_cycles (v : UInt8) :
    (if m.flags.decimal then m.subDecimal v else m.subBinary v).cycles = m.cycles := by
  split <;> rfl

theorem modify_cycles (mn : Mnemonic) (mode : Mode) (o : Operand) :
    (m.modify mn mode o).cycles = m.cycles := by
  unfold modify
  split <;> rfl

/-! ## What counts -/

/-- A branch takes no cycle, or one or two if it is taken. -/
theorem branch_cycles (taken : Bool) (o : Operand) :
    ∃ n : UInt64, n ≤ 2 ∧ (m.branch taken o).cycles = m.cycles + n := by
  unfold branch
  split
  · refine ⟨_, ?_, rfl⟩
    split <;> decide
  · exact ⟨0, by decide, (UInt64.add_zero _).symm⟩

/-- Only branches take cycles when they are carried out. -/
theorem perform_cycles (mn : Mnemonic) (mode : Mode) (o : Operand) :
    ∃ n : UInt64, n ≤ 2 ∧ (m.perform mn mode o).cycles = m.cycles + n := by
  have hkept : ∀ {m' : Machine}, m'.cycles = m.cycles → ∃ n : UInt64, n ≤ 2 ∧ m'.cycles = m.cycles + n :=
    fun h => ⟨0, by decide, h.trans (UInt64.add_zero _).symm⟩
  cases mn
  case bcc | bcs | beq | bne | bmi | bpl | bvc | bvs => exact m.branch_cycles _ o
  case adc => exact hkept (m.sum_cycles _)
  case sbc => exact hkept (m.difference_cycles _)
  case asl | lsr | rol | ror | inc | dec => exact hkept (m.modify_cycles _ mode o)
  all_goals exact hkept rfl

theorem readCycles_bounds (mode : Mode) (crossed : Bool) :
    2 ≤ readCycles mode + (if crossed then 1 else 0) ∧
      readCycles mode + (if crossed then 1 else 0) ≤ 7 := by
  cases mode <;> cases crossed <;> decide

theorem storeCycles_bounds (mode : Mode) : 2 ≤ storeCycles mode ∧ storeCycles mode ≤ 7 := by
  cases mode <;> decide

theorem modifyCycles_bounds (mode : Mode) : 2 ≤ modifyCycles mode ∧ modifyCycles mode ≤ 7 := by
  cases mode <;> decide

theorem baseCycles_bounds (mn : Mnemonic) (mode : Mode) (crossed : Bool) :
    2 ≤ baseCycles mn mode crossed ∧ baseCycles mn mode crossed ≤ 7 := by
  unfold baseCycles
  split
  case h_9 => split <;> decide
  case h_10 =>
    split
    · exact modifyCycles_bounds mode
    · split
      · exact storeCycles_bounds mode
      · exact readCycles_bounds mode crossed
  all_goals decide

/-- Every step takes from two to nine cycles. -/
theorem step_cycles : ∃ n : UInt64, 2 ≤ n ∧ n ≤ 9 ∧ m.step.cycles = m.cycles + n := by
  let op := Opcode.ofCode (m.memory.get m.pc)
  let o := m.operand op.mode
  obtain ⟨hlow, hhigh⟩ := baseCycles_bounds op.mnemonic op.mode o.crossed
  let begun : Machine := { m with
    pc := m.pc + UInt16.ofNat op.length
    cycles := m.cycles + baseCycles op.mnemonic op.mode o.crossed }
  obtain ⟨n, hn, hperform⟩ := begun.perform_cycles op.mnemonic op.mode o
  have hsum : ∀ {b : UInt64}, 2 ≤ b → b ≤ 7 → 2 ≤ b + n ∧ b + n ≤ 9 := by
    intro b hlow hhigh
    simp only [UInt64.le_iff_toNat_le, UInt64.toNat_add, UInt64.reduceToNat] at *
    omega
  obtain ⟨hlow, hhigh⟩ := hsum hlow hhigh
  exact ⟨_, hlow, hhigh, hperform.trans (UInt64.add_assoc _ _ _)⟩

end Mos6510.Machine
