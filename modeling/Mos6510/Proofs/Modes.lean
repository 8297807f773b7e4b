import Mos6510.Opcode.Matrix

/-!
# The modes of a mnemonic

The modes that a mnemonic has are looked up in the opcodes, which are the
entries of the matrix (`Opcode.all_entries`).  So they can be read off the
matrix itself: `has_iff` says so of one mode, and `isBranch_iff` of all of them
at once.
-/

namespace Mos6510

/-- The opcodes are the entries of the matrix. -/
theorem Opcode.all_entries :
    Opcode.all.map (fun op => (op.mnemonic, op.mode, op.documented)) = matrix.toList := by
  have hsize : matrix.size = 256 := by decide +kernel
  unfold all
  rw [List.map_map]
  refine List.ext_getElem (by simp [hsize]) fun n h₁ h₂ => ?_
  have hn : n < 256 := by simpa using h₁
  simp [ofCode, Array.getD, hsize, Nat.mod_eq_of_lt hn, hn]

namespace Mnemonic

/-- The mnemonics that have an encoding in a mode, in the order of the
matrix. -/
def withMode (mode : Mode) : List Mnemonic :=
  (Opcode.matrix.toList.filter fun entry => entry.2.1 == mode).map (·.1)

theorem has_iff {m : Mnemonic} {mode : Mode} : m.has mode = true ↔ m ∈ withMode mode := by
  have hfits : m.has mode = true ↔
      ∃ op, op ∈ Opcode.all.filter fun op => op.mnemonic == m && op.mode == mode := by
    unfold has encoding?
    cases Opcode.all.filter fun op => op.mnemonic == m && op.mode == mode with
    | nil => simp
    | cons op rest => simp
  have hentries : m ∈ withMode mode ↔ ∃ documented, (m, mode, documented) ∈
      Opcode.all.map fun op => (op.mnemonic, op.mode, op.documented) := by
    rw [Opcode.all_entries]
    simp [withMode]
  rw [hfits, hentries]
  constructor
  · rintro ⟨op, hop⟩
    obtain ⟨hall, hop⟩ := List.mem_filter.mp hop
    simp only [Bool.and_eq_true, beq_iff_eq] at hop
    exact ⟨op.documented, List.mem_map.mpr ⟨op, hall, by rw [hop.1, hop.2]⟩⟩
  · rintro ⟨documented, hmem⟩
    obtain ⟨op, hall, heq⟩ := List.mem_map.mp hmem
    cases heq
    exact ⟨op, List.mem_filter.mpr ⟨hall, by simp⟩⟩

/-- A branch has no direct encoding. -/
theorem isBranch_of_has {m : Mnemonic} {mode : Mode} (h : m.has mode = true)
    (hmode : mode ≠ .relative) : m.isBranch = false := by
  have hmem : mode ∈ m.modes := by
    refine List.mem_filter.mpr ⟨?_, h⟩
    cases mode <;> decide
  unfold isBranch
  rw [beq_eq_false_iff_ne]
  intro hmodes
  rw [hmodes] at hmem
  exact hmode (List.mem_singleton.mp hmem)

/-- The branches, as the matrix has them. -/
theorem isBranch_iff {m : Mnemonic} :
    m.isBranch = true ↔ (Mode.all.filter fun mode => m ∈ withMode mode) = [.relative] := by
  have hmodes : m.modes = Mode.all.filter fun mode => m ∈ withMode mode :=
    List.filter_congr fun mode _ => Bool.eq_iff_iff.mpr (Iff.trans has_iff decide_eq_true_iff.symm)
  unfold isBranch
  rw [beq_iff_eq, hmodes]

end Mnemonic

end Mos6510
