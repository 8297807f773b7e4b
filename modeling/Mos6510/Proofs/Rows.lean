import Mathlib.Data.List.TakeWhile
import Mos6510.Listing

/-!
# Rows of a listing

The rows of a region hold its bytes in order (`flatMap_rows`), each at its address
(`rows_eq_append`) and behind the rows before it (`rows_pairwise`).  A row of code has at
most three bytes; a row of data stays within sixteen bytes (`moreData_le`), and one
starts at each label (`label_starts_row`).
-/

namespace Mos6510

namespace Listing

/-! ## Cutting rows -/

section

variable {more : Nat → UInt8 → List UInt8 → Nat}

theorem rows_nil (address : Nat) : rows more address [] = [] := by rw [rows]

/-- The first row, and the rows after it. -/
theorem rows_cons (address : Nat) (b : UInt8) (rest : List UInt8) :
    rows more address (b :: rest) =
      ⟨address, b :: rest.take (more address b rest)⟩ ::
        rows more (address + (b :: rest.take (more address b rest)).length)
          (rest.drop (more address b rest)) := by
  rw [rows, List.length_cons, Nat.add_assoc, Nat.add_comm 1]

/-- Every byte is in one row. -/
theorem flatMap_rows (address : Nat) (bytes : List UInt8) :
    (rows more address bytes).flatMap Row.bytes = bytes := by
  induction address, bytes using rows.induct more with
  | case1 => rw [rows_nil, List.flatMap_nil]
  | case2 address b rest n ih =>
      rw [rows, List.flatMap_cons, ih, List.cons_append, List.take_append_drop]

/-- A row starts where the rows before it end, and takes as many bytes as it may. -/
theorem rows_eq_append {address : Nat} {bytes : List UInt8} {before after : List Row} {row : Row}
    (h : rows more address bytes = before ++ row :: after) :
    row.address = address + (before.flatMap Row.bytes).length ∧
      ∃ (b : UInt8) (rest : List UInt8), row.bytes = b :: rest.take (more row.address b rest) := by
  induction before generalizing address bytes with
  | nil =>
      cases bytes with
      | nil => simp [rows_nil] at h
      | cons b rest =>
          rw [rows_cons] at h
          obtain ⟨rfl, -⟩ := List.cons.inj h
          exact ⟨rfl, b, rest, rfl⟩
  | cons first before ih =>
      cases bytes with
      | nil => simp [rows_nil] at h
      | cons b rest =>
          rw [rows_cons] at h
          obtain ⟨rfl, hrest⟩ := List.cons.inj h
          obtain ⟨haddress, hbytes⟩ := ih hrest
          refine ⟨?_, hbytes⟩
          rw [haddress, List.flatMap_cons, List.length_append, Nat.add_assoc]

theorem mem_rows {address : Nat} {bytes : List UInt8} {row : Row} (h : row ∈ rows more address bytes) :
    address ≤ row.address ∧
      ∃ (b : UInt8) (rest : List UInt8), row.bytes = b :: rest.take (more row.address b rest) := by
  obtain ⟨before, after, hrows⟩ := List.append_of_mem h
  obtain ⟨haddress, hbytes⟩ := rows_eq_append hrows
  exact ⟨by omega, hbytes⟩

/-- Each row is behind the rows before it. -/
theorem rows_pairwise (address : Nat) (bytes : List UInt8) :
    (rows more address bytes).Pairwise fun row row' => row.address < row'.address := by
  induction address, bytes using rows.induct more with
  | case1 =>
      rw [rows_nil]
      exact .nil
  | case2 address b rest n ih =>
      rw [rows]
      refine .cons (fun row hrow => ?_) ih
      have hle := (mem_rows hrow).1
      show address < row.address
      omega

end

/-! ## The cuts of code and data -/

/-- A row of code has at most three bytes. -/
theorem moreCode_le (address : Nat) (b : UInt8) (rest : List UInt8) : moreCode address b rest ≤ 2 := by
  have hsize : ∀ mode : Mode, mode.size ≤ 2 := by
    intro mode
    cases mode <;> decide
  have hmode := hsize (Opcode.ofCode b).mode
  unfold moreCode
  dsimp only
  split <;> omega

section

variable (labels : UInt16 → Option String)

/-- A row of data ends at sixteen bytes. -/
theorem moreData_le (address : Nat) (b : UInt8) (rest : List UInt8) :
    moreData labels address b rest ≤ 15 - address % 16 := by
  have hprefix := List.takeWhile_prefix (l := List.range (min rest.length (15 - address % 16)))
    fun n => (labels (UInt16.ofNat (address + 1 + n))).isNone
  have hle := hprefix.length_le
  rw [List.length_range] at hle
  exact Nat.le_trans hle (Nat.min_le_right _ _)

/-- There is no label inside a row of data. -/
theorem moreData_unlabelled {address : Nat} {b : UInt8} {rest : List UInt8} {n : Nat}
    (h : n < moreData labels address b rest) :
    labels (UInt16.ofNat (address + 1 + n)) = none := by
  unfold moreData at h
  dsimp only at h
  have hmem := List.getElem_mem h
  have hn := (List.takeWhile_prefix (l := List.range (min rest.length (15 - address % 16)))
    fun n => (labels (UInt16.ofNat (address + 1 + n))).isNone).getElem h
  rw [List.getElem_range] at hn
  rw [hn] at hmem
  have hnone := List.mem_takeWhile_imp hmem
  exact Option.isNone_iff_eq_none.mp hnone

/-- A row of data starts at each label. -/
theorem label_starts_row {address : Nat} {bytes : List UInt8} {a : Nat}
    (hlabel : labels (UInt16.ofNat a) ≠ none) (hlow : address ≤ a)
    (hhigh : a < address + bytes.length) :
    ∃ row ∈ rows (moreData labels) address bytes, row.address = a := by
  induction address, bytes using rows.induct (moreData labels) with
  | case1 address => exact absurd hhigh (Nat.not_lt.mpr hlow)
  | case2 address b rest n ih =>
      rw [rows]
      obtain rfl | hlt := Nat.eq_or_lt_of_le hlow
      · exact ⟨_, List.mem_cons_self, rfl⟩
      · -- the first row has no label inside, so the label is behind it
        have htake : (rest.take n).length = min n rest.length := List.length_take
        have hbehind : address + 1 + (rest.take n).length ≤ a := by
          by_contra hinside
          obtain ⟨k, rfl⟩ := Nat.exists_eq_add_of_le (Nat.succ_le_of_lt hlt)
          have hk : k < moreData labels address b rest := by omega
          exact hlabel (moreData_unlabelled labels hk)
        have hend : a < address + 1 + (rest.take n).length + (rest.drop n).length := by
          rw [List.length_drop]
          rw [List.length_cons] at hhigh
          omega
        obtain ⟨row, hrow, haddress⟩ := ih hbehind hend
        exact ⟨row, List.mem_cons_of_mem _ hrow, haddress⟩

end

end Listing

end Mos6510
