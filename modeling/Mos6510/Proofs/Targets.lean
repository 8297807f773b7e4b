import Mathlib.Order.MinMax
import Mos6510.Code

/-!
# Jump targets

What becomes of jump targets when actions are prepared for execution: they
are dropped (`strip`), and each is listed with the stripped actions behind it
(`targetMarks`).

* `suffix_of_target?`: what follows a target is the end of the code;
* `target?_of_mem_marks`: where no two targets share a number, the number of a
  target leads to the actions behind it.
-/

namespace Mos6510

namespace Code

/-- Actions without their jump targets. -/
def strip (acts : List Action) : List Action := (splitTargets acts).1

/-- Each target with the actions behind it. -/
def targetMarks (acts : List Action) : List (Int × List Action) := (splitTargets acts).2

theorem strip_nil : strip [] = [] := rfl

theorem strip_target (loc : Location) (j : Int) (x : Option Expansion) (rest : List Action) :
    strip (⟨loc, .target j, x⟩ :: rest) = strip rest := rfl

theorem targetMarks_target (loc : Location) (j : Int) (x : Option Expansion)
    (rest : List Action) :
    targetMarks (⟨loc, .target j, x⟩ :: rest) = (j, strip rest) :: targetMarks rest := rfl

theorem strip_cons {a : Action} (h : isTarget a = false) (rest : List Action) :
    strip (a :: rest) = a :: strip rest := by
  obtain ⟨loc, op, x⟩ := a
  cases op with
  | target => cases h
  | _ => rfl

theorem targetMarks_cons {a : Action} (h : isTarget a = false) (rest : List Action) :
    targetMarks (a :: rest) = targetMarks rest := by
  obtain ⟨loc, op, x⟩ := a
  cases op with
  | target => cases h
  | _ => rfl

theorem exists_target {a : Action} (h : isTarget a = true) : ∃ j, a.op = .target j := by
  obtain ⟨loc, op, x⟩ := a
  cases op with
  | target j => exact ⟨j, rfl⟩
  | _ => cases h

/-- What is stripped are the targets and no other actions. -/
theorem strip_eq_filter (acts : List Action) : strip acts = acts.filter fun a => !isTarget a := by
  induction acts with
  | nil => rfl
  | cons a rest ih =>
      cases ha : isTarget a with
      | false => rw [strip_cons ha, List.filter_cons_of_pos (by rw [ha]; rfl), ih]
      | true =>
          obtain ⟨loc, op, x⟩ := a
          obtain ⟨j, rfl⟩ := exists_target ha
          rw [strip_target, List.filter_cons_of_neg (by rw [ha]; exact Bool.false_ne_true), ih]

theorem strip_append (as bs : List Action) : strip (as ++ bs) = strip as ++ strip bs := by
  simp only [strip_eq_filter, List.filter_append]

/-- What stands behind a target grows by what is added at the end. -/
theorem targetMarks_append (as bs : List Action) :
    targetMarks (as ++ bs) =
      (targetMarks as).map (fun m => (m.1, m.2 ++ strip bs)) ++ targetMarks bs := by
  induction as with
  | nil => rfl
  | cons a rest ih =>
      cases ha : isTarget a with
      | false => rw [List.cons_append, targetMarks_cons ha, targetMarks_cons ha, ih]
      | true =>
          obtain ⟨loc, op, x⟩ := a
          obtain ⟨j, rfl⟩ := exists_target ha
          rw [List.cons_append, targetMarks_target, targetMarks_target, ih, strip_append,
            List.map_cons, List.cons_append]

theorem mem_strip {acts : List Action} {a : Action} :
    a ∈ strip acts ↔ a ∈ acts ∧ isTarget a = false := by
  rw [strip_eq_filter, List.mem_filter, Bool.not_eq_true']

theorem mem_of_mem_strip {acts : List Action} {a : Action} (h : a ∈ strip acts) : a ∈ acts :=
  (mem_strip.mp h).1

/-- Each mark is that of a target, with the actions behind it. -/
theorem exists_target_of_mem_marks {acts : List Action} {m : Int × List Action}
    (hm : m ∈ targetMarks acts) :
    ∃ before a after, acts = before ++ a :: after ∧ isTarget a = true ∧ m.2 = strip after := by
  induction acts with
  | nil => exact absurd hm List.not_mem_nil
  | cons b rest ih =>
      have hlater : m ∈ targetMarks rest →
          ∃ before a after, b :: rest = before ++ a :: after ∧ isTarget a = true ∧
            m.2 = strip after := by
        intro hm
        obtain ⟨before, a, after, rfl, ha, hafter⟩ := ih hm
        exact ⟨b :: before, a, after, rfl, ha, hafter⟩
      cases hb : isTarget b with
      | false => exact hlater (targetMarks_cons hb rest ▸ hm)
      | true =>
          obtain ⟨loc, op, x⟩ := b
          obtain ⟨j, rfl⟩ := exists_target hb
          rw [targetMarks_target] at hm
          rcases List.mem_cons.mp hm with rfl | hm
          · exact ⟨[], _, rest, rfl, hb, rfl⟩
          · exact hlater hm

/-- What stands behind a target is the end of the stripped actions. -/
theorem suffix_of_mem_marks {acts : List Action} {m : Int × List Action}
    (hm : m ∈ targetMarks acts) : m.2 <:+ strip acts := by
  obtain ⟨before, ⟨loc, op, x⟩, after, rfl, ha, hafter⟩ := exists_target_of_mem_marks hm
  obtain ⟨j, rfl⟩ := exists_target ha
  rw [strip_append, strip_target, hafter]
  exact List.suffix_append _ _

/-! ## The table -/

/-- Enter targets into a table. -/
def fill (t : Array (Option (List Action))) (marks : List (Int × List Action)) :
    Array (Option (List Action)) :=
  marks.foldl (fun t m => t.setIfInBounds m.1.toNat (some m.2)) t

theorem size_fill (t : Array (Option (List Action))) (marks : List (Int × List Action)) :
    (fill t marks).size = t.size := by
  unfold fill
  induction marks generalizing t with
  | nil => rfl
  | cons m rest ih => rw [List.foldl_cons, ih, Array.size_setIfInBounds]

/-- What a table holds was there before or was entered. -/
theorem mem_of_fill {marks : List (Int × List Action)} {t : Array (Option (List Action))} {i : Nat}
    {k : List Action} (h : (fill t marks)[i]? = some (some k)) :
    t[i]? = some (some k) ∨ ∃ j : Int, j.toNat = i ∧ (j, k) ∈ marks := by
  unfold fill at h
  induction marks generalizing t with
  | nil => exact .inl h
  | cons m rest ih =>
      rcases ih h with ht | ⟨j, hj, hmem⟩
      · rw [Array.getElem?_setIfInBounds] at ht
        split at ht
        · rename_i hm
          split at ht
          · cases ht
            exact .inr ⟨m.1, hm, List.mem_cons_self⟩
          · cases ht
        · exact .inl ht
      · exact .inr ⟨j, hj, List.mem_cons_of_mem _ hmem⟩

/-- Where all targets of a number agree, one of them is enough. -/
theorem fill_of_mem {marks : List (Int × List Action)} {t : Array (Option (List Action))} {i : Nat}
    {k : List Action} (hi : i < t.size) (hagree : ∀ m ∈ marks, m.1.toNat = i → m.2 = k)
    (h : t[i]? = some (some k) ∨ ∃ j : Int, j.toNat = i ∧ (j, k) ∈ marks) :
    (fill t marks)[i]? = some (some k) := by
  unfold fill
  induction marks generalizing t with
  | nil =>
      rcases h with h | ⟨j, -, hmem⟩
      · exact h
      · exact absurd hmem List.not_mem_nil
  | cons m rest ih =>
      obtain ⟨hm, hrest⟩ := List.forall_mem_cons.mp hagree
      refine ih (by rw [Array.size_setIfInBounds]; exact hi) hrest ?_
      rw [Array.getElem?_setIfInBounds]
      -- a later mark of the same number replaces the entry by an equal one
      by_cases hmi : m.1.toNat = i
      · rw [if_pos hmi, if_pos (by omega), hm hmi]
        exact .inl rfl
      · rw [if_neg hmi]
        rcases h with h | ⟨j, hj, hmem⟩
        · exact .inl h
        · rcases List.mem_cons.mp hmem with rfl | hmem
          · exact absurd hj hmi
          · exact .inr ⟨j, hj, hmem⟩

/-- A running maximum is at least each of the numbers that it ran over. -/
theorem le_foldl_max {α : Type} (f : α → Nat) (xs : List α) (n : Nat) :
    n ≤ xs.foldl (fun n x => max n (f x)) n ∧
      ∀ x ∈ xs, f x ≤ xs.foldl (fun n x => max n (f x)) n := by
  induction xs generalizing n with
  | nil => exact ⟨Nat.le_refl n, fun _ h => absurd h List.not_mem_nil⟩
  | cons x rest ih =>
      obtain ⟨hn, hrest⟩ := ih (max n (f x))
      refine ⟨Nat.le_trans (Nat.le_max_left _ _) hn, ?_⟩
      intro y hy
      rcases List.mem_cons.mp hy with rfl | hy
      · exact Nat.le_trans (Nat.le_max_right _ _) hn
      · exact hrest y hy

/-- The table has room for every target. -/
theorem lt_size_of_mem {marks : List (Int × List Action)} {m : Int × List Action}
    (hm : m ∈ marks) (hpos : 0 ≤ m.1) : m.1.toNat < (targetTable marks).size := by
  have hsize : (targetTable marks).size = marks.foldl (fun n m => max n (m.1 + 1).toNat) 0 := by
    show (fill _ marks).size = _
    rw [size_fill, Array.size_replicate]
  have hbound := (le_foldl_max (fun m : Int × List Action => (m.1 + 1).toNat) marks 0).2 m hm
  omega

/-! ## Prepared code -/

/-- What preparation comes to. -/
theorem ofActions_eq_ok {seq : List Action} {code : Code} (h : ofActions seq = .ok code) :
    (∀ a ∈ seq, a.op.isMeta = true → isTarget a = true) ∧ code.actions = strip seq ∧
      code.targets = targetTable (targetMarks seq) ∧
      code.counters = seq.foldl (fun n a => max n (counterBound a)) 0 := by
  unfold ofActions at h
  split at h
  · cases h
  · rename_i hfind
    cases h
    refine ⟨fun a ha hmeta => ?_, rfl, rfl, rfl⟩
    have := List.find?_eq_none.mp hfind a ha
    simpa [hmeta] using this

theorem target?_eq_getElem? {code : Code} {j : Int} {k : List Action} :
    code.target? j = some k ↔ 0 ≤ j ∧ code.targets[j.toNat]? = some (some k) := by
  unfold target?
  by_cases hj : j < 0
  · rw [if_pos hj]
    constructor
    · intro h
      cases h
    · rintro ⟨hpos, -⟩
      omega
  · rw [if_neg hj, Array.getD_eq_getD_getElem?]
    cases code.targets[j.toNat]? with
    | none => simp
    | some o => simp [Int.not_lt.mp hj]

/-- Only targets lead anywhere. -/
theorem mem_marks_of_target? {seq : List Action} {code : Code} (h : ofActions seq = .ok code)
    {j : Int} {k : List Action} (hj : code.target? j = some k) :
    ∃ i : Int, i.toNat = j.toNat ∧ (i, k) ∈ targetMarks seq := by
  obtain ⟨-, -, htargets, -⟩ := ofActions_eq_ok h
  obtain ⟨-, hk⟩ := target?_eq_getElem?.mp hj
  rw [htargets] at hk
  rcases mem_of_fill hk with hnone | hmem
  · rw [Array.getElem?_replicate] at hnone
    split at hnone
    · cases hnone
    · cases hnone
  · exact hmem

/-- What follows a target is the end of the code. -/
theorem suffix_of_target? {seq : List Action} {code : Code} (h : ofActions seq = .ok code)
    {j : Int} {k : List Action} (hj : code.target? j = some k) : k <:+ code.actions := by
  obtain ⟨i, -, hmem⟩ := mem_marks_of_target? h hj
  rw [(ofActions_eq_ok h).2.1]
  exact suffix_of_mem_marks hmem

/-- What follows a target is part of the actions that were prepared. -/
theorem mem_of_target? {seq : List Action} {code : Code} (h : ofActions seq = .ok code) {j : Int}
    {k : List Action} (hj : code.target? j = some k) {a : Action} (ha : a ∈ k) : a ∈ seq := by
  obtain ⟨-, hactions, -, -⟩ := ofActions_eq_ok h
  have hmem := (suffix_of_target? h hj).subset ha
  rw [hactions] at hmem
  exact mem_of_mem_strip hmem

/-- Where no two targets share a number, it leads to what stands behind. -/
theorem target?_of_mem_marks {seq : List Action} {code : Code} (h : ofActions seq = .ok code)
    {j : Int} {k : List Action} (hpos : 0 ≤ j) (hmem : (j, k) ∈ targetMarks seq)
    (hunique : ∀ m ∈ targetMarks seq, m.1.toNat = j.toNat → m.2 = k) :
    code.target? j = some k := by
  obtain ⟨-, -, htargets, -⟩ := ofActions_eq_ok h
  refine target?_eq_getElem?.mpr ⟨hpos, ?_⟩
  have hlt := lt_size_of_mem hmem hpos
  rw [htargets]
  refine fill_of_mem ?_ hunique (.inr ⟨j, rfl, hmem⟩)
  rw [← size_fill _ (targetMarks seq)]
  exact hlt

end Code

end Mos6510
