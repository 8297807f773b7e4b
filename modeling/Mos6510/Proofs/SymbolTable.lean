import Mathlib.Data.List.Forall2
import Mos6510.Engine.State

/-!
# Symbol tables

What look-up and update do to a table, and how tables with the same names are
compared: `Pointwise r t u` relates the cells of each name.
-/

namespace Mos6510

/-- Two cells that differ at most in whether they were read. -/
def Cell.Same (c d : Cell) : Prop := c.value = d.value ∧ c.isSet = d.isSet

theorem Cell.Same.refl (c : Cell) : c.Same c := ⟨rfl, rfl⟩

theorem Cell.same_read (c : Cell) : c.Same c.read := ⟨rfl, rfl⟩

namespace SymbolTable

/-! ## Look-up and update -/

theorem findIn_updateIn (n m : String) (f : Cell → Cell) (es : List (String × Cell)) :
    findIn m (updateIn n f es) = if m = n then (findIn m es).map f else findIn m es := by
  induction es with
  | nil => simp [updateIn, findIn]
  | cons x rest ih =>
      obtain ⟨k, c⟩ := x
      by_cases hkn : k = n
      · subst hkn
        by_cases hm : m = k
        · simp [updateIn, findIn, hm]
        · simp [updateIn, findIn, hm, Ne.symm hm]
      · by_cases hkm : k = m
        · subst hkm
          simp [updateIn, findIn, hkn]
        · simp [updateIn, findIn, hkn, hkm, ih]

/-- An update changes the cell of its name and no other. -/
theorem find?_update (t : SymbolTable) (n m : String) (f : Cell → Cell) :
    (t.update n f).find? m = if m = n then (t.find? m).map f else t.find? m :=
  findIn_updateIn n m f t.entries

theorem updateIn_names (n : String) (f : Cell → Cell) (es : List (String × Cell)) :
    (updateIn n f es).map (·.1) = es.map (·.1) := by
  induction es with
  | nil => rfl
  | cons x rest ih =>
      obtain ⟨k, c⟩ := x
      by_cases hkn : k = n
      · simp [updateIn, hkn]
      · simp [updateIn, hkn, ih]

/-- An update keeps the names. -/
@[simp] theorem names_update (t : SymbolTable) (n : String) (f : Cell → Cell) :
    (t.update n f).names = t.names :=
  updateIn_names n f t.entries

theorem contains_iff {t : SymbolTable} {n : String} : t.contains n = true ↔ n ∈ t.names := by
  unfold contains names
  rw [List.any_eq_true, List.mem_map]
  constructor
  · rintro ⟨x, hx, hn⟩
    exact ⟨x, hx, by simpa using hn⟩
  · rintro ⟨x, hx, hn⟩
    exact ⟨x, hx, by simpa using hn⟩

theorem findIn_eq_some_of_mem {n : String} {c : Cell} {es : List (String × Cell)}
    (hnodup : (es.map (·.1)).Nodup) (hmem : (n, c) ∈ es) : findIn n es = some c := by
  induction es with
  | nil => cases hmem
  | cons x rest ih =>
      obtain ⟨k, d⟩ := x
      rw [List.map_cons, List.nodup_cons] at hnodup
      rcases List.mem_cons.mp hmem with heq | hmem
      · cases heq
        simp [findIn]
      · have hkn : k ≠ n := by
          rintro rfl
          exact hnodup.1 (List.mem_map.mpr ⟨(k, c), hmem, rfl⟩)
        simp [findIn, hkn, ih hnodup.2 hmem]

/-- With each name once, an entry is what look-up finds. -/
theorem find?_eq_some_of_mem {t : SymbolTable} (hnodup : t.names.Nodup) {n : String} {c : Cell}
    (hmem : (n, c) ∈ t.entries) : t.find? n = some c :=
  findIn_eq_some_of_mem hnodup hmem

theorem mem_of_findIn_eq_some {n : String} {c : Cell} {es : List (String × Cell)}
    (h : findIn n es = some c) : (n, c) ∈ es := by
  induction es with
  | nil => cases h
  | cons x rest ih =>
      obtain ⟨k, d⟩ := x
      by_cases hkn : k = n
      · subst hkn
        simp only [findIn, beq_self_eq_true, if_true, Option.some.injEq] at h
        subst h
        exact List.mem_cons_self
      · simp only [findIn, beq_iff_eq, if_neg hkn] at h
        exact List.mem_cons_of_mem _ (ih h)

theorem contains_of_find? {t : SymbolTable} {n : String} {c : Cell} (h : t.find? n = some c) :
    t.contains n = true :=
  contains_iff.mpr (List.mem_map.mpr ⟨(n, c), mem_of_findIn_eq_some h, rfl⟩)

/-- With each name once, a listed value is that of the cell that look-up finds. -/
theorem find?_of_mem_values {t : SymbolTable} (hnodup : t.names.Nodup) {n : String} {v : Int64}
    (hmem : (n, v) ∈ t.values) : ∃ c, t.find? n = some c ∧ c.value = v := by
  obtain ⟨⟨m, c⟩, hc, heq⟩ := List.mem_map.mp hmem
  cases heq
  exact ⟨c, find?_eq_some_of_mem hnodup hc, rfl⟩

/-! ## Tables with the same names -/

/-- The same names in the same order, with related cells. -/
def Pointwise (r : String → Cell → Cell → Prop) (t u : SymbolTable) : Prop :=
  List.Forall₂ (fun x y => x.1 = y.1 ∧ r x.1 x.2 y.2) t.entries u.entries

namespace Pointwise

variable {r s : String → Cell → Cell → Prop} {t u v : SymbolTable}

theorem refl (h : ∀ n c, r n c c) (t : SymbolTable) : Pointwise r t t :=
  List.forall₂_same.mpr fun x _ => ⟨rfl, h x.1 x.2⟩

theorem imp (h : Pointwise r t u) (hrs : ∀ n c d, r n c d → s n c d) : Pointwise s t u :=
  List.Forall₂.imp (fun x y hxy => ⟨hxy.1, hrs x.1 x.2 y.2 hxy.2⟩) h

/-- The cells that are compared are entries of the tables. -/
theorem imp_of_mem (h : Pointwise r t u)
    (hrs : ∀ n c d, (n, c) ∈ t.entries → (n, d) ∈ u.entries → r n c d → s n c d) :
    Pointwise s t u := by
  unfold Pointwise at h ⊢
  generalize t.entries = ts at h hrs ⊢
  generalize u.entries = us at h hrs ⊢
  induction h with
  | nil => exact .nil
  | @cons x y xs ys hxy _ ih =>
      obtain ⟨k, c⟩ := x
      obtain ⟨k', d⟩ := y
      obtain ⟨rfl, hr⟩ : k = k' ∧ r k c d := hxy
      refine .cons ⟨rfl, hrs k c d List.mem_cons_self List.mem_cons_self hr⟩ (ih ?_)
      intro n c' d' hc' hd'
      exact hrs n c' d' (List.mem_cons_of_mem _ hc') (List.mem_cons_of_mem _ hd')

theorem flip (h : Pointwise r t u) : Pointwise (fun n c d => r n d c) u t := by
  unfold Pointwise at h ⊢
  exact List.Forall₂.flip (h.imp fun x y hxy => ⟨hxy.1.symm, hxy.1 ▸ hxy.2⟩)

/-- Comparisons chain. -/
theorem comp {q : String → Cell → Cell → Prop} (htu : Pointwise r t u) (huv : Pointwise s u v)
    (hq : ∀ n b c d, r n b c → s n c d → q n b d) : Pointwise q t v := by
  unfold Pointwise at htu huv ⊢
  generalize t.entries = ts at htu ⊢
  generalize u.entries = us at htu huv
  generalize v.entries = vs at huv ⊢
  induction htu generalizing vs with
  | nil =>
      cases huv
      exact .nil
  | cons hxy _ ih =>
      cases huv with
      | cons hyz hrest =>
          obtain ⟨hn, hr⟩ := hxy
          obtain ⟨hn', hs⟩ := hyz
          refine .cons ⟨hn.trans hn', hq _ _ _ _ hr ?_⟩ (ih _ hrest)
          rw [hn]
          exact hs

theorem names_eq (h : Pointwise r t u) : t.names = u.names := by
  unfold Pointwise at h
  unfold names
  generalize t.entries = ts at h ⊢
  generalize u.entries = us at h ⊢
  induction h with
  | nil => rfl
  | cons hxy _ ih => rw [List.map_cons, List.map_cons, hxy.1, ih]

theorem contains_eq (h : Pointwise r t u) (n : String) : t.contains n = u.contains n := by
  rw [Bool.eq_iff_iff, contains_iff, contains_iff, h.names_eq]

/-- Look-up finds related cells, or nothing on both sides. -/
theorem find? (h : Pointwise r t u) (n : String) :
    (t.find? n = none ∧ u.find? n = none) ∨
      ∃ c d, t.find? n = some c ∧ u.find? n = some d ∧ r n c d := by
  unfold Pointwise at h
  unfold SymbolTable.find?
  generalize t.entries = ts at h ⊢
  generalize u.entries = us at h ⊢
  induction h with
  | nil => exact .inl ⟨rfl, rfl⟩
  | @cons x y xs ys hxy _ ih =>
      obtain ⟨k, c⟩ := x
      obtain ⟨k', d⟩ := y
      obtain ⟨rfl, hr⟩ : k = k' ∧ r k c d := hxy
      by_cases hkn : k = n
      · subst hkn
        exact .inr ⟨c, d, by simp [findIn], by simp [findIn], hr⟩
      · simpa [findIn, hkn] using ih

/-- Updates of related cells to related cells keep tables related. -/
theorem update (h : Pointwise r t u) (n : String) {f g : Cell → Cell}
    (hfg : ∀ c d, r n c d → r n (f c) (g d)) : Pointwise r (t.update n f) (u.update n g) := by
  unfold Pointwise at h ⊢
  unfold SymbolTable.update
  generalize t.entries = ts at h ⊢
  generalize u.entries = us at h ⊢
  induction h with
  | nil => exact .nil
  | @cons x y xs ys hxy hrest ih =>
      obtain ⟨k, c⟩ := x
      obtain ⟨k', d⟩ := y
      obtain ⟨rfl, hr⟩ : k = k' ∧ r k c d := hxy
      by_cases hkn : k = n
      · subst hkn
        simpa [updateIn] using ⟨hfg c d hr, hrest⟩
      · simpa [updateIn, hkn] using ⟨hr, ih⟩

/-- Updates under one name may establish another relation, which only has to
hold of the other names already. -/
theorem update_of_ne (h : Pointwise r t u) (hnodup : t.names.Nodup) (n : String)
    {f g : Cell → Cell} (hne : ∀ m c d, m ≠ n → r m c d → s m c d)
    (hfg : ∀ c d, r n c d → s n (f c) (g d)) : Pointwise s (t.update n f) (u.update n g) := by
  unfold Pointwise at h ⊢
  unfold SymbolTable.update
  unfold names at hnodup
  generalize t.entries = ts at h hnodup ⊢
  generalize u.entries = us at h ⊢
  induction h with
  | nil => exact .nil
  | @cons x y xs ys hxy hrest ih =>
      obtain ⟨k, c⟩ := x
      obtain ⟨k', d⟩ := y
      obtain ⟨rfl, hr⟩ : k = k' ∧ r k c d := hxy
      rw [List.map_cons, List.nodup_cons] at hnodup
      by_cases hkn : k = n
      · subst hkn
        rw [updateIn, if_pos (beq_self_eq_true k), updateIn, if_pos (beq_self_eq_true k)]
        refine .cons ⟨rfl, hfg c d hr⟩ ?_
        -- the name does not come again
        refine imp_of_mem (t := ⟨xs⟩) (u := ⟨ys⟩) hrest fun m c' d' hc' _ => hne m c' d' ?_
        rintro rfl
        exact hnodup.1 (List.mem_map.mpr ⟨(m, c'), hc', rfl⟩)
      · rw [updateIn, if_neg (by simpa using hkn), updateIn, if_neg (by simpa using hkn)]
        exact .cons ⟨rfl, hne k c d hkn hr⟩ (ih hnodup.2)

/-- Tables with related cells of equal values list the same values. -/
theorem values_eq (h : Pointwise r t u) (hr : ∀ n c d, r n c d → c.value = d.value) :
    t.values = u.values := by
  unfold Pointwise at h
  unfold values
  generalize t.entries = ts at h ⊢
  generalize u.entries = us at h ⊢
  induction h with
  | nil => rfl
  | cons hxy _ ih => rw [List.map_cons, List.map_cons, hxy.1, hr _ _ _ hxy.2, ih]

/-- Tables that list the same values have related cells of equal values. -/
theorem of_values_eq (h : Pointwise r t u) (hv : t.values = u.values) :
    Pointwise (fun n c d => r n c d ∧ c.value = d.value) t u := by
  unfold Pointwise at h ⊢
  unfold values at hv
  generalize t.entries = ts at h hv ⊢
  generalize u.entries = us at h hv ⊢
  induction h with
  | nil => exact .nil
  | cons hxy _ ih =>
      rw [List.map_cons, List.map_cons, List.cons.injEq, Prod.mk.injEq] at hv
      exact .cons ⟨hxy.1, hxy.2, hv.1.2⟩ (ih hv.2)

end Pointwise

/-- An update is a change of the cells of its name. -/
theorem pointwise_update {r : String → Cell → Cell → Prop} (hr : ∀ n c, r n c c)
    (t : SymbolTable) (n : String) {f : Cell → Cell} (hf : ∀ c, r n c (f c)) :
    Pointwise r t (t.update n f) := by
  unfold Pointwise update
  induction t.entries with
  | nil => exact .nil
  | cons x rest ih =>
      obtain ⟨k, c⟩ := x
      by_cases hkn : k = n
      · subst hkn
        rw [updateIn, if_pos (beq_self_eq_true k)]
        exact .cons ⟨rfl, hf c⟩ (List.forall₂_same.mpr fun x _ => ⟨rfl, hr x.1 x.2⟩)
      · rw [updateIn, if_neg (by simpa using hkn)]
        exact .cons ⟨rfl, hr k c⟩ ih

end SymbolTable

/-! ## Symbols of the engine -/

namespace Engine

/-- A read changes nothing but the note that a cell was read. -/
theorem markRead_eq (e : Engine) (full : String) (c : Cell) :
    ∃ vars labels pc, e.markRead full c = { e with vars := vars, labels := labels, pc := pc } ∧
      SymbolTable.Pointwise (fun _ => Cell.Same) e.vars vars ∧
      SymbolTable.Pointwise (fun _ => Cell.Same) e.labels labels ∧ e.pc.Same pc := by
  have hrefl := fun t => SymbolTable.Pointwise.refl (r := fun _ => Cell.Same)
    (fun _ => Cell.Same.refl) t
  have hupdate := fun t => SymbolTable.pointwise_update (r := fun _ => Cell.Same)
    (fun _ => Cell.Same.refl) t full Cell.same_read
  unfold markRead updateCell
  split
  · exact ⟨e.vars, e.labels, e.pc, rfl, hrefl _, hrefl _, .refl _⟩
  · split
    · exact ⟨e.vars, e.labels, e.pc.read, rfl, hrefl _, hrefl _, Cell.same_read _⟩
    · split
      · exact ⟨e.vars.update full Cell.read, e.labels, e.pc, rfl, hupdate _, hrefl _, .refl _⟩
      · exact ⟨e.vars, e.labels.update full Cell.read, e.pc, rfl, hrefl _, hupdate _, .refl _⟩

/-- Where variables, labels and program counters are related, look-up finds
related cells, or nothing on both sides. -/
theorem cell?_related {r : String → Cell → Cell → Prop} {e₁ e₂ : Engine}
    (hvars : SymbolTable.Pointwise r e₁.vars e₂.vars)
    (hlabels : SymbolTable.Pointwise r e₁.labels e₂.labels) (hpc : r pcName e₁.pc e₂.pc)
    (full : String) :
    (e₁.cell? full = none ∧ e₂.cell? full = none) ∨
      ∃ c d, e₁.cell? full = some c ∧ e₂.cell? full = some d ∧ r full c d := by
  unfold cell?
  by_cases hp : full = pcName
  · subst hp
    exact .inr ⟨e₁.pc, e₂.pc, rfl, rfl, hpc⟩
  · rw [if_neg (by simpa using hp), if_neg (by simpa using hp)]
    rcases hvars.find? full with ⟨hv₁, hv₂⟩ | ⟨c, d, hv₁, hv₂, hr⟩
    · rw [hv₁, hv₂]
      exact hlabels.find? full
    · rw [hv₁, hv₂]
      exact .inr ⟨c, d, rfl, rfl, hr⟩

/-- What look-up finds on both sides is related. -/
theorem related_of_cell? {r : String → Cell → Cell → Prop} {e₁ e₂ : Engine}
    (hvars : SymbolTable.Pointwise r e₁.vars e₂.vars)
    (hlabels : SymbolTable.Pointwise r e₁.labels e₂.labels) (hpc : r pcName e₁.pc e₂.pc)
    {full : String} {c d : Cell} (hc : e₁.cell? full = some c) (hd : e₂.cell? full = some d) :
    r full c d := by
  rcases cell?_related hvars hlabels hpc full with ⟨hn, -⟩ | ⟨c', d', hc', hd', hr⟩
  · rw [hn] at hc
    cases hc
  · rw [hc'] at hc
    rw [hd'] at hd
    cases hc
    cases hd
    exact hr

end Engine

end Mos6510
