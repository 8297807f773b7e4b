import Mos6510.Emulator
import Mos6510.Proofs.Emissions

/-!
# What an image shows

Linking makes an image of just the bytes that were emitted, each at its
address, and fails if two of them have one address (`link_eq_ok`,
`link_eq_error`).  Loading puts the image where it was linked (`load_prg`).
Together: no byte of a program is lost between the final pass and memory
(`image_of_finalTrace`).
-/

namespace Mos6510

open Outcome

/-! ## Bytes of a region -/

theorem mem_consecutive {kind : RegionKind} {a : UInt16} {bs : List UInt8} {x : Emission}
    (h : a.toNat + bs.length ≤ 0x10000) :
    x ∈ consecutive kind a bs ↔
      x.kind = kind ∧ ∃ i, x.address.toNat = a.toNat + i ∧ bs[i]? = some x.byte := by
  induction bs generalizing a with
  | nil => simp [consecutive]
  | cons b rest ih =>
      rw [List.length_cons] at h
      have hfirst : x = ⟨a, kind, b⟩ ↔
          x.kind = kind ∧ x.address.toNat = a.toNat ∧ b = x.byte := by
        obtain ⟨address, kind', byte⟩ := x
        simp only [Emission.mk.injEq, UInt16.toNat_inj, eq_comm (a := b)]
        tauto
      rw [consecutive, List.mem_cons, hfirst]
      cases rest with
      | nil =>
          simp only [consecutive, List.not_mem_nil, or_false]
          constructor
          · rintro ⟨hkind, ha, rfl⟩
            exact ⟨hkind, 0, ha, rfl⟩
          · rintro ⟨hkind, _ | i, ha, hi⟩
            · exact ⟨hkind, ha, Option.some.inj hi⟩
            · simp at hi
      | cons c rest =>
          -- another byte follows, so the address after this one is still below the top
          have ha : (a + 1).toNat = a.toNat + 1 := by
            rw [UInt16.toNat_add]
            rw [List.length_cons] at h
            exact Nat.mod_eq_of_lt (by simp only [UInt16.reduceToNat]; omega)
          rw [ih (by omega), ha]
          constructor
          · rintro (⟨hkind, ha, rfl⟩ | ⟨hkind, i, ha, hi⟩)
            · exact ⟨hkind, 0, ha, rfl⟩
            · exact ⟨hkind, i + 1, by omega, hi⟩
          · rintro ⟨hkind, _ | i, ha, hi⟩
            · exact .inl ⟨hkind, ha, Option.some.inj hi⟩
            · exact .inr ⟨hkind, i, by omega, hi⟩

theorem nodup_consecutive (kind : RegionKind) {a : UInt16} {bs : List UInt8}
    (h : a.toNat + bs.length ≤ 0x10000) :
    ((consecutive kind a bs).map Emission.address).Nodup := by
  induction bs generalizing a with
  | nil => exact List.nodup_nil
  | cons b rest ih =>
      cases rest with
      | nil => exact List.pairwise_singleton _ a
      | cons c rest =>
          rw [List.length_cons, List.length_cons] at h
          have ha : (a + 1).toNat = a.toNat + 1 := by
            rw [UInt16.toNat_add]
            exact Nat.mod_eq_of_lt (by simp only [UInt16.reduceToNat]; omega)
          have hrest : (a + 1).toNat + (c :: rest).length ≤ 0x10000 := by
            rw [ha, List.length_cons]
            omega
          rw [consecutive, List.map_cons, List.nodup_cons]
          refine ⟨fun hmem => ?_, ih hrest⟩
          obtain ⟨x, hx, heq⟩ := List.mem_map.mp hmem
          obtain ⟨-, i, hi, -⟩ := (mem_consecutive hrest).mp hx
          have heq : x.address = a := heq
          rw [heq] at hi
          omega

namespace Region

variable {r : Region}

theorem mem_emissions (h : r.stop ≤ 0x10000) {x : Emission} :
    x ∈ r.emissions ↔
      x.kind = r.kind ∧ ∃ i, x.address.toNat = r.start.toNat + i ∧ r.bytes.toList[i]? = some x.byte :=
  mem_consecutive h

/-- The bytes of a region are between its ends. -/
theorem within_of_mem (h : r.stop ≤ 0x10000) {x : Emission} (hx : x ∈ r.emissions) :
    r.start.toNat ≤ x.address.toNat ∧ x.address.toNat < r.stop := by
  obtain ⟨-, i, ha, hi⟩ := (mem_emissions h).mp hx
  have hlt := (List.getElem?_eq_some_iff.mp hi).1
  simp only [stop, size, ← Array.length_toList]
  omega

/-- Each address between the ends has a byte. -/
theorem exists_mem_emissions (h : r.stop ≤ 0x10000) {n : Nat} (hlo : r.start.toNat ≤ n)
    (hhi : n < r.stop) : ∃ x ∈ r.emissions, x.address.toNat = n := by
  have hn : (UInt16.ofNat n).toNat = n := by
    rw [UInt16.toNat_ofNat']
    exact Nat.mod_eq_of_lt (by simp only [Nat.reducePow]; omega)
  simp only [stop, size, ← Array.length_toList] at hhi
  have hi : n - r.start.toNat < r.bytes.toList.length := by omega
  refine ⟨⟨UInt16.ofNat n, r.kind, r.bytes.toList[n - r.start.toNat]⟩, ?_, hn⟩
  exact (mem_emissions h).mpr ⟨rfl, _, by show (UInt16.ofNat n).toNat = _; omega,
    List.getElem?_eq_getElem hi⟩

theorem emissions_eq_nil (h : r.size = 0) : r.emissions = [] := by
  unfold emissions
  rw [List.eq_nil_of_length_eq_zero h]
  rfl

end Region

/-! ## Images -/

/-- The bytes from an address on are the emitted ones, and zeros elsewhere. -/
structure Covers (start : Nat) (bytes : List UInt8) (es : List Emission) : Prop where
  within : ∀ x ∈ es, start ≤ x.address.toNat ∧ x.address.toNat < start + bytes.length
  emitted : ∀ x ∈ es, bytes[x.address.toNat - start]? = some x.byte
  gap : ∀ i < bytes.length, (∀ x ∈ es, x.address.toNat ≠ start + i) → bytes[i]? = some 0
  highest : bytes ≠ [] → ∃ x ∈ es, x.address.toNat + 1 = start + bytes.length

theorem Covers.nil (start : Nat) : Covers start [] [] where
  within := nofun
  emitted := nofun
  gap := nofun
  highest := fun h => absurd rfl h

/-- A region goes before what is behind it. -/
theorem Covers.prepend {r : Region} {pc : Nat} {rest : List UInt8} {es : List Emission}
    (hr : r.Placed) (hpc : pc ≤ r.start.toNat) (h : Covers r.stop rest es) :
    Covers pc (List.replicate (r.start.toNat - pc) 0 ++ (r.bytes.toList ++ rest))
      (r.emissions ++ es) := by
  have hsize : r.bytes.toList.length = r.size := rfl
  have hstop : r.stop = r.start.toNat + r.size := rfl
  have hlength : (List.replicate (r.start.toNat - pc) 0 ++ (r.bytes.toList ++ rest)).length =
      r.start.toNat - pc + (r.size + rest.length) := by
    rw [List.length_append, List.length_append, List.length_replicate, hsize]
  -- a byte is from the region or from behind it; a hole is in front of the region or behind it
  refine ⟨fun x hx => ?_, fun x hx => ?_, fun i hi hnone => ?_, fun _ => ?_⟩
  · rw [hlength]
    rcases List.mem_append.mp hx with hx | hx
    · have := Region.within_of_mem hr.stop_le hx
      omega
    · have := h.within x hx
      omega
  · rcases List.mem_append.mp hx with hx | hx
    · obtain ⟨-, i, ha, hi⟩ := (Region.mem_emissions hr.stop_le).mp hx
      have hlt := (List.getElem?_eq_some_iff.mp hi).1
      have hat : x.address.toNat - pc = r.start.toNat - pc + i := by omega
      rw [hat, List.getElem?_append_right (by simp), List.length_replicate, Nat.add_sub_cancel_left,
        List.getElem?_append_left hlt]
      exact hi
    · have hwithin := h.within x hx
      have hat : x.address.toNat - pc =
          r.start.toNat - pc + (r.bytes.toList.length + (x.address.toNat - r.stop)) := by omega
      rw [hat, List.getElem?_append_right (by simp), List.length_replicate, Nat.add_sub_cancel_left,
        List.getElem?_append_right (by omega), Nat.add_sub_cancel_left]
      exact h.emitted x hx
  · rw [hlength] at hi
    by_cases hgap : i < r.start.toNat - pc
    · rw [List.getElem?_append_left (by simpa using hgap), List.getElem?_replicate, if_pos hgap]
    · have hout : r.stop ≤ pc + i := by
        by_contra hin
        obtain ⟨x, hx, ha⟩ := Region.exists_mem_emissions (n := pc + i) hr.stop_le
          (by omega) (by omega)
        exact hnone x (List.mem_append_left _ hx) ha
      have hat : i = r.start.toNat - pc + (r.bytes.toList.length + (pc + i - r.stop)) := by omega
      rw [hat, List.getElem?_append_right (by simp), List.length_replicate, Nat.add_sub_cancel_left,
        List.getElem?_append_right (by omega), Nat.add_sub_cancel_left]
      refine h.gap _ (by omega) fun x hx => ?_
      have := hnone x (List.mem_append_right _ hx)
      omega
  · rw [hlength]
    by_cases hrest : rest = []
    · have hpos := hr.size_pos
      obtain ⟨x, hx, ha⟩ := Region.exists_mem_emissions (n := r.stop - 1) hr.stop_le
        (by omega) (by omega)
      refine ⟨x, List.mem_append_left _ hx, ?_⟩
      rw [ha, hrest, List.length_nil]
      omega
    · obtain ⟨x, hx, ha⟩ := h.highest hrest
      exact ⟨x, List.mem_append_right _ hx, by omega⟩

namespace Image

/-- The image begins at the lowest emitted byte, ends at the highest one, and
shows each of them, with zeros in the gaps. -/
structure Shows (img : Image) (es : List Emission) : Prop extends
    Covers img.start.toNat img.bytes es where
  lowest : ∃ x ∈ es, x.address = img.start

theorem Shows.ne_nil {img : Image} {es : List Emission} (h : img.Shows es) : es ≠ [] := by
  obtain ⟨x, hx, -⟩ := h.lowest
  exact List.ne_nil_of_mem hx

theorem Shows.of_mem_iff {img : Image} {es fs : List Emission} (h : img.Shows es)
    (hmem : ∀ x, x ∈ es ↔ x ∈ fs) : img.Shows fs where
  within := fun x hx => h.within x ((hmem x).mpr hx)
  emitted := fun x hx => h.emitted x ((hmem x).mpr hx)
  gap := fun i hi hnone => h.gap i hi fun x hx => hnone x ((hmem x).mp hx)
  highest := fun hne => by
    obtain ⟨x, hx, ha⟩ := h.highest hne
    exact ⟨x, (hmem x).mp hx, ha⟩
  lowest := by
    obtain ⟨x, hx, ha⟩ := h.lowest
    exact ⟨x, (hmem x).mp hx, ha⟩

/-! ## Linking -/

theorem place_cons_eq_ok {pc : Nat} {r : Region} {rest : List Region} {l : Placement}
    (h : place pc (r :: rest) = .ok l) :
    pc ≤ r.start.toNat ∧ ∃ behind, place r.stop rest = .ok behind ∧
      l = behind.prepend (r.start.toNat - pc) r := by
  rw [place] at h
  split at h
  · cases h
  · split at h
    · exact ⟨by omega, _, ‹_›, (Except.ok.inj h).symm⟩
    · cases h

/-- Placed regions are apart, and the bytes cover them, up to where they stop. -/
theorem place_eq_ok {pc : Nat} {rs : List Region} {l : Placement} (hrs : ∀ r ∈ rs, r.Placed)
    (h : place pc rs = .ok l) :
    l.stop = pc + l.bytes.length ∧ Covers pc l.bytes (rs.flatMap Region.emissions) ∧
      ((rs.flatMap Region.emissions).map Emission.address).Nodup := by
  induction rs generalizing pc l with
  | nil =>
      obtain rfl := Except.ok.inj h
      exact ⟨rfl, .nil pc, List.nodup_nil⟩
  | cons r rest ih =>
      obtain ⟨hr, hrest⟩ := List.forall_mem_cons.mp hrs
      obtain ⟨hpc, behind, hplace, rfl⟩ := place_cons_eq_ok h
      obtain ⟨hstop, hcovers, hnodup⟩ := ih hrest hplace
      refine ⟨?_, hcovers.prepend hr hpc, ?_⟩
      · simp only [Placement.prepend, List.length_append, List.length_replicate, Array.length_toList, hstop,
          Region.stop, Region.size]
        omega
      rw [List.flatMap_cons, List.map_append, List.nodup_append]
      refine ⟨nodup_consecutive _ hr.stop_le, hnodup, ?_⟩
      intro a ha b hb hab
      obtain ⟨x, hx, rfl⟩ := List.mem_map.mp ha
      obtain ⟨y, hy, rfl⟩ := List.mem_map.mp hb
      have hx := Region.within_of_mem hr.stop_le hx
      have hy := hcovers.within y hy
      rw [hab] at hx
      omega

/-- Behind a region, in order of their starts, regions that cannot be placed
have an address in common. -/
theorem place_eq_error {p : Region} {rs : List Region} {err : Error}
    (hrs : ∀ r ∈ p :: rs, r.Placed) (hsorted : (p :: rs).Pairwise fun a b => a.start ≤ b.start)
    (h : place p.stop rs = .error err) :
    ∃ a, err = .overlap a ∧
      2 ≤ (((p :: rs).flatMap Region.emissions).map Emission.address).count a := by
  induction rs generalizing p with
  | nil => cases h
  | cons r rest ih =>
      obtain ⟨hp, hrest⟩ := List.forall_mem_cons.mp hrs
      obtain ⟨hfirst, hsorted⟩ := List.pairwise_cons.mp hsorted
      rw [place] at h
      split at h
      · next hlt =>
          -- the region begins inside the one before
          have hr := hrest r List.mem_cons_self
          have hle : p.start.toNat ≤ r.start.toNat := hfirst r List.mem_cons_self
          obtain ⟨x, hx, hxa⟩ := Region.exists_mem_emissions hp.stop_le hle hlt
          have hpos := hr.size_pos
          obtain ⟨y, hy, hya⟩ := Region.exists_mem_emissions (n := r.start.toNat) hr.stop_le
            (Nat.le_refl _) (by unfold Region.stop; omega)
          have hmem : ∀ {z : Emission} {q : Region}, z ∈ q.emissions →
              z.address.toNat = r.start.toNat → r.start ∈ q.emissions.map Emission.address :=
            fun hz ha => List.mem_map.mpr ⟨_, hz, UInt16.toNat_inj.mp ha⟩
          refine ⟨r.start, (Except.error.inj h).symm, ?_⟩
          rw [List.flatMap_cons, List.flatMap_cons, List.map_append, List.map_append,
            List.count_append, List.count_append]
          have hone := List.count_pos_iff.mpr (hmem hx hxa)
          have htwo := List.count_pos_iff.mpr (hmem hy hya)
          omega
      · split at h
        · cases h
        · next hbehind =>
            obtain rfl := Except.error.inj h
            obtain ⟨a, ha, hcount⟩ := ih hrest hsorted hbehind
            refine ⟨a, ha, ?_⟩
            rw [List.flatMap_cons, List.map_append, List.count_append]
            omega

/-- The regions with bytes, in order of their starts. -/
def ordered (rs : List Region) : List Region :=
  (rs.filter fun r => r.size != 0).mergeSort fun a b => decide (a.start ≤ b.start)

theorem flatMap_emissions_filter (rs : List Region) :
    (rs.filter fun r => r.size != 0).flatMap Region.emissions = rs.flatMap Region.emissions := by
  induction rs with
  | nil => rfl
  | cons r rest ih =>
      rw [List.filter_cons]
      split
      · rw [List.flatMap_cons, List.flatMap_cons, ih]
      · next h =>
          rw [List.flatMap_cons, Region.emissions_eq_nil (by simpa using h), ih]
          rfl

theorem ordered_emissions (rs : List Region) :
    ((ordered rs).flatMap Region.emissions).Perm (rs.flatMap Region.emissions) := by
  rw [← flatMap_emissions_filter rs]
  exact (List.mergeSort_perm _ _).flatMap_right _

theorem ordered_placed {rs : List Region} (h : ∀ r ∈ rs, r.stop ≤ 0x10000) :
    ∀ r ∈ ordered rs, r.Placed := by
  intro r hr
  obtain ⟨hmem, hsize⟩ := List.mem_filter.mp (List.mem_mergeSort.mp hr)
  exact ⟨Nat.pos_of_ne_zero (by simpa using hsize), h r hmem⟩

theorem ordered_sorted (rs : List Region) :
    (ordered rs).Pairwise fun a b => a.start ≤ b.start := by
  have h := @List.pairwise_mergeSort _ (fun a b : Region => decide (a.start ≤ b.start))
    (fun a b c hab hbc => by
      simp only [decide_eq_true_eq] at hab hbc ⊢
      exact UInt16.le_trans hab hbc)
    (fun a b => by
      simp only [Bool.or_eq_true, decide_eq_true_eq]
      exact UInt16.le_total a.start b.start) (rs.filter fun r => r.size != 0)
  exact h.imp fun hab => of_decide_eq_true hab

theorem link_of_ordered_nil {rs : List Region} (h : ordered rs = []) :
    link rs = .error .emptyImage := by
  unfold ordered at h
  rw [link, h]

theorem link_of_ordered_cons {rs rest : List Region} {r : Region} (h : ordered rs = r :: rest) :
    link rs = (place r.start.toNat (r :: rest)).map (Placement.image r.start) := by
  unfold ordered at h
  rw [link, h]

/-- A linked image is that of placed regions, in order of their starts. -/
theorem exists_place_of_link {rs : List Region} {img : Image} (h : link rs = .ok img) :
    ∃ r rest l, ordered rs = r :: rest ∧ place r.start.toNat (r :: rest) = .ok l ∧
      img = l.image r.start := by
  cases hord : ordered rs with
  | nil =>
      rw [link_of_ordered_nil hord] at h
      cases h
  | cons r rest =>
      rw [link_of_ordered_cons hord] at h
      cases hplace : place r.start.toNat (r :: rest) with
      | error err =>
          rw [hplace] at h
          cases h
      | ok l =>
          rw [hplace] at h
          exact ⟨r, rest, l, rfl, hplace, (Except.ok.inj h).symm⟩

/-- A linked image shows the bytes of the regions, and no two of them have one
address. -/
theorem link_eq_ok {rs : List Region} {img : Image} (hrs : ∀ r ∈ rs, r.stop ≤ 0x10000)
    (h : link rs = .ok img) :
    img.Shows (rs.flatMap Region.emissions) ∧
      ((rs.flatMap Region.emissions).map Emission.address).Nodup := by
  have hplaced := ordered_placed hrs
  have hperm := ordered_emissions rs
  obtain ⟨r, rest, l, hord, hplace, rfl⟩ := exists_place_of_link h
  rw [hord] at hplaced hperm
  obtain ⟨-, hcovers, hnodup⟩ := place_eq_ok hplaced hplace
  refine ⟨Shows.of_mem_iff ⟨hcovers, ?_⟩ (fun x => hperm.mem_iff),
    (hperm.map _).nodup_iff.mp hnodup⟩
  have hr := hplaced r List.mem_cons_self
  have hpos := hr.size_pos
  obtain ⟨x, hx, ha⟩ := Region.exists_mem_emissions (n := r.start.toNat) hr.stop_le
    (Nat.le_refl _) (by unfold Region.stop; omega)
  exact ⟨x, List.mem_append_left _ hx, UInt16.toNat_inj.mp ha⟩

/-- Linking fails without bytes, and for two bytes at one address. -/
theorem link_eq_error {rs : List Region} {err : Error} (hrs : ∀ r ∈ rs, r.stop ≤ 0x10000)
    (h : link rs = .error err) :
    (err = .emptyImage ∧ rs.flatMap Region.emissions = []) ∨
      ∃ a, err = .overlap a ∧ 2 ≤ ((rs.flatMap Region.emissions).map Emission.address).count a := by
  have hplaced := ordered_placed hrs
  have hsorted := ordered_sorted rs
  have hperm := ordered_emissions rs
  cases hord : ordered rs with
  | nil =>
      rw [link_of_ordered_nil hord] at h
      rw [hord] at hperm
      exact .inl ⟨(Except.error.inj h).symm, hperm.symm.eq_nil⟩
  | cons r rest =>
      rw [link_of_ordered_cons hord, place, if_neg (Nat.lt_irrefl _)] at h
      rw [hord] at hplaced hsorted hperm
      cases hplace : place r.stop rest with
      | ok behind =>
          rw [hplace] at h
          cases h
      | error err' =>
          rw [hplace] at h
          obtain ⟨a, rfl, hcount⟩ := place_eq_error hplaced hsorted hplace
          refine .inr ⟨a, (Except.error.inj h).symm, ?_⟩
          rw [← (hperm.map _).count_eq]
          exact hcount

theorem exists_link_iff {rs : List Region} (hrs : ∀ r ∈ rs, r.stop ≤ 0x10000) :
    (∃ img, link rs = .ok img) ↔
      rs.flatMap Region.emissions ≠ [] ∧
        ((rs.flatMap Region.emissions).map Emission.address).Nodup := by
  constructor
  · rintro ⟨img, h⟩
    obtain ⟨hshows, hnodup⟩ := link_eq_ok hrs h
    exact ⟨hshows.ne_nil, hnodup⟩
  · rintro ⟨hne, hnodup⟩
    cases h : link rs with
    | ok img => exact ⟨img, rfl⟩
    | error err =>
        rcases link_eq_error hrs h with ⟨-, hnil⟩ | ⟨a, -, hcount⟩
        · exact absurd hnil hne
        · have := List.nodup_iff_count.mp hnodup a
          omega

end Image

/-! ## Loading -/

namespace Memory

theorem get_set (m : Memory) (a x : UInt16) (b : UInt8) :
    (m.set a b).get x = if x = a then b else m.get x := by
  have ha : a.toNat < memorySize := a.toNat_lt
  have hx : x.toNat < memorySize := x.toNat_lt
  show (m.cells.set a.toNat b ha)[x.toNat] = if x = a then b else m.cells[x.toNat]
  rw [Vector.getElem_set]
  simp only [UInt16.toNat_inj, eq_comm (a := a)]

/-- Bytes that fit are stored one after the other, and no others change. -/
theorem get_store {m : Memory} {a : UInt16} {bs : List UInt8} (h : a.toNat + bs.length ≤ 0x10000)
    (x : UInt16) :
    (m.store a bs).get x =
      if a.toNat ≤ x.toNat then (bs[x.toNat - a.toNat]?).getD (m.get x) else m.get x := by
  induction bs generalizing m a with
  | nil => simp [store]
  | cons b rest ih =>
      rw [List.length_cons] at h
      rw [store]
      cases rest with
      | nil =>
          rw [store, get_set]
          -- the first byte is stored first, and no later one comes back to its address
          by_cases hx : x = a
          · subst hx
            simp
          · have hne : x.toNat ≠ a.toNat := fun heq => hx (UInt16.toNat_inj.mp heq)
            rw [if_neg hx]
            split
            · rw [List.getElem?_eq_none (by simp only [List.length_singleton]; omega)]
              rfl
            · rfl
      | cons c rest =>
          have ha : (a + 1).toNat = a.toNat + 1 := by
            rw [UInt16.toNat_add]
            rw [List.length_cons] at h
            exact Nat.mod_eq_of_lt (by simp only [UInt16.reduceToNat]; omega)
          rw [ih (by omega), get_set, ha]
          by_cases hx : x = a
          · subst hx
            rw [if_neg (by omega), if_pos rfl, if_pos (Nat.le_refl _), Nat.sub_self]
            rfl
          · have hne : x.toNat ≠ a.toNat := fun heq => hx (UInt16.toNat_inj.mp heq)
            rw [if_neg hx]
            by_cases hle : a.toNat ≤ x.toNat
            · have hsucc : x.toNat - a.toNat = x.toNat - (a.toNat + 1) + 1 := by omega
              rw [if_pos hle, if_pos (by omega), hsucc, List.getElem?_cons_succ]
            · rw [if_neg hle, if_neg (by omega)]

end Memory

/-- Two bytes of an address make it up. -/
theorem address_of_bytes (a : UInt16) :
    a.toUInt8.toUInt16 ||| ((a >>> 8).toUInt8.toUInt16 <<< 8) = a := by
  refine UInt16.eq_of_toBitVec_eq ?_
  simp only [UInt16.toBitVec_or, UInt16.toBitVec_shiftLeft, UInt8.toBitVec_toUInt16,
    UInt16.toBitVec_toUInt8, UInt16.toBitVec_shiftRight]
  ext i hi
  simp only [BitVec.getElem_or, BitVec.getElem_setWidth]
  by_cases hlow : i < 8
  · simp [hlow, BitVec.getLsbD_eq_getElem hi]
  · have hhigh : i - 8 < 8 := by omega
    have hsplit : 8 + (i - 8) = i := by omega
    simp [hlow, hhigh, hsplit, BitVec.getLsbD_eq_getElem hi]

theorem Image.ofPrg_prg (img : Image) :
    Image.ofPrg img.prg = .ok ⟨img.start, img.bytes, img.bytes.length, 0, 0,
      img.start + UInt16.ofNat img.bytes.length - 1, img.bytes.length + 2⟩ := by
  simp only [prg, ofPrg, address_of_bytes, List.length_cons]

/-- Memory shows the bytes of an image, and outside of it what was there before. -/
structure Image.LoadedInto (img : Image) (before after : Memory) : Prop where
  inside : ∀ a : UInt16, img.start.toNat ≤ a.toNat → a.toNat < img.start.toNat + img.bytes.length →
    img.bytes[a.toNat - img.start.toNat]? = some (after.get a)
  outside : ∀ a : UInt16,
    a.toNat < img.start.toNat ∨ img.start.toNat + img.bytes.length ≤ a.toNat →
    after.get a = before.get a

theorem Image.loadedInto_store {img : Image} (h : img.start.toNat + img.bytes.length ≤ 0x10000)
    (m : Memory) : img.LoadedInto m (m.store img.start img.bytes) where
  inside := fun a hlo hhi => by
    have hlt : a.toNat - img.start.toNat < img.bytes.length := by omega
    rw [Memory.get_store h, if_pos hlo, List.getElem?_eq_getElem hlt]
    rfl
  outside := fun a hout => by
    rw [Memory.get_store h]
    rcases hout with hout | hout
    · rw [if_neg (by omega)]
    · rw [List.getElem?_eq_none (by omega)]
      exact ite_self _

/-- The file of an image that is in memory is loaded to where it belongs. -/
theorem Emulator.load_prg {img : Image} (h : img.start.toNat + img.bytes.length ≤ 0x10000)
    (emu : Emulator) :
    ∃ m, emu.load img.prg = .ok img.start { emu with machine := { emu.machine with memory := m } } ∧
      img.LoadedInto emu.machine.memory m := by
  refine ⟨emu.machine.memory.store img.start img.bytes, ?_, img.loadedInto_store h _⟩
  unfold load
  rw [Image.ofPrg_prg]
  exact if_neg (Nat.not_lt.mpr h)

theorem Image.Shows.stop_le {img : Image} {es : List Emission} (h : img.Shows es) :
    img.start.toNat + img.bytes.length ≤ 0x10000 := by
  have hlt := img.start.toNat_lt
  by_cases hnil : img.bytes = []
  · rw [hnil, List.length_nil]
    omega
  · obtain ⟨x, -, hx⟩ := h.highest hnil
    have := x.address.toNat_lt
    omega

/-! ## From the final pass to memory -/

namespace Assembler

/-- The regions of a program hold the bytes of its final pass. -/
theorem program_emissions {asm : Assembler} {actions : List Action} {s s' : Session}
    {a : Assembly} (h : asm.assemble actions s = .ok a s') :
    (a.program.regions.flatMap Region.emissions).Perm (emissions (asm.finalTrace actions s)) ∧
      ∀ r ∈ a.program.regions, r.Placed := by
  obtain ⟨e₀, s₁, w, f, hprepare, hstages, -, -⟩ := assemble_eq_ok_iff.mp h
  obtain ⟨e, log, hpasses, hengine⟩ := exists_passes_finalTrace hprepare hstages
  obtain ⟨hemissions, hplaced⟩ := hpasses.emissions_eq
  have hperm : a.program.regions.Perm e.regions.reverse := by
    have hregions : e.regions = a.engine.regions := by rw [hengine]
    rw [hregions]
    exact List.mergeSort_perm _ _
  refine ⟨hemissions ▸ hperm.flatMap_right _, fun r hr => ?_⟩
  exact hplaced r (List.mem_reverse.mp (hperm.mem_iff.mp hr))

/-- No byte is overwritten or lost.  The regions of a program can be linked
just if its final pass emitted bytes, and no two at one address.  The image
then shows these bytes; its file, which begins with the lowest address, low
byte first, is loaded to that address, and nothing else in memory changes. -/
theorem image_of_finalTrace (asm : Assembler) (actions : List Action) (s s' : Session)
    (a : Assembly) (h : asm.assemble actions s = .ok a s') :
    let es := emissions (asm.finalTrace actions s)
    ((∃ img, Image.link a.program.regions = .ok img) ↔
        es ≠ [] ∧ (es.map Emission.address).Nodup) ∧
      (∀ err, Image.link a.program.regions = .error err →
        (err = .emptyImage ∧ es = []) ∨
          ∃ x, err = .overlap x ∧ 2 ≤ (es.map Emission.address).count x) ∧
      ∀ img, Image.link a.program.regions = .ok img →
        img.Shows es ∧
          img.prg = img.start.toUInt8 :: (img.start >>> 8).toUInt8 :: img.bytes ∧
          ∀ emu : Emulator, ∃ m,
            emu.load img.prg =
                .ok img.start { emu with machine := { emu.machine with memory := m } } ∧
              img.LoadedInto emu.machine.memory m := by
  intro es
  obtain ⟨hperm, hplaced⟩ := program_emissions h
  have hstop : ∀ r ∈ a.program.regions, r.stop ≤ 0x10000 := fun r hr => (hplaced r hr).stop_le
  have hnil : a.program.regions.flatMap Region.emissions = [] ↔ es = [] :=
    ⟨fun hr => (hr ▸ hperm).symm.eq_nil, fun he => (he ▸ hperm : List.Perm _ []).eq_nil⟩
  -- the regions hold the bytes of the trace in another order, so counts agree
  have haddresses := hperm.map Emission.address
  refine ⟨?_, fun err herr => ?_, fun img himg => ?_⟩
  · rw [Image.exists_link_iff hstop, Ne, hnil, haddresses.nodup_iff]
  · rcases Image.link_eq_error hstop herr with ⟨rfl, hempty⟩ | ⟨x, rfl, hcount⟩
    · exact .inl ⟨rfl, hnil.mp hempty⟩
    · exact .inr ⟨x, rfl, haddresses.count_eq x ▸ hcount⟩
  · obtain ⟨hshows, -⟩ := Image.link_eq_ok hstop himg
    exact ⟨hshows.of_mem_iff fun x => hperm.mem_iff, rfl, fun emu =>
      Emulator.load_prg hshows.stop_le emu⟩

/-- A byte, two more in front of it, and a gap between them. -/
def backwards : List Action :=
  [.load {} 0x1004, .set {} "@", .load {} 3, .plain {} (.data false),
    .load {} 0x1000, .set {} "@", .load {} 0x201, .plain {} (.data true)]

theorem image_of_finalTrace_backwards :
    ∃ a s' img, ({} : Assembler).assemble backwards {} = .ok a s' ∧
      emissions (({} : Assembler).finalTrace backwards {}) =
        [⟨0x1004, .data, 3⟩, ⟨0x1000, .data, 1⟩, ⟨0x1001, .data, 2⟩] ∧
      Image.link a.program.regions = .ok img ∧
      img.Shows [⟨0x1004, .data, 3⟩, ⟨0x1000, .data, 1⟩, ⟨0x1001, .data, 2⟩] ∧
      ∀ emu : Emulator, ∃ m,
        emu.load img.prg =
            .ok img.start { emu with machine := { emu.machine with memory := m } } ∧
          img.LoadedInto emu.machine.memory m := by
  have hrun : isOkWith (fun _ _ => true) (({} : Assembler).assemble backwards {}) = true := by
    decide +kernel
  obtain ⟨a, s', h, -⟩ := exists_of_isOkWith hrun
  have hes : emissions (({} : Assembler).finalTrace backwards {}) =
      [⟨0x1004, .data, 3⟩, ⟨0x1000, .data, 1⟩, ⟨0x1001, .data, 2⟩] := by
    decide +kernel
  obtain ⟨hlink, -, himage⟩ := image_of_finalTrace {} backwards {} s' a h
  obtain ⟨img, himg⟩ := hlink.mpr ⟨by rw [hes]; decide, by rw [hes]; decide⟩
  obtain ⟨hshows, -, hload⟩ := himage img himg
  exact ⟨a, s', img, h, hes, himg, hes ▸ hshows, hload⟩

end Assembler

end Mos6510
