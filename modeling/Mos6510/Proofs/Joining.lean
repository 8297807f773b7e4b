import Mathlib.Data.List.Pairwise
import Mathlib.Data.List.Permutation
import Mos6510.Proofs.Images

/-!
# Joining regions

Regions are joined by their places alone, in whatever order they are listed.

* `Region.Overlaps`: two regions have an address in common;
* `Image.Arranged`: the regions with bytes, lowest start first.  Where regions have
  the same start there are several such orders;
* `Image.place_outcome`: regions in such an order are placed if no two overlap, and
  otherwise the lowest start that lies in another region is blamed;
* `Image.Joins`: what an image has to do with the regions that it was made of;
* `Image.link_perm`: listing the regions in another order makes no difference;
* `Image.link_exact`: all of this together.
-/

namespace Mos6510

namespace Region

variable {r s : Region} {a : UInt16}

/-- Is there an address that lies in both regions? -/
def Overlaps (r s : Region) : Prop := ∃ a : UInt16, r.contains a = true ∧ s.contains a = true

theorem Overlaps.symm (h : r.Overlaps s) : s.Overlaps r := by
  obtain ⟨a, hr, hs⟩ := h
  exact ⟨a, hs, hr⟩

theorem contains_iff : r.contains a = true ↔ r.start.toNat ≤ a.toNat ∧ a.toNat < r.stop := by
  rw [contains, Bool.and_eq_true, decide_eq_true_eq, decide_eq_true_eq, UInt16.le_iff_toNat_le]

theorem Placed.contains_start (h : r.Placed) : r.contains r.start = true := by
  have hpos := h.size_pos
  exact contains_iff.mpr ⟨Nat.le_refl _, by unfold stop; omega⟩

theorem size_ne_zero_of_contains (h : r.contains a = true) : r.size ≠ 0 := by
  have hbounds := contains_iff.mp h
  unfold stop at hbounds
  omega

/-- An address in a region has a byte. -/
theorem exists_emission_of_contains (hr : r.stop ≤ 0x10000) (h : r.contains a = true) :
    ∃ x ∈ r.emissions, x.address = a := by
  obtain ⟨hlo, hhi⟩ := contains_iff.mp h
  obtain ⟨x, hx, hxa⟩ := exists_mem_emissions hr hlo hhi
  exact ⟨x, hx, UInt16.toNat_inj.mp hxa⟩

/-- Of two regions that overlap, the one behind begins in the one in front. -/
theorem Placed.overlaps_iff (hs : s.Placed) (hle : r.start ≤ s.start) :
    r.Overlaps s ↔ s.start.toNat < r.stop := by
  constructor
  · rintro ⟨a, hr, hs⟩
    exact Nat.lt_of_le_of_lt (contains_iff.mp hs).1 (contains_iff.mp hr).2
  · intro hlt
    exact ⟨s.start, contains_iff.mpr ⟨hle, hlt⟩, hs.contains_start⟩

/-! ## Numbers of bytes -/

theorem total_cons (r : Region) (rs : List Region) : total (r :: rs) = r.size + total rs := rfl

theorem total_perm {rs rs' : List Region} (h : rs.Perm rs') : total rs = total rs' := by
  refine h.foldr_eq' (fun r _ s _ n => ?_) 0
  omega

theorem total_filter_size (rs : List Region) :
    total (rs.filter fun r => r.size != 0) = total rs := by
  induction rs with
  | nil => rfl
  | cons r rest ih =>
      rw [List.filter_cons, total_cons]
      split
      · rw [total_cons, ih]
      · next h =>
          have hsize : r.size = 0 := by simpa using h
          rw [ih, hsize, Nat.zero_add]

end Region

namespace Image

variable {rs rs' sorted sorted' : List Region}

/-! ## Regions in order -/

/-- The regions with bytes, lowest start first. -/
structure Arranged (rs sorted : List Region) : Prop where
  perm : sorted.Perm (rs.filter fun r => r.size != 0)
  sorted : sorted.Pairwise fun r s => r.start ≤ s.start

theorem arranged_ordered (rs : List Region) : Arranged rs (ordered rs) :=
  ⟨List.mergeSort_perm _ _, ordered_sorted rs⟩

theorem Arranged.of_perm (h : Arranged rs sorted) (hperm : rs.Perm rs') : Arranged rs' sorted :=
  ⟨h.perm.trans (hperm.filter _), h.sorted⟩

theorem Arranged.placed (h : Arranged rs sorted) (hrs : ∀ r ∈ rs, r.stop ≤ 0x10000) :
    ∀ r ∈ sorted, r.Placed := by
  intro r hr
  obtain ⟨hmem, hsize⟩ := List.mem_filter.mp (h.perm.mem_iff.mp hr)
  exact ⟨Nat.pos_of_ne_zero (by simpa using hsize), hrs r hmem⟩

/-- No two of the regions overlap. -/
def Apart (rs : List Region) : Prop := rs.Pairwise fun r s => ¬ r.Overlaps s

theorem Apart.perm_iff (h : rs.Perm rs') : Apart rs ↔ Apart rs' :=
  h.pairwise_iff fun hrs hsr => hrs hsr.symm

/-- Among regions that are apart, no two have the same start. -/
theorem Apart.eq_of_start (h : Apart rs) (hrs : ∀ r ∈ rs, r.Placed) {r s : Region} (hr : r ∈ rs)
    (hs : s ∈ rs) (hstart : r.start = s.start) : r = s := by
  by_contra hne
  have : Std.Symm fun r s : Region => ¬ r.Overlaps s := ⟨fun _ _ h h' => h h'.symm⟩
  exact List.Pairwise.forall h hr hs hne
    ⟨s.start, hstart ▸ (hrs r hr).contains_start, (hrs s hs).contains_start⟩

/-- Regions that are apart can be arranged in one way only. -/
theorem Arranged.unique_of_apart (h : Arranged rs sorted) (h' : Arranged rs sorted')
    (hrs : ∀ r ∈ rs, r.stop ≤ 0x10000) (hapart : Apart sorted) : sorted = sorted' := by
  have hperm : sorted.Perm sorted' := h.perm.trans h'.perm.symm
  refine List.Perm.eq_of_pairwise (fun r s hr hs hle hle' => ?_) h.sorted h'.sorted hperm
  exact hapart.eq_of_start (h.placed hrs) hr (hperm.mem_iff.mpr hs) (UInt16.le_antisymm hle hle')

/-- Of all regions that overlap one in front of them, the lowest starts here. -/
structure LowestOverlap (sorted : List Region) (x : UInt16) : Prop where
  overlap : ∃ r s, [r, s].Sublist sorted ∧ r.Overlaps s ∧ s.start = x
  lowest : ∀ r s, [r, s].Sublist sorted → r.Overlaps s → x ≤ s.start

theorem LowestOverlap.unique {x y : UInt16} (h : LowestOverlap sorted x)
    (h' : LowestOverlap sorted y) : x = y := by
  obtain ⟨r, s, hrs, hover, rfl⟩ := h.overlap
  obtain ⟨r', s', hrs', hover', rfl⟩ := h'.overlap
  exact UInt16.le_antisymm (h.lowest r' s' hrs' hover') (h'.lowest r s hrs hover)

theorem LowestOverlap.not_apart {x : UInt16} (h : LowestOverlap sorted x) : ¬ Apart sorted := by
  intro hapart
  obtain ⟨r, s, hrs, hover, -⟩ := h.overlap
  exact List.pairwise_iff_forall_sublist.mp hapart hrs hover

/-- A pair of regions stands in each arrangement the same way round, or starts at
one address. -/
theorem Arranged.pair (h : Arranged rs sorted) (h' : Arranged rs sorted') {r s : Region}
    (hpair : [r, s].Sublist sorted) :
    [r, s].Sublist sorted' ∨ [s, r].Sublist sorted' ∧ r.start = s.start := by
  have hperm : sorted.Perm sorted' := h.perm.trans h'.perm.symm
  obtain ⟨pair, hp, hsub⟩ := hperm.subperm_left.mp hpair.subperm
  rcases List.perm_pair.mp hp with rfl | rfl
  · exact .inl hsub
  · have hle := List.pairwise_iff_forall_sublist.mp h.sorted hpair
    have hle' := List.pairwise_iff_forall_sublist.mp h'.sorted hsub
    exact .inr ⟨hsub, UInt16.le_antisymm hle hle'⟩

/-- Which start is blamed does not depend on the arrangement. -/
theorem LowestOverlap.of_arranged {x : UInt16} (h : LowestOverlap sorted x)
    (hs : Arranged rs sorted) (hs' : Arranged rs sorted') : LowestOverlap sorted' x := by
  constructor
  · obtain ⟨r, s, hpair, hover, rfl⟩ := h.overlap
    rcases hs.pair hs' hpair with hpair' | ⟨hpair', hstart⟩
    · exact ⟨r, s, hpair', hover, rfl⟩
    · exact ⟨s, r, hpair', hover.symm, hstart⟩
  · intro r s hpair hover
    rcases hs'.pair hs hpair with hpair' | ⟨hpair', hstart⟩
    · exact h.lowest r s hpair' hover
    · exact hstart ▸ h.lowest s r hpair' hover.symm

/-! ## Placing -/

/-- Regions in order are placed if they are apart, and otherwise the lowest overlap
is blamed. -/
theorem place_outcome {p : Region} {rest : List Region} (hplaced : ∀ r ∈ p :: rest, r.Placed)
    (hsorted : (p :: rest).Pairwise fun r s => r.start ≤ s.start) :
    (Apart (p :: rest) ∧ ∃ l, place p.stop rest = .ok l) ∨
      ∃ x, LowestOverlap (p :: rest) x ∧ place p.stop rest = .error (.overlap x) := by
  induction rest generalizing p with
  | nil => exact .inl ⟨List.pairwise_singleton _ p, _, rfl⟩
  | cons r rest ih =>
      obtain ⟨hp, hrest⟩ := List.forall_mem_cons.mp hplaced
      obtain ⟨hfirst, hbehind⟩ := List.pairwise_cons.mp hsorted
      have hr := hrest r List.mem_cons_self
      have hle := hfirst r List.mem_cons_self
      -- nothing behind starts before the next region does
      have hnext : ∀ s ∈ r :: rest, r.start ≤ s.start :=
        List.forall_mem_cons.mpr ⟨UInt16.le_refl _, (List.pairwise_cons.mp hbehind).1⟩
      rw [place]
      split
      · next hlt =>
          refine .inr ⟨r.start, ⟨⟨p, r, ?_, (hr.overlaps_iff hle).mpr hlt, rfl⟩, ?_⟩, rfl⟩
          · exact ((List.nil_sublist rest).cons_cons r).cons_cons p
          · intro a b hpair _
            have hb : b ∈ r :: rest := by
              rcases List.sublist_cons_iff.mp hpair with hin | ⟨_, heq, hin⟩
              · exact hin.subset (by simp)
              · cases heq
                exact hin.subset (by simp)
            exact hnext b hb
      · next hge =>
          have hclear : ∀ s ∈ r :: rest, ¬ p.Overlaps s := by
            intro s hs hover
            have hlt := ((hrest s hs).overlaps_iff (hfirst s hs)).mp hover
            have hrs : r.start.toNat ≤ s.start.toNat := hnext s hs
            omega
          rcases ih hrest hbehind with ⟨hapart, l, hl⟩ | ⟨x, hx, herr⟩
          · rw [hl]
            exact .inl ⟨List.pairwise_cons.mpr ⟨hclear, hapart⟩, _, rfl⟩
          · rw [herr]
            refine .inr ⟨x, ⟨?_, ?_⟩, rfl⟩
            · obtain ⟨a, b, hpair, hover, hstart⟩ := hx.overlap
              exact ⟨a, b, hpair.cons p, hover, hstart⟩
            · intro a b hpair hover
              rcases List.sublist_cons_iff.mp hpair with hin | ⟨_, heq, hin⟩
              · exact hx.lowest a b hin hover
              · cases heq
                exact absurd hover (hclear b (hin.subset List.mem_cons_self))

/-- The bytes of placed regions are those of each kind, and zeros. -/
theorem place_totals {pc : Nat} {l : Placement} (h : place pc rs = .ok l) :
    l.code = Region.total (rs.filter fun r => r.kind = .code) ∧
      l.data = Region.total (rs.filter fun r => r.kind = .data) ∧
      l.code + l.data + l.padding = l.bytes.length := by
  induction rs generalizing pc l with
  | nil =>
      obtain rfl := Except.ok.inj h
      exact ⟨rfl, rfl, rfl⟩
  | cons r rest ih =>
      obtain ⟨-, behind, hplace, rfl⟩ := place_cons_eq_ok h
      obtain ⟨hcode, hdata, hsum⟩ := ih hplace
      have hlength : (behind.prepend (r.start.toNat - pc) r).bytes.length =
          r.start.toNat - pc + (r.size + behind.bytes.length) := by
        simp only [Placement.prepend, List.length_append, List.length_replicate, Array.length_toList,
          Region.size]
      rw [hlength]
      cases hkind : r.kind with
      | code =>
          refine ⟨?_, ?_, ?_⟩
          · simp [Placement.prepend, hkind, Region.total_cons, hcode, Nat.add_comm]
          · simp [Placement.prepend, hkind, hdata]
          · simp only [Placement.prepend, hkind, reduceCtorEq, if_true, if_false]
            omega
      | data =>
          refine ⟨?_, ?_, ?_⟩
          · simp [Placement.prepend, hkind, hcode]
          · simp [Placement.prepend, hkind, Region.total_cons, hdata, Nat.add_comm]
          · simp only [Placement.prepend, hkind, reduceCtorEq, if_true, if_false]
            omega

/-! ## Linking -/

/-- Linking places the regions in order. -/
theorem link_eq (rs : List Region) :
    link rs = match ordered rs with
      | [] => .error .emptyImage
      | p :: rest => (place p.start.toNat (p :: rest)).map (Placement.image p.start) := rfl

theorem link_of_ordered {p : Region} {rest : List Region} (h : ordered rs = p :: rest) :
    link rs = (place p.stop rest).map fun l => (l.prepend 0 p).image p.start := by
  rw [link_of_ordered_cons h, place, if_neg (Nat.lt_irrefl _), Nat.sub_self]
  cases place p.stop rest with
  | ok l => rfl
  | error err => rfl

/-- Linking fails where there are no bytes, succeeds where the regions are apart, and
blames the lowest overlap otherwise. -/
theorem link_outcome (hrs : ∀ r ∈ rs, r.stop ≤ 0x10000) :
    (ordered rs = [] ∧ link rs = .error .emptyImage) ∨
      (ordered rs ≠ [] ∧ Apart (ordered rs) ∧ ∃ img, link rs = .ok img) ∨
      ∃ x, LowestOverlap (ordered rs) x ∧ link rs = .error (.overlap x) := by
  cases hord : ordered rs with
  | nil =>
      refine .inl ⟨rfl, ?_⟩
      rw [link_eq, hord]
  | cons p rest =>
      refine .inr ?_
      have hplaced := ordered_placed hrs
      have hsorted := ordered_sorted rs
      rw [hord] at hplaced hsorted
      rw [link_of_ordered hord]
      rcases place_outcome hplaced hsorted with ⟨hapart, l, hl⟩ | ⟨x, hx, herr⟩
      · rw [hl]
        exact .inl ⟨List.cons_ne_nil _ _, hapart, _, rfl⟩
      · rw [herr]
        exact .inr ⟨x, hx, rfl⟩

/-- The order in which regions are listed makes no difference. -/
theorem link_perm (hrs : ∀ r ∈ rs, r.stop ≤ 0x10000) (hperm : rs.Perm rs') :
    link rs' = link rs := by
  have hrs' : ∀ r ∈ rs', r.stop ≤ 0x10000 := fun r hr => hrs r (hperm.mem_iff.mpr hr)
  have harranged := arranged_ordered rs
  have harranged' : Arranged rs (ordered rs') := (arranged_ordered rs').of_perm hperm.symm
  rcases link_outcome hrs with ⟨hnil, hlink⟩ | ⟨-, hapart, -⟩ | ⟨x, hx, hlink⟩
  · have hnil' : ordered rs' = [] := by
      have hfilter := harranged'.perm.trans harranged.perm.symm
      rw [hnil] at hfilter
      exact hfilter.eq_nil
    rw [hlink, link_eq, hnil']
  · have hsame := harranged.unique_of_apart harranged' hrs hapart
    rw [link_eq, ← hsame, ← link_eq]
  · have hx' := hx.of_arranged harranged harranged'
    rcases link_outcome hrs' with ⟨hnil, -⟩ | ⟨-, hapart, -⟩ | ⟨y, hy, hlink'⟩
    · obtain ⟨r, s, hpair, -⟩ := hx'.overlap
      rw [hnil] at hpair
      cases hpair
    · exact absurd hapart hx'.not_apart
    · rw [hlink, hlink', hx'.unique hy]

/-! ## Images of regions -/

/-- The image is what the regions make together: it goes from the lowest to the
highest of their addresses, shows the byte of the region that an address is in, and
zeros in the gaps.  Its last address and its size on disk are those of its bytes. -/
structure Joins (img : Image) (rs : List Region) : Prop where
  within : ∀ r ∈ rs, r.size ≠ 0 → img.start ≤ r.start ∧ r.stop ≤ img.last.toNat + 1
  lowest : ∃ r ∈ rs, r.size ≠ 0 ∧ r.start = img.start
  highest : ∃ r ∈ rs, r.size ≠ 0 ∧ r.stop = img.last.toNat + 1
  length : img.start.toNat + img.bytes.length = img.last.toNat + 1
  covered : ∀ r ∈ rs, ∀ a, r.contains a = true →
    img.bytes[a.toNat - img.start.toNat]? = r.bytes[a.toNat - r.start.toNat]?
  gap : ∀ a, img.start ≤ a → a ≤ img.last → (∀ r ∈ rs, r.contains a = false) →
    img.bytes[a.toNat - img.start.toNat]? = some 0
  code : img.code = Region.total (rs.filter fun r => r.kind = .code)
  data : img.data = Region.total (rs.filter fun r => r.kind = .data)
  total : img.code + img.data + img.padding = img.bytes.length
  size : img.size = img.bytes.length + 2

/-- The totals of a linked image are those of the regions, empty ones included. -/
theorem link_totals {img : Image} (h : link rs = .ok img) :
    img.code = Region.total (rs.filter fun r => r.kind = .code) ∧
      img.data = Region.total (rs.filter fun r => r.kind = .data) ∧
      img.code + img.data + img.padding = img.bytes.length := by
  have hkind : ∀ kind : RegionKind,
      Region.total ((ordered rs).filter fun r => r.kind = kind) =
        Region.total (rs.filter fun r => r.kind = kind) := by
    intro kind
    rw [Region.total_perm ((arranged_ordered rs).perm.filter _), List.filter_comm,
      Region.total_filter_size]
  obtain ⟨p, rest, l, hord, hplace, rfl⟩ := exists_place_of_link h
  have htotals := place_totals hplace
  rwa [← hord, hkind, hkind] at htotals

/-- An address with a byte lies in a region. -/
theorem exists_contains_of_mem {x : Emission} (hrs : ∀ r ∈ rs, r.stop ≤ 0x10000)
    (hx : x ∈ rs.flatMap Region.emissions) : ∃ r ∈ rs, r.contains x.address = true := by
  obtain ⟨r, hr, hx⟩ := List.mem_flatMap.mp hx
  exact ⟨r, hr, Region.contains_iff.mpr (Region.within_of_mem (hrs r hr) hx)⟩

/-- The last address is the one of the last byte. -/
theorem length_of_link {img : Image} (hrs : ∀ r ∈ rs, r.stop ≤ 0x10000) (h : link rs = .ok img) :
    img.start.toNat + img.bytes.length = img.last.toNat + 1 := by
  have hshows := (link_eq_ok hrs h).1
  have hmax := hshows.stop_le
  obtain ⟨x, hx, -⟩ := hshows.lowest
  have hpos := hshows.within x hx
  have hplaced := ordered_placed hrs
  obtain ⟨p, rest, l, hord, hplace, rfl⟩ := exists_place_of_link h
  rw [hord] at hplaced
  have hstop := (place_eq_ok hplaced hplace).1
  have hlast : (l.image p.start).last.toNat = p.start.toNat + l.bytes.length - 1 := by
    simp only [Placement.image, hstop] at hmax hpos ⊢
    rw [UInt16.toNat_sub, UInt16.toNat_ofNat']
    simp only [UInt16.reduceToNat, Nat.reducePow]
    omega
  simp only [Placement.image] at hlast hmax hpos ⊢
  omega

/-- An image that shows the bytes of regions goes as far as these do. -/
theorem Shows.within_regions {img : Image} (h : img.Shows (rs.flatMap Region.emissions))
    (hrs : ∀ r ∈ rs, r.stop ≤ 0x10000) {r : Region} (hr : r ∈ rs) (hsize : r.size ≠ 0) :
    img.start ≤ r.start ∧ r.stop ≤ img.start.toNat + img.bytes.length := by
  have hbetween : ∀ a, r.contains a = true →
      img.start.toNat ≤ a.toNat ∧ a.toNat < img.start.toNat + img.bytes.length := by
    intro a ha
    obtain ⟨x, hx, rfl⟩ := Region.exists_emission_of_contains (hrs r hr) ha
    exact h.within x (List.mem_flatMap.mpr ⟨r, hr, hx⟩)
  have hstop : r.stop = r.start.toNat + r.size := rfl
  have hmax := hrs r hr
  have hend : (UInt16.ofNat (r.stop - 1)).toNat = r.stop - 1 := by
    rw [UInt16.toNat_ofNat']
    exact Nat.mod_eq_of_lt (by simp only [Nat.reducePow]; omega)
  have hlo := hbetween r.start (Region.contains_iff.mpr ⟨Nat.le_refl _, by omega⟩)
  have hhi := hbetween (UInt16.ofNat (r.stop - 1)) (Region.contains_iff.mpr ⟨by omega, by omega⟩)
  exact ⟨hlo.1, by omega⟩

theorem link_joins (hrs : ∀ r ∈ rs, r.stop ≤ 0x10000) {img : Image} (h : link rs = .ok img) :
    img.Joins rs := by
  obtain ⟨hshows, -⟩ := link_eq_ok hrs h
  obtain ⟨hcode, hdata, htotal⟩ := link_totals h
  obtain ⟨x, hx, hxstart⟩ := hshows.lowest
  have hlength := length_of_link hrs h
  -- each clause of `Joins` is read off the bytes that the image shows
  constructor
  case within =>
    rw [← hlength]
    exact fun r hr => hshows.within_regions hrs hr
  case lowest =>
    obtain ⟨r, hr, hin⟩ := exists_contains_of_mem hrs hx
    have hsize := Region.size_ne_zero_of_contains hin
    have hle := (hshows.within_regions hrs hr hsize).1
    have hge := (Region.contains_iff.mp hin).1
    rw [hxstart] at hge
    exact ⟨r, hr, hsize, UInt16.le_antisymm hge hle⟩
  case highest =>
    have hne : img.bytes ≠ [] := by
      intro hnil
      have hpos := hshows.within x hx
      rw [hnil, List.length_nil] at hpos
      omega
    obtain ⟨y, hy, hyend⟩ := hshows.highest hne
    obtain ⟨r, hr, hin⟩ := exists_contains_of_mem hrs hy
    have hsize := Region.size_ne_zero_of_contains hin
    have hle := (hshows.within_regions hrs hr hsize).2
    have hge := (Region.contains_iff.mp hin).2
    exact ⟨r, hr, hsize, by omega⟩
  case length => exact hlength
  case covered =>
    intro r hr a ha
    obtain ⟨y, hy, rfl⟩ := Region.exists_emission_of_contains (hrs r hr) ha
    obtain ⟨-, i, hi, hbyte⟩ := (Region.mem_emissions (hrs r hr)).mp hy
    rw [hshows.emitted y (List.mem_flatMap.mpr ⟨r, hr, hy⟩), hi, Nat.add_sub_cancel_left, ← hbyte,
      Array.getElem?_toList]
  case gap =>
    intro a hlo hhi hnone
    rw [UInt16.le_iff_toNat_le] at hlo hhi
    refine hshows.gap _ (by omega) fun y hy hya => ?_
    obtain ⟨r, hr, hin⟩ := exists_contains_of_mem hrs hy
    have hsame : y.address = a := UInt16.toNat_inj.mp (by omega)
    rw [hsame, hnone r hr] at hin
    cases hin
  case code => exact hcode
  case data => exact hdata
  case total => exact htotal
  case size =>
    obtain ⟨p, rest, l, -, -, rfl⟩ := exists_place_of_link h
    rfl

/-- The file of a linked image reads back as the image, but that all of it counts as code. -/
theorem Joins.ofPrg_prg {img : Image} (h : img.Joins rs) :
    ofPrg img.prg = .ok { img with code := img.bytes.length, data := 0, padding := 0 } := by
  have hlength := h.length
  have hlast : img.start + UInt16.ofNat img.bytes.length - 1 = img.last := by
    have hlt := img.last.toNat_lt
    rw [← UInt16.toNat_inj, UInt16.toNat_sub, UInt16.toNat_add, UInt16.toNat_ofNat']
    simp only [UInt16.reduceToNat, Nat.reducePow]
    omega
  rw [Image.ofPrg_prg, hlast, ← h.size]

/-- Linking joins regions exactly.  It succeeds just where there are bytes and no two
regions with bytes overlap.  The image is that of the regions, and its file reads back
as the same bytes at the same addresses, with the same last address and size.  Otherwise
there are no bytes, or the error has the lowest start of a region that overlaps one sorted
before it.  The order in which the regions are listed does not matter. -/
theorem link_exact (rs : List Region) (hrs : ∀ r ∈ rs, r.stop ≤ 0x10000) :
    ((∃ img, link rs = .ok img) ↔
        (∃ r ∈ rs, r.size ≠ 0) ∧
          (rs.filter fun r => r.size != 0).Pairwise fun r s => ¬ r.Overlaps s) ∧
      (∀ img, link rs = .ok img →
        img.Joins rs ∧ ∃ read, ofPrg img.prg = .ok read ∧ read.start = img.start ∧
          read.bytes = img.bytes ∧ read.last = img.last ∧ read.size = img.size) ∧
      (∀ err, link rs = .error err →
        (err = .emptyImage ∧ ∀ r ∈ rs, r.size = 0) ∨
          ∃ x, err = .overlap x ∧ ∀ sorted, Arranged rs sorted → LowestOverlap sorted x) ∧
      ∀ rs', rs.Perm rs' → link rs' = link rs := by
  have harranged := arranged_ordered rs
  have hempty : ordered rs = [] ↔ ∀ r ∈ rs, r.size = 0 := by
    rw [← List.length_eq_zero_iff, harranged.perm.length_eq, List.length_eq_zero_iff,
      List.filter_eq_nil_iff]
    simp
  -- empty regions do not count, and the others are apart in any order or in none
  have hapart : Apart (ordered rs) ↔
      (rs.filter fun r => r.size != 0).Pairwise fun r s => ¬ r.Overlaps s :=
    Apart.perm_iff harranged.perm
  refine ⟨?_, fun img himg => ⟨link_joins hrs himg, ?_⟩, fun err herr => ?_, fun rs' hperm => ?_⟩
  · rw [← hapart]
    rcases link_outcome hrs with ⟨hnil, hlink⟩ | ⟨hne, hok, hlink⟩ | ⟨x, hx, hlink⟩
    · have hnone := hempty.mp hnil
      simp only [hlink, reduceCtorEq, exists_false, false_iff, not_and]
      rintro ⟨r, hr, hsize⟩
      exact absurd (hnone r hr) hsize
    · have hsome : ∃ r ∈ rs, r.size ≠ 0 := by
        by_contra hnone
        push Not at hnone
        exact hne (hempty.mpr hnone)
      exact ⟨fun _ => ⟨hsome, hok⟩, fun _ => hlink⟩
    · simp only [hlink, reduceCtorEq, exists_false, false_iff, not_and]
      exact fun _ => hx.not_apart
  · exact ⟨_, (link_joins hrs himg).ofPrg_prg, rfl, rfl, rfl, rfl⟩
  · rcases link_outcome hrs with ⟨hnil, hlink⟩ | ⟨-, -, img, hlink⟩ | ⟨x, hx, hlink⟩
    · rw [hlink] at herr
      exact .inl ⟨(Except.error.inj herr).symm, hempty.mp hnil⟩
    · rw [hlink] at herr
      cases herr
    · rw [hlink] at herr
      refine .inr ⟨x, (Except.error.inj herr).symm, fun sorted hsorted => ?_⟩
      exact hx.of_arranged harranged hsorted
  · exact link_perm hrs hperm

/-- Data behind code and behind a gap, and a region without bytes inside of it. -/
def scattered : List Region :=
  [⟨0x1004, .data, #[3]⟩, ⟨0x1001, .code, #[]⟩, ⟨0x1000, .code, #[1, 2]⟩]

/-- Data that begins inside code, and code behind. -/
def clashing : List Region :=
  [⟨0x1004, .code, #[4]⟩, ⟨0x1001, .data, #[3]⟩, ⟨0x1000, .code, #[1, 2]⟩]

theorem link_exact_scattered :
    (∀ r ∈ scattered, r.stop ≤ 0x10000) ∧ (∀ r ∈ clashing, r.stop ≤ 0x10000) ∧
      (∃ img, link scattered = .ok img ∧ img.bytes = [1, 2, 0, 0, 3] ∧ img.Joins scattered ∧
        link scattered.reverse = .ok img) ∧
      link clashing = .error (.overlap 0x1001) ∧ LowestOverlap (ordered clashing) 0x1001 := by
  have hfits : ∀ r ∈ scattered, r.stop ≤ 0x10000 := by decide
  have hfits' : ∀ r ∈ clashing, r.stop ≤ 0x10000 := by decide
  have hlink : link scattered = .ok ⟨0x1000, [1, 2, 0, 0, 3], 2, 1, 2, 0x1004, 7⟩ := by
    simp [link, scattered, Region.size, List.mergeSort, List.MergeSort.Internal.splitInTwo, place,
      Region.stop, Placement.prepend, Placement.image, Except.map]
  have hclash : link clashing = .error (.overlap 0x1001) := by
    simp [link, clashing, Region.size, List.mergeSort, List.MergeSort.Internal.splitInTwo, place,
      Region.stop, Except.map]
  obtain ⟨-, hok, -, hperm⟩ := link_exact scattered hfits
  obtain ⟨-, -, herror, -⟩ := link_exact clashing hfits'
  refine ⟨hfits, hfits', ⟨_, hlink, rfl, (hok _ hlink).1, ?_⟩, hclash, ?_⟩
  · exact (hperm _ (List.reverse_perm _).symm).trans hlink
  · rcases herror _ hclash with ⟨hempty, -⟩ | ⟨x, hx, hlowest⟩
    · cases hempty
    · cases hx
      exact hlowest _ (arranged_ordered clashing)

end Image

end Mos6510
