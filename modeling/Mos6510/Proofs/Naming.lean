import Mathlib.Data.Prod.Lex
import Mathlib.Data.String.Basic
import Mos6510.Proofs.Disassembly
import Mos6510.Proofs.Labels

/-!
# Names of addresses

An address is named after the best of the labels that have it: one without a
parent if there is one, among those a shortest, and among those the first in
the alphabet.  This order of names is strict and total (`betterName_iff`), so
it does not matter in which order the labels are gone through, nor in which
order the named addresses are searched for the nearest one:

* `collectNames_best`: labels taken one by one, each in place of a worse one,
  leave the best name of every address;
* `searchNearest_nearest`: addresses tried one by one leave the nearest;
* `mem_labelMap_iff`, `nearestLabel_nearest`: sorting gives the same;
* `naming_any_order`: so names and descriptions of addresses are determined by
  the labels alone.
-/

namespace Mos6510

namespace Program

/-! ## The order of names -/

/-- What names are ordered by: a name without a parent comes before one with a
parent, then the shorter one, then the earlier one in the alphabet. -/
def nameKey (name : String) : Bool ×ₗ Nat ×ₗ String :=
  toLex (isQualifiedName name, toLex (name.utf8ByteSize, name))

theorem nameKey_injective : Function.Injective nameKey := by
  intro a b h
  exact congrArg (fun k => (ofLex (ofLex k).2).2) h

theorem betterName_iff (a b : String) : betterName a b = true ↔ nameKey a < nameKey b := by
  unfold betterName nameKey
  rw [Prod.Lex.toLex_lt_toLex, Prod.Lex.toLex_lt_toLex]
  by_cases hparent : isQualifiedName a = isQualifiedName b
  · by_cases hsize : a.utf8ByteSize = b.utf8ByteSize
    · simp [hparent, hsize]
    · simp [hparent, hsize]
  · cases ha : isQualifiedName a <;> cases hb : isQualifiedName b <;> simp_all

/-- A label with the name has the address; only the low 16 bits of its value count. -/
def HasLabel (ls : List (String × Int64)) (a : UInt16) (name : String) : Prop :=
  ∃ v : Int64, (name, v) ∈ ls ∧ v.toInt % 0x10000 = a.toNat

/-- The name is the least of the labels that have the address. -/
def IsBestName (ls : List (String × Int64)) (a : UInt16) (name : String) : Prop :=
  HasLabel ls a name ∧ ∀ other, HasLabel ls a other → nameKey name ≤ nameKey other

variable {ls : List (String × Int64)} {a : UInt16} {name : String}

theorem addressOf_eq_iff (v : Int64) : addressOf v = a ↔ v.toInt % 0x10000 = a.toNat := by
  rw [← UInt16.toNat_inj, addressOf, toNat_low16]
  omega

theorem hasLabel_iff : HasLabel ls a name ↔ ∃ v, (name, v) ∈ ls ∧ addressOf v = a := by
  simp only [HasLabel, addressOf_eq_iff]

theorem hasLabel_append_singleton {l : String × Int64} :
    HasLabel (ls ++ [l]) a name ↔ HasLabel ls a name ∨ (name = l.1 ∧ addressOf l.2 = a) := by
  obtain ⟨other, w⟩ := l
  simp only [hasLabel_iff, List.mem_append, List.mem_singleton, Prod.mk.injEq]
  constructor
  · rintro ⟨v, hv | ⟨rfl, rfl⟩, ha⟩
    · exact .inl ⟨v, hv, ha⟩
    · exact .inr ⟨rfl, ha⟩
  · rintro (⟨v, hv, ha⟩ | ⟨rfl, ha⟩)
    · exact ⟨v, .inl hv, ha⟩
    · exact ⟨w, .inr ⟨rfl, rfl⟩, ha⟩

theorem IsBestName.unique {other : String} (h : IsBestName ls a name)
    (hother : IsBestName ls a other) : name = other :=
  nameKey_injective (le_antisymm (h.2 other hother.1) (hother.2 name h.1))

theorem HasLabel.perm {ms : List (String × Int64)} (h : ls.Perm ms) :
    HasLabel ls a name ↔ HasLabel ms a name := by
  simp only [HasLabel, h.mem_iff]

theorem IsBestName.perm {ms : List (String × Int64)} (h : ls.Perm ms) :
    IsBestName ls a name ↔ IsBestName ms a name := by
  simp only [IsBestName, HasLabel.perm h]

/-! ## Labels one by one -/

/-- Take in a label: its address is named after it, unless it has a better
name already. -/
def collect (names : Std.HashMap UInt16 String) (l : String × Int64) :
    Std.HashMap UInt16 String :=
  let a := addressOf l.2
  match names[a]? with
  | none => names.insert a l.1
  | some prev => if betterName l.1 prev then names.insert a l.1 else names

/-- The names of addresses, found by going through labels. -/
def collectNames (ls : List (String × Int64)) : Std.HashMap UInt16 String := ls.foldl collect ∅

/-- What an address is to be named after, if that is said. -/
def NamedBest (ls : List (String × Int64)) (a : UInt16) : Option String → Prop
  | none => ∀ name, ¬HasLabel ls a name
  | some name => IsBestName ls a name

theorem NamedBest.eq {x y : Option String} (hx : NamedBest ls a x) (hy : NamedBest ls a y) :
    x = y := by
  cases x with
  | none =>
      cases y with
      | none => rfl
      | some name => exact absurd hy.1 (hx name)
  | some name =>
      cases y with
      | none => exact absurd hx.1 (hy name)
      | some other => exact congrArg some (IsBestName.unique hx hy)

/-- Only the address of the label is named anew. -/
theorem getElem?_collect_of_ne {names : Std.HashMap UInt16 String} {l : String × Int64}
    (h : addressOf l.2 ≠ a) : (collect names l)[a]? = names[a]? := by
  have hinsert : (names.insert (addressOf l.2) l.1)[a]? = names[a]? := by
    rw [Std.HashMap.getElem?_insert, if_neg (by simpa using h)]
  unfold collect
  dsimp only
  split
  · exact hinsert
  · split
    · exact hinsert
    · rfl

theorem NamedBest.collect {names : Std.HashMap UInt16 String} (l : String × Int64)
    (h : NamedBest ls a names[a]?) : NamedBest (ls ++ [l]) a (collect names l)[a]? := by
  by_cases hl : addressOf l.2 = a
  -- the new label has this address, so it is compared with the best name so far
  · have hnew : HasLabel (ls ++ [l]) a l.1 := hasLabel_append_singleton.mpr (.inr ⟨rfl, hl⟩)
    have hinsert : (names.insert a l.1)[a]? = some l.1 := Std.HashMap.getElem?_insert_self
    unfold Program.collect
    dsimp only
    rw [hl]
    cases hprev : names[a]? with
    | none =>
        rw [hprev] at h
        dsimp only
        rw [hinsert]
        refine ⟨hnew, fun other hother => ?_⟩
        obtain hother | ⟨rfl, -⟩ := hasLabel_append_singleton.mp hother
        · exact absurd hother (h other)
        · exact le_rfl
    | some prev =>
        rw [hprev] at h
        dsimp only
        cases hbetter : betterName l.1 prev with
        | true =>
            have hlt := (betterName_iff _ _).mp hbetter
            rw [if_pos rfl, hinsert]
            refine ⟨hnew, fun other hother => ?_⟩
            obtain hother | ⟨rfl, -⟩ := hasLabel_append_singleton.mp hother
            · exact hlt.le.trans (h.2 other hother)
            · exact le_rfl
        | false =>
            have hle : nameKey prev ≤ nameKey l.1 :=
              not_lt.mp fun hlt => by simp [(betterName_iff _ _).mpr hlt] at hbetter
            rw [if_neg Bool.false_ne_true, hprev]
            refine ⟨hasLabel_append_singleton.mpr (.inl h.1), fun other hother => ?_⟩
            obtain hother | ⟨rfl, -⟩ := hasLabel_append_singleton.mp hother
            · exact h.2 other hother
            · exact hle
  -- a label of another address changes nothing here
  · have hsame : ∀ other, HasLabel (ls ++ [l]) a other ↔ HasLabel ls a other := by
      intro other
      rw [hasLabel_append_singleton]
      exact or_iff_left fun h => hl h.2
    rw [getElem?_collect_of_ne hl]
    cases hprev : names[a]? with
    | none =>
        rw [hprev] at h
        exact fun other hother => h other ((hsame other).mp hother)
    | some prev =>
        rw [hprev] at h
        exact ⟨(hsame prev).mpr h.1, fun other hother => h.2 other ((hsame other).mp hother)⟩

/-- Going through all labels leaves the best name of each address. -/
theorem collectNames_best (ls : List (String × Int64)) (a : UInt16) :
    NamedBest ls a (collectNames ls)[a]? := by
  induction ls using List.reverseRecOn with
  | nil =>
      have hempty : (collectNames [])[a]? = none := Std.HashMap.getElem?_empty
      rw [hempty]
      rintro name ⟨v, hv, -⟩
      exact absurd hv List.not_mem_nil
  | append_singleton ls l ih =>
      rw [collectNames, List.foldl_append]
      exact ih.collect l

theorem collectNames_eq_some_iff : (collectNames ls)[a]? = some name ↔ IsBestName ls a name := by
  have hbest := collectNames_best ls a
  constructor
  · intro h
    rwa [h] at hbest
  · intro h
    exact hbest.eq (y := some name) h

theorem exists_isBestName (h : HasLabel ls a name) : ∃ best, IsBestName ls a best := by
  have hbest := collectNames_best ls a
  cases hnames : (collectNames ls)[a]? with
  | none =>
      rw [hnames] at hbest
      exact absurd h (hbest name)
  | some best =>
      rw [hnames] at hbest
      exact ⟨best, hbest⟩

/-! ## Labels sorted -/

/-- Before a list in strict order of keys, an entry replaces the one with its
key. -/
theorem consKey_eq_filter {α : Type} {e : UInt16 × α} {es : List (UInt16 × α)}
    (hes : es.Pairwise fun x y => x.1 < y.1) (he : ∀ x ∈ es, e.1 ≤ x.1) :
    consKey e es = e :: es.filter fun x => x.1 != e.1 := by
  cases es with
  | nil => rfl
  | cons f rest =>
      obtain ⟨hf, -⟩ := List.pairwise_cons.mp hes
      -- behind the head every address is larger, so only the head can be dropped
      have hrest : ∀ x ∈ rest, (x.1 != e.1) = true := by
        intro x hx
        have hlt := UInt16.lt_of_le_of_lt (he f List.mem_cons_self) (hf x hx)
        exact bne_iff_ne.mpr (UInt16.ne_of_lt hlt).symm
      have hkeep : rest.filter (fun x => x.1 != e.1) = rest := List.filter_eq_self.mpr hrest
      rw [consKey]
      by_cases heq : e.1 = f.1
      · rw [if_pos (beq_iff_eq.mpr heq), List.filter_cons_of_neg (by simp [heq]), hkeep]
      · rw [if_neg (by simpa using heq), List.filter_cons_of_pos (by simpa using Ne.symm heq), hkeep]

/-- Entries by address and, at one address, by name. -/
def entryKey (e : UInt16 × String) : Nat ×ₗ Bool ×ₗ Nat ×ₗ String :=
  toLex (e.1.toNat, nameKey e.2)

theorem entryKey_le_iff {e f : UInt16 × String} :
    entryKey e ≤ entryKey f ↔ e.1 < f.1 ∨ e.1 = f.1 ∧ nameKey e.2 ≤ nameKey f.2 := by
  rw [entryKey, entryKey, Prod.Lex.toLex_le_toLex, UInt16.lt_iff_toNat_lt, ← UInt16.toNat_inj]

/-- Of sorted entries, the first at each address stay, in strict order of the
addresses. -/
theorem dedupKeys_sorted {es : List (UInt16 × String)}
    (hes : es.Pairwise fun e f => entryKey e ≤ entryKey f) :
    (dedupKeys es).Pairwise (fun e f => e.1 < f.1) ∧
      ∀ e, e ∈ dedupKeys es ↔ e ∈ es ∧ ∀ f ∈ es, f.1 = e.1 → nameKey e.2 ≤ nameKey f.2 := by
  induction es with
  | nil => exact ⟨List.Pairwise.nil, by simp [dedupKeys]⟩
  | cons e rest ih =>
      obtain ⟨he, hrest⟩ := List.pairwise_cons.mp hes
      obtain ⟨hstrict, hmem⟩ := ih hrest
      have hle : ∀ x ∈ dedupKeys rest, e.1 ≤ x.1 := by
        intro x hx
        obtain hlt | ⟨heq, -⟩ := entryKey_le_iff.mp (he x ((hmem x).mp hx).1)
        · exact UInt16.le_of_lt hlt
        · exact heq ▸ UInt16.le_refl _
      have hcons : dedupKeys (e :: rest) = e :: (dedupKeys rest).filter fun x => x.1 != e.1 :=
        consKey_eq_filter hstrict hle
      rw [hcons]
      constructor
      · refine List.pairwise_cons.mpr ⟨fun x hx => ?_, hstrict.filter _⟩
        obtain ⟨hx, hne⟩ := List.mem_filter.mp hx
        exact UInt16.lt_of_le_of_ne (hle x hx) (bne_iff_ne.mp hne).symm
      · intro x
        rw [List.mem_cons, List.mem_filter, hmem, List.mem_cons, List.forall_mem_cons, bne_iff_ne]
        constructor
        · rintro (rfl | ⟨⟨hx, hbest⟩, hne⟩)
          · refine ⟨.inl rfl, fun _ => le_rfl, fun f hf heq => ?_⟩
            obtain hlt | ⟨-, hkey⟩ := entryKey_le_iff.mp (he f hf)
            · exact absurd heq.symm (UInt16.ne_of_lt hlt)
            · exact hkey
          · exact ⟨.inr hx, fun heq => absurd heq.symm hne, hbest⟩
        · rintro ⟨rfl | hx, hfirst, hbest⟩
          · exact .inl rfl
          · by_cases heq : x.1 = e.1
            · -- both are best at one address, so they are one entry
              obtain hlt | ⟨-, hkey⟩ := entryKey_le_iff.mp (he x hx)
              · exact absurd heq.symm (UInt16.ne_of_lt hlt)
              · have hname := nameKey_injective (le_antisymm (hfirst heq.symm) hkey)
                exact .inl (Prod.ext heq hname)
            · exact .inr ⟨⟨hx, hbest⟩, heq⟩

/-- The labels as entries of addresses, sorted. -/
def sortedEntries (p : Program) : List (UInt16 × String) :=
  (p.labels.map fun l => (addressOf l.2, l.1)).mergeSort fun a b =>
    decide (a.1 < b.1) || (a.1 == b.1 && !betterName b.2 a.2)

theorem mem_sortedEntries {p : Program} {e : UInt16 × String} :
    e ∈ p.sortedEntries ↔ HasLabel p.labels e.1 e.2 := by
  obtain ⟨a, name⟩ := e
  rw [sortedEntries, List.mem_mergeSort, List.mem_map, hasLabel_iff]
  constructor
  · rintro ⟨⟨other, v⟩, hv, heq⟩
    cases heq
    exact ⟨v, hv, rfl⟩
  · rintro ⟨v, hv, rfl⟩
    exact ⟨(name, v), hv, rfl⟩

theorem sortedEntries_sorted (p : Program) :
    p.sortedEntries.Pairwise fun e f => entryKey e ≤ entryKey f := by
  have hle : (fun a b : UInt16 × String =>
      decide (a.1 < b.1) || (a.1 == b.1 && !betterName b.2 a.2)) =
        fun a b => decide (entryKey a ≤ entryKey b) := by
    funext e f
    rw [Bool.eq_iff_iff, Bool.or_eq_true, Bool.and_eq_true, Bool.not_eq_true', decide_eq_true_eq,
      decide_eq_true_eq, beq_iff_eq, entryKey_le_iff, ← Bool.not_eq_true, betterName_iff, not_lt]
  rw [sortedEntries, hle]
  refine (List.pairwise_mergeSort ?_ ?_ _).imp of_decide_eq_true
  · intro e f g hef hfg
    exact decide_eq_true ((of_decide_eq_true hef).trans (of_decide_eq_true hfg))
  · intro e f
    rw [Bool.or_eq_true, decide_eq_true_eq, decide_eq_true_eq]
    exact le_total _ _

theorem labelMap_strict (p : Program) : p.labelMap.Pairwise fun e f => e.1 < f.1 :=
  (dedupKeys_sorted p.sortedEntries_sorted).1

/-- The map of labels holds the best name of each address, and nothing else. -/
theorem mem_labelMap_iff (p : Program) (a : UInt16) (name : String) :
    (a, name) ∈ p.labelMap ↔ IsBestName p.labels a name := by
  have hmem : (a, name) ∈ p.labelMap ↔ _ := (dedupKeys_sorted p.sortedEntries_sorted).2 (a, name)
  rw [hmem, mem_sortedEntries, IsBestName, and_congr_right_iff]
  intro _
  constructor
  · intro h other hother
    exact h (a, other) (mem_sortedEntries.mpr hother) rfl
  · rintro h ⟨b, other⟩ hother rfl
    exact h other (mem_sortedEntries.mp hother)

theorem labelMap_nodup (p : Program) : p.labelMap.Nodup :=
  p.labelMap_strict.imp fun hlt heq => UInt16.ne_of_lt hlt (congrArg Prod.fst heq)

/-! ## The nearest name -/

/-- Try an address with its name: it is better than what was found if it is
nearer from below. -/
def nearer (a : UInt16) (found : Option (UInt16 × String)) (e : UInt16 × String) :
    Option (UInt16 × String) :=
  if a < e.1 then found
  else match found with
    | none => some e
    | some best =>
      if best.1 < e.1 || (e.1 == best.1 && betterName e.2 best.2) then some e else found

/-- The nearest address at or below `a`, found by trying all. -/
def searchNearest (a : UInt16) (es : List (UInt16 × String)) : Option (UInt16 × String) :=
  es.foldl (nearer a) none

/-- What is to be found: the entry with the highest address that is not above
`a`, and at one address the one with the best name. -/
def Nearest (a : UInt16) (es : List (UInt16 × String)) : Option (UInt16 × String) → Prop
  | none => ∀ f ∈ es, a < f.1
  | some e => e ∈ es ∧ e.1 ≤ a ∧
      ∀ f ∈ es, f.1 ≤ a → f.1 < e.1 ∨ (f.1 = e.1 ∧ nameKey e.2 ≤ nameKey f.2)

variable {es : List (UInt16 × String)}

theorem Nearest.eq {x y : Option (UInt16 × String)} (hx : Nearest a es x) (hy : Nearest a es y) :
    x = y := by
  have hnone : ∀ {e}, Nearest a es none → ¬Nearest a es (some e) := fun h he =>
    UInt16.not_lt.mpr he.2.1 (h _ he.1)
  cases x with
  | none =>
      cases y with
      | none => rfl
      | some f => exact absurd hy (hnone hx)
  | some e =>
      cases y with
      | none => exact absurd hx (hnone hy)
      | some f =>
          obtain ⟨he, hea, hbest⟩ := hx
          obtain ⟨hf, hfa, hbest'⟩ := hy
          -- neither address is below the other, so they are equal and the keys decide
          obtain hlt | ⟨haddr, hkey⟩ := hbest f hf hfa
          · obtain hlt' | ⟨haddr, -⟩ := hbest' e he hea
            · exact absurd hlt' (UInt16.lt_asymm hlt)
            · exact absurd haddr (UInt16.ne_of_lt hlt).symm
          · obtain hlt' | ⟨-, hkey'⟩ := hbest' e he hea
            · exact absurd haddr (UInt16.ne_of_lt hlt').symm
            · exact congrArg some (Prod.ext haddr.symm (nameKey_injective (le_antisymm hkey hkey')))

theorem Nearest.perm {fs : List (UInt16 × String)} {x : Option (UInt16 × String)}
    (h : es.Perm fs) (hx : Nearest a es x) : Nearest a fs x := by
  cases x with
  | none => exact fun f hf => hx f (h.mem_iff.mpr hf)
  | some e => exact ⟨h.mem_iff.mp hx.1, hx.2.1, fun f hf => hx.2.2 f (h.mem_iff.mpr hf)⟩

theorem Nearest.nearer {found : Option (UInt16 × String)} (e : UInt16 × String)
    (h : Nearest a es found) : Nearest a (es ++ [e]) (nearer a found e) := by
  unfold Program.nearer
  -- an entry beyond the address is never taken
  by_cases hbeyond : a < e.1
  · rw [if_pos hbeyond]
    cases found with
    | none => exact List.forall_mem_append.mpr ⟨h, List.forall_mem_singleton.mpr hbeyond⟩
    | some best =>
        refine ⟨List.mem_append_left _ h.1, h.2.1, List.forall_mem_append.mpr ⟨h.2.2, ?_⟩⟩
        exact List.forall_mem_singleton.mpr fun hle => absurd hbeyond (UInt16.not_lt.mpr hle)
  · have hle := UInt16.not_lt.mp hbeyond
    have hlast : e ∈ es ++ [e] := List.mem_append_right _ (List.mem_singleton_self e)
    rw [if_neg hbeyond]
    cases found with
    | none =>
        refine ⟨hlast, hle, List.forall_mem_append.mpr ⟨fun f hf hfa => ?_, ?_⟩⟩
        · exact absurd (h f hf) (UInt16.not_lt.mpr hfa)
        · exact List.forall_mem_singleton.mpr fun _ => .inr ⟨rfl, le_rfl⟩
    | some best =>
        obtain ⟨hbest, hbesta, hleast⟩ := h
        dsimp only
        split
        · next hcond =>
          rw [Bool.or_eq_true, Bool.and_eq_true, decide_eq_true_eq, beq_iff_eq,
            betterName_iff] at hcond
          refine ⟨hlast, hle, List.forall_mem_append.mpr ⟨fun f hf hfa => ?_, ?_⟩⟩
          · obtain hlt | ⟨heq, hkey⟩ := hleast f hf hfa
            · obtain hlt' | ⟨heq', -⟩ := hcond
              · exact .inl (UInt16.lt_trans hlt hlt')
              · exact .inl (heq' ▸ hlt)
            · obtain hlt' | ⟨heq', hkey'⟩ := hcond
              · exact .inl (heq ▸ hlt')
              · exact .inr ⟨heq.trans heq'.symm, hkey'.le.trans hkey⟩
          · exact List.forall_mem_singleton.mpr fun _ => .inr ⟨rfl, le_rfl⟩
        · next hcond =>
          rw [Bool.or_eq_true, Bool.and_eq_true, decide_eq_true_eq, beq_iff_eq, betterName_iff,
            not_or, UInt16.not_lt, not_and, not_lt] at hcond
          refine ⟨List.mem_append_left _ hbest, hbesta, List.forall_mem_append.mpr ⟨hleast, ?_⟩⟩
          refine List.forall_mem_singleton.mpr fun _ => ?_
          by_cases heq : e.1 = best.1
          · exact .inr ⟨heq, hcond.2 heq⟩
          · exact .inl (UInt16.lt_of_le_of_ne hcond.1 heq)

theorem searchNearest_nearest (a : UInt16) (es : List (UInt16 × String)) :
    Nearest a es (searchNearest a es) := by
  induction es using List.reverseRecOn with
  | nil => exact fun f hf => absurd hf List.not_mem_nil
  | append_singleton es e ih =>
      rw [searchNearest, List.foldl_append]
      exact ih.nearer e

/-- The last entry that is not beyond an address is the nearest. -/
theorem nearestLabel_nearest (p : Program) (a : UInt16) :
    Nearest a p.labelMap (p.nearestLabel a) := by
  unfold nearestLabel
  have hstrict := p.labelMap_strict.filter fun l => l.1 ≤ a
  cases hlast : (p.labelMap.filter fun l => l.1 ≤ a).getLast? with
  | none =>
      have hnil := List.getLast?_eq_none_iff.mp hlast
      intro f hf
      exact UInt16.not_le.mp fun hle =>
        List.filter_eq_nil_iff.mp hnil f hf (decide_eq_true hle)
  -- the map is sorted by address: the last entry at or below `a` is the nearest
  | some e =>
      obtain ⟨init, hinit⟩ := List.getLast?_eq_some_iff.mp hlast
      obtain ⟨hmem, hle⟩ := List.mem_filter.mp (List.mem_of_getLast? hlast)
      refine ⟨hmem, of_decide_eq_true hle, fun f hf hfa => ?_⟩
      have hf' : f ∈ init ++ [e] := hinit ▸ List.mem_filter.mpr ⟨hf, decide_eq_true hfa⟩
      rw [hinit, List.pairwise_append] at hstrict
      obtain hf' | hf' := List.mem_append.mp hf'
      · exact .inl (hstrict.2.2 f hf' e (List.mem_singleton_self e))
      · exact .inr (List.mem_singleton.mp hf' ▸ ⟨rfl, le_rfl⟩)

/-! ## Names in any order -/

/-- How a description ends: with the source of the address, if that is known. -/
def originText (p : Program) (a : UInt16) : String :=
  match p.locationOf a with
  | none => ""
  | some loc => " (" ++ loc.render ++ ")"

/-- The text names the nearest labelled address at or below `a`, with the
distance from there, and none if all of them are above. -/
structure DescribedBy (p : Program) (a : UInt16) (text : String) : Prop where
  unnamed : (∀ b name, HasLabel p.labels b name → a < b) →
    text = "$" ++ Text.hex 4 a.toNat ++ p.originText a
  named : ∀ b name, IsBestName p.labels b name → b ≤ a →
    (∀ c other, HasLabel p.labels c other → c ≤ a → c ≤ b) →
    text = "$" ++ Text.hex 4 a.toNat ++ " <" ++ name
      ++ (if b = a then "" else "+" ++ Text.decimal (a.toNat - b.toNat)) ++ ">" ++ p.originText a

/-- An address is described by the entry found. -/
theorem describe_of_nearest {p : Program} {x : Option (UInt16 × String)}
    (h : Nearest a p.labelMap x) :
    p.describe a = match x with
      | none => "$" ++ Text.hex 4 a.toNat ++ p.originText a
      | some (b, name) => "$" ++ Text.hex 4 a.toNat ++ " <" ++ name
          ++ (if b = a then "" else "+" ++ Text.decimal (a.toNat - b.toNat)) ++ ">"
          ++ p.originText a := by
  rw [describe, (p.nearestLabel_nearest a).eq h]
  cases x with
  | none =>
      show "$" ++ Text.hex 4 a.toNat ++ "" ++ p.originText a = _
      rw [String.append_empty]
  | some e =>
      show "$" ++ Text.hex 4 a.toNat ++ (if e.1 == a then _ else _) ++ p.originText a = _
      by_cases heq : e.1 = a <;> simp [heq, String.append_assoc]

theorem describedBy_describe (p : Program) (a : UInt16) : p.DescribedBy a (p.describe a) where
  unnamed := fun habove => by
    have hnone : Nearest a p.labelMap none := fun f hf =>
      habove f.1 f.2 ((p.mem_labelMap_iff f.1 f.2).mp hf).1
    exact describe_of_nearest hnone
  named := fun b name hbest hle hnear => by
    have hsome : Nearest a p.labelMap (some (b, name)) := by
      refine ⟨(p.mem_labelMap_iff b name).mpr hbest, hle, fun f hf hfa => ?_⟩
      have hf := (p.mem_labelMap_iff f.1 f.2).mp hf
      obtain heq | hne := Decidable.em (f.1 = b)
      · exact .inr ⟨heq, hbest.2 f.2 (heq ▸ hf.1)⟩
      · exact .inl (UInt16.lt_of_le_of_ne (hnear f.1 f.2 hf.1 hfa) hne)
    exact describe_of_nearest hsome

/-- A table of addresses that are all different holds its entries. -/
theorem byAddress_eq_some_iff {entries : List (UInt16 × String)}
    (h : entries.Pairwise fun e f => e.1 < f.1) :
    byAddress entries a = some name ↔ (a, name) ∈ entries := by
  refine ⟨mem_of_byAddress, fun hmem => ?_⟩
  have hapart : entries.Pairwise fun e f => (e.1 == f.1) = false :=
    h.imp fun hlt => beq_eq_false_iff_ne.mpr (UInt16.ne_of_lt hlt)
  exact Std.HashMap.getElem?_ofList_of_mem (beq_self_eq_true a) hapart hmem

/-- In whatever order the labels are gone through, each address that some label
has gets the unique least name, and no other address gets one; these are the
names of reports and listings.  And in whatever order the named addresses are
searched, the one found is the nearest at or below, which is what describes an
address. -/
theorem naming_any_order (p : Program) (ls : List (String × Int64)) (hls : ls.Perm p.labels)
    (es : List (UInt16 × String)) (hes : es.Perm (collectNames ls).toList) :
    es.Perm p.labelMap ∧
      (∀ a, (Listing.ofProgram p).labels a = (collectNames ls)[a]?) ∧
      (∀ a name, (collectNames ls)[a]? = some name ↔ IsBestName p.labels a name) ∧
      (∀ a name, HasLabel p.labels a name → ∃! best, IsBestName p.labels a best) ∧
      ∀ a, searchNearest a es = p.nearestLabel a ∧ p.DescribedBy a (p.describe a) := by
  have hnames : ∀ a name, (collectNames ls)[a]? = some name ↔ IsBestName p.labels a name :=
    fun a name => collectNames_eq_some_iff.trans (IsBestName.perm hls)
  have hmap : es.Perm p.labelMap := by
    -- the collected pairs hold each address once, so equal members make a permutation
    have hnodup : (collectNames ls).toList.Nodup :=
      Std.HashMap.distinct_keys_toList.imp fun hne heq =>
        absurd (congrArg Prod.fst heq) (beq_eq_false_iff_ne.mp hne)
    refine hes.trans ((List.perm_ext_iff_of_nodup hnodup p.labelMap_nodup).mpr ?_)
    rintro ⟨a, name⟩
    rw [Std.HashMap.mem_toList_iff_getElem?_eq_some, hnames, mem_labelMap_iff]
  refine ⟨hmap, fun a => ?_, hnames, fun a name h => ?_, fun a => ⟨?_, p.describedBy_describe a⟩⟩
  · refine Option.ext fun name => ?_
    rw [hnames, ← mem_labelMap_iff]
    exact byAddress_eq_some_iff p.labelMap_strict
  -- some best name exists, and two of them have the same key
  · obtain ⟨best, hbest⟩ := exists_isBestName h
    exact ⟨best, hbest, fun other hother => hother.unique hbest⟩
  · exact ((searchNearest_nearest a es).perm hmap).eq (p.nearestLabel_nearest a)

/-- Three labels at one address, one of them beyond the memory, and one behind
them. -/
def crowded : Program where
  labels := [("A$$_X", 0x1000), ("BEGIN", 0x11000), ("END", 0x1010), ("START", 0x1000)]

/-- The same labels the other way round, and their addresses the other way
round. -/
theorem naming_any_order_crowded :
    let ls := crowded.labels.reverse
    let es := (collectNames ls).toList.reverse
    ls.Perm crowded.labels ∧ es.Perm (collectNames ls).toList ∧ es.Perm crowded.labelMap ∧
      (collectNames ls)[(0x1000 : UInt16)]? = some "BEGIN" ∧
      (∃! best, IsBestName crowded.labels 0x1000 best) ∧
      searchNearest 0x1002 es = crowded.nearestLabel 0x1002 ∧
      crowded.describe 0x1002 = "$1002 <BEGIN+2>" ∧
      crowded.describe 0xFFF = "$0FFF" := by
  intro ls es
  have hls : ls.Perm crowded.labels := List.reverse_perm _
  have hes : es.Perm (collectNames ls).toList := List.reverse_perm _
  obtain ⟨hmap, -, hnames, hunique, hdescribe⟩ := naming_any_order crowded ls hls es hes
  have hlabel : HasLabel crowded.labels 0x1000 "BEGIN" := ⟨0x11000, by decide, by decide⟩
  have hall : ∀ c other, HasLabel crowded.labels c other →
      (c = 0x1000 ∧ nameKey "BEGIN" ≤ nameKey other) ∨ c = 0x1010 := by
    intro c other h
    obtain ⟨v, hv, rfl⟩ := hasLabel_iff.mp h
    simp only [crowded, List.mem_cons, Prod.mk.injEq, List.not_mem_nil, or_false] at hv
    obtain ⟨rfl, rfl⟩ | ⟨rfl, rfl⟩ | ⟨rfl, rfl⟩ | ⟨rfl, rfl⟩ := hv
    · exact .inl ⟨by decide, by decide⟩
    · exact .inl ⟨by decide, le_rfl⟩
    · exact .inr (by decide)
    · exact .inl ⟨by decide, by decide⟩
  have hbest : IsBestName crowded.labels 0x1000 "BEGIN" := by
    refine ⟨hlabel, fun other hother => ?_⟩
    obtain ⟨-, hle⟩ | hc := hall _ _ hother
    · exact hle
    · exact absurd hc (by decide)
  refine ⟨hls, hes, hmap, (hnames _ _).mpr hbest, hunique _ _ hlabel, (hdescribe 0x1002).1, ?_, ?_⟩
  · refine ((hdescribe 0x1002).2.named 0x1000 "BEGIN" hbest (by decide) ?_).trans (by decide +kernel)
    intro c other hother hle
    obtain ⟨rfl, -⟩ | rfl := hall c other hother
    · decide
    · exact absurd hle (by decide)
  · refine ((hdescribe 0xFFF).2.unnamed ?_).trans (by decide +kernel)
    intro c other hother
    obtain ⟨rfl, -⟩ | rfl := hall c other hother <;> decide

end Program

end Mos6510
