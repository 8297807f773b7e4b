import Mos6510.Proofs.Isolation
import Mos6510.Proofs.Relabelling

/-!
# Macro calls under other numbers

The names that macro calls make have the number of the call in them, behind a
dollar sign.  Raising all numbers there (`raiseCalls`) tells what such a name is
where the calls are counted from elsewhere.

* `raiseCalls_raiseCalls`: numbers are raised by one amount and then another
  just as by both together;
* `Relabelling.raise`: raising them is a relabelling.
-/

namespace Mos6510

/-! ## Parts of a name -/

/-- The parts of a name between its dollar signs. -/
def parts (name : String) : List (List Char) := name.toList.splitOn '$'

/-- The name that has some parts. -/
def ofParts (ps : List (List Char)) : String := String.ofList (['$'].intercalate ps)

theorem ofParts_parts (name : String) : ofParts (parts name) = name := by
  rw [ofParts, parts, List.intercalate_splitOn, String.ofList_toList]

theorem parts_injective : parts.Injective :=
  Function.LeftInverse.injective ofParts_parts

theorem parts_ofParts {ps : List (List Char)} (hplain : ∀ p ∈ ps, '$' ∉ p) (hne : ps ≠ []) :
    parts (ofParts ps) = ps := by
  rw [parts, ofParts, String.toList_ofList, List.splitOn_intercalate _ hplain hne]

theorem parts_ne_nil (name : String) : parts name ≠ [] := List.splitOn_ne_nil _ _

theorem parts_plain {name : String} (h : Plain name) : parts name = [name.toList] :=
  List.splitOn_eq_singleton h

theorem parts_anchor {name : String} (h : Plain name) (seq : Nat) :
    parts (anchorName name seq) = [name.toList, (Text.decimal seq).toList] := by
  rw [parts, toList_anchorName, List.splitOn_append_cons_self_of_not_mem h,
    List.splitOn_eq_singleton (Text.dollar_not_mem_decimal seq)]

theorem parts_local (p n : String) : parts (p ++ localMark ++ n) = parts p ++ [] :: parts n := by
  have hlist : (p ++ localMark ++ n).toList = p.toList ++ '$' :: ([] ++ '$' :: n.toList) := by
    simp [localMark]
  rw [parts, hlist, List.splitOn_append_cons_self, List.splitOn_append_cons_self, List.splitOn_nil]
  rfl

/-- No part has a dollar sign in it. -/
theorem dollar_not_mem_part {name : String} {p : List Char} (h : p ∈ parts name) : '$' ∉ p := by
  have hall : ∀ {l : List Char} {p : List Char}, p ∈ l.splitOn '$' → '$' ∉ p := by
    intro l
    induction l with
    | nil =>
        intro p hp
        rw [List.splitOn_nil] at hp
        rw [List.mem_singleton.mp hp]
        exact List.not_mem_nil
    | cons c l ih =>
        intro p hp
        rw [List.splitOn_cons_eq_if_modifyHead] at hp
        split at hp
        · rcases List.mem_cons.mp hp with rfl | hp
          · exact List.not_mem_nil
          · exact ih hp
        · rename_i hc
          obtain ⟨first, rest, heq⟩ := List.exists_cons_of_ne_nil (List.splitOn_ne_nil '$' l)
          rw [heq, List.modifyHead_cons] at hp
          rw [heq] at ih
          rcases List.mem_cons.mp hp with rfl | hp
          · have hfirst := ih List.mem_cons_self
            simp only [List.mem_cons, not_or]
            exact ⟨fun h => hc (beq_iff_eq.mpr h.symm), hfirst⟩
          · exact ih (List.mem_cons_of_mem _ hp)
  exact hall h

/-! ## Raising numbers -/

/-- A number in decimal raised, anything else as it is. -/
def raisePart (k : Nat) (p : List Char) : List Char :=
  if p = (Text.decimal (Text.decimalValue 0 p)).toList then
    (Text.decimal (Text.decimalValue 0 p + k : Nat)).toList
  else p

/-- Raise the parts behind a dollar sign. -/
def raiseParts (k : Nat) : List (List Char) → List (List Char)
  | [] => []
  | first :: rest => first :: rest.map (raisePart k)

/-- A name with the number of each macro call in it raised. -/
def raiseCalls (k : Nat) (name : String) : String := ofParts (raiseParts k (parts name))

section

variable (k : Nat)

theorem raisePart_decimal (n : Nat) :
    raisePart k (Text.decimal n).toList = (Text.decimal (n + k : Nat)).toList := by
  have hvalue : Text.decimalValue 0 (Text.decimal n).toList = n := by
    rw [Text.toList_decimal, Text.decimalValue_digits]
  rw [raisePart, hvalue, if_pos rfl]

/-- A part is a number, or is left alone. -/
theorem raisePart_cases (p : List Char) :
    (∃ n : Nat, p = (Text.decimal n).toList) ∨ ∀ k, raisePart k p = p := by
  by_cases h : p = (Text.decimal (Text.decimalValue 0 p)).toList
  · exact .inl ⟨_, h⟩
  · exact .inr fun k => if_neg h

theorem raisePart_raisePart (j : Nat) (p : List Char) :
    raisePart j (raisePart k p) = raisePart (k + j) p := by
  rcases raisePart_cases p with ⟨n, rfl⟩ | h
  · rw [raisePart_decimal, raisePart_decimal, raisePart_decimal, Nat.add_assoc]
  · rw [h, h, h]

theorem raisePart_injective : (raisePart k).Injective := by
  intro p q h
  rcases raisePart_cases p with ⟨n, rfl⟩ | hp <;> rcases raisePart_cases q with ⟨m, rfl⟩ | hq
  · rw [raisePart_decimal, raisePart_decimal] at h
    have hsum := Text.decimal_injective (String.toList_inj.mp h)
    rw [Nat.add_right_cancel hsum]
  · -- the number that comes out would be a part that is left alone
    rw [raisePart_decimal, hq] at h
    have hraised := hq 1
    rw [← h, raisePart_decimal] at hraised
    have := Text.decimal_injective (String.toList_inj.mp hraised)
    omega
  · rw [raisePart_decimal, hp] at h
    have hraised := hp 1
    rw [h, raisePart_decimal] at hraised
    have := Text.decimal_injective (String.toList_inj.mp hraised)
    omega
  · rwa [hp, hq] at h

theorem dollar_not_mem_raisePart {p : List Char} (h : '$' ∉ p) : '$' ∉ raisePart k p := by
  rcases raisePart_cases p with ⟨n, rfl⟩ | hp
  · rw [raisePart_decimal]
    exact Text.dollar_not_mem_decimal _
  · rwa [hp]

/-- Only what begins with a digit is raised. -/
theorem raisePart_of_head {p : List Char} (h : p.head? = none ∨ p.head? = some '_') :
    raisePart k p = p := by
  have hdigit : ∀ d < 10, '_' ≠ Text.upperDigit d := by decide
  rcases raisePart_cases p with ⟨n, rfl⟩ | hp
  · rcases h with h | h
    · exact absurd (List.head?_eq_none_iff.mp h) (Text.decimal_ne_nil n)
    · obtain ⟨d, hd, heq⟩ := Text.mem_decimal (List.mem_of_mem_head? h)
      exact absurd heq (hdigit d hd)
  · exact hp k

theorem raisePart_nil : raisePart k [] = [] := raisePart_of_head k (.inl rfl)

theorem parts_raiseCalls (name : String) : parts (raiseCalls k name) = raiseParts k (parts name) := by
  have hplain := fun p (hp : p ∈ parts name) => dollar_not_mem_part hp
  obtain ⟨first, rest, heq⟩ := List.exists_cons_of_ne_nil (parts_ne_nil name)
  rw [heq] at hplain
  rw [raiseCalls, heq, raiseParts]
  refine parts_ofParts (fun p hp => ?_) (List.cons_ne_nil _ _)
  rcases List.mem_cons.mp hp with rfl | hp
  · exact hplain _ List.mem_cons_self
  · obtain ⟨q, hq, rfl⟩ := List.mem_map.mp hp
    exact dollar_not_mem_raisePart k (hplain q (List.mem_cons_of_mem _ hq))

theorem raiseParts_append {as : List (List Char)} (h : as ≠ []) (bs : List (List Char)) :
    raiseParts k (as ++ bs) = raiseParts k as ++ bs.map (raisePart k) := by
  obtain ⟨a, as, rfl⟩ := List.exists_cons_of_ne_nil h
  simp [raiseParts]

/-- Numbers are raised by one amount and then another as by both together. -/
theorem raiseCalls_raiseCalls (j : Nat) (name : String) :
    raiseCalls j (raiseCalls k name) = raiseCalls (k + j) name := by
  refine parts_injective ?_
  rw [parts_raiseCalls, parts_raiseCalls, parts_raiseCalls]
  cases parts name with
  | nil => rfl
  | cons first rest =>
      simp only [raiseParts, List.map_map, List.cons.injEq, true_and]
      exact List.map_congr_left fun p _ => raisePart_raisePart k j p

theorem raiseCalls_injective : (raiseCalls k).Injective := by
  intro n m h
  have hparts := congrArg parts h
  rw [parts_raiseCalls, parts_raiseCalls] at hparts
  refine parts_injective ?_
  cases hn : parts n with
  | nil => exact absurd hn (parts_ne_nil n)
  | cons first rest =>
      cases hm : parts m with
      | nil => exact absurd hm (parts_ne_nil m)
      | cons first' rest' =>
          rw [hn, hm, raiseParts, raiseParts] at hparts
          obtain ⟨hfirst, hrest⟩ := List.cons.inj hparts
          rw [hfirst, (raisePart_injective k).list_map hrest]

theorem raiseCalls_plain {name : String} (h : Plain name) : raiseCalls k name = name := by
  refine parts_injective ?_
  rw [parts_raiseCalls, parts_plain h]
  rfl

theorem raiseCalls_anchor {name : String} (h : Plain name) (seq : Nat) :
    raiseCalls k (anchorName name seq) = anchorName name (seq + k) := by
  refine parts_injective ?_
  rw [parts_raiseCalls, parts_anchor h, parts_anchor h, raiseParts, List.map_singleton,
    raisePart_decimal]

example : raiseCalls 3 "WAIT$1$$_TOP" = "WAIT$4$$_TOP" := by decide +kernel

/-! ### Scopes -/

theorem isLocalName_eq_parts (name : String) :
    isLocalName name = ((parts name).head?.bind List.head? == some '_') := by
  rw [isLocalName_eq]
  conv_lhs => rw [← ofParts_parts name]
  rw [ofParts, String.toList_ofList]
  obtain ⟨first, rest, heq⟩ := List.exists_cons_of_ne_nil (parts_ne_nil name)
  rw [heq]
  cases first with
  | cons c cs => cases rest <;> simp
  | nil => cases rest <;> simp

theorem isLocalName_raiseCalls (name : String) :
    isLocalName (raiseCalls k name) = isLocalName name := by
  rw [isLocalName_eq_parts, isLocalName_eq_parts, parts_raiseCalls]
  cases parts name <;> rfl

theorem raiseCalls_local {n : String} (h : isLocalName n = true) (p : String) :
    raiseCalls k (p ++ localMark ++ n) = raiseCalls k p ++ localMark ++ raiseCalls k n := by
  refine parts_injective ?_
  rw [parts_raiseCalls, parts_local, parts_local, parts_raiseCalls, parts_raiseCalls,
    raiseParts_append k (parts_ne_nil p), List.map_cons, raisePart_nil]
  rw [isLocalName_eq_parts] at h
  cases hn : parts n with
  | nil => rfl
  | cons first rest =>
      rw [hn] at h
      rw [raiseParts, List.map_cons, raisePart_of_head k (.inr (by simpa using h))]

/-- A name is qualified where a part of it between two others is empty. -/
theorem isQualifiedName_iff_parts (name : String) :
    isQualifiedName name = true ↔
      ∃ as bs, as ≠ [] ∧ bs ≠ [] ∧ parts name = as ++ [] :: bs := by
  have hmark : ∀ l : List Char, hasInfix localMark.toList l = true ↔
      ∃ before after, l = before ++ '$' :: '$' :: after := by
    intro l
    constructor
    · intro h
      induction l with
      | nil => cases h
      | cons c l ih =>
          rw [hasInfix, Bool.or_eq_true] at h
          rcases h with h | h
          · obtain ⟨after, h⟩ := List.isPrefixOf_iff_prefix.mp h
            exact ⟨[], after, h.symm⟩
          · obtain ⟨before, after, rfl⟩ := ih h
            exact ⟨c :: before, after, rfl⟩
    · rintro ⟨before, after, rfl⟩
      exact hasInfix_localMark before after
  rw [isQualifiedName, hmark]
  constructor
  · rintro ⟨before, after, heq⟩
    refine ⟨parts (String.ofList before), parts (String.ofList after), parts_ne_nil _, parts_ne_nil _, ?_⟩
    rw [← parts_local]
    congr 1
    refine String.toList_inj.mp ?_
    rw [heq]
    simp [localMark]
  · rintro ⟨as, bs, has, hbs, heq⟩
    refine ⟨['$'].intercalate as, ['$'].intercalate bs, ?_⟩
    have hname := congrArg String.toList (ofParts_parts name)
    rw [← hname, ofParts, String.toList_ofList, heq]
    obtain ⟨b, bs, rfl⟩ := List.exists_cons_of_ne_nil hbs
    clear hbs hname heq
    induction as with
    | nil => exact absurd rfl has
    | cons a as ih =>
        cases as with
        | nil => simp
        | cons a' as =>
            have hrest := ih (List.cons_ne_nil _ _)
            rw [List.cons_append] at hrest
            rw [List.cons_append, List.cons_append, List.intercalate_cons_cons,
              List.intercalate_cons_cons, hrest]
            simp

theorem isQualifiedName_raiseCalls (name : String) :
    isQualifiedName (raiseCalls k name) = isQualifiedName name := by
  rw [Bool.eq_iff_iff, isQualifiedName_iff_parts, isQualifiedName_iff_parts, parts_raiseCalls]
  constructor
  · rintro ⟨as, bs, has, hbs, heq⟩
    obtain ⟨first, rest, hparts⟩ := List.exists_cons_of_ne_nil (parts_ne_nil name)
    obtain ⟨a, as, rfl⟩ := List.exists_cons_of_ne_nil has
    rw [hparts, raiseParts, List.cons_append] at heq
    obtain ⟨rfl, hrest⟩ := List.cons.inj heq
    obtain ⟨as', bs', rfl, rfl, hbs'⟩ := List.map_eq_append_iff.mp hrest
    obtain ⟨b, bs', rfl, hb, rfl⟩ := List.map_eq_cons_iff.mp hbs'
    obtain rfl : b = [] := raisePart_injective k (hb.trans (raisePart_nil k).symm)
    exact ⟨first :: as', bs', List.cons_ne_nil _ _, by simpa using hbs, hparts⟩
  · rintro ⟨as, bs, has, hbs, heq⟩
    rw [heq, raiseParts_append k has, List.map_cons, raisePart_nil]
    refine ⟨_, _, ?_, ?_, rfl⟩
    · cases as with
      | nil => exact absurd rfl has
      | cons a as => exact List.cons_ne_nil _ _
    · simpa using hbs

end

/-! ## The relabelling -/

namespace Relabelling

/-- Jumps, counters and macro calls are counted from other numbers. -/
def raise (ids : Ids) : Relabelling where
  name := raiseCalls ids.seq
  call := id
  mark := raiseCalls ids.seq
  shift := ids
  name_injective := raiseCalls_injective ids.seq
  call_injective := Function.injective_id
  mark_injective := raiseCalls_injective ids.seq
  name_plain := raiseCalls_plain ids.seq
  mark_plain := raiseCalls_plain ids.seq
  call_written := id
  isLocalName_name := isLocalName_raiseCalls ids.seq
  isQualifiedName_name := isQualifiedName_raiseCalls ids.seq
  name_local := raiseCalls_local ids.seq
  name_anchor := raiseCalls_anchor ids.seq
  mark_anchor := raiseCalls_anchor ids.seq

end Relabelling

end Mos6510
