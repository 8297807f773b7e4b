import Mathlib.Data.String.Basic
import Mos6510.MacroDef

/-!
# Names

A name as it is written in source text has no dollar sign in it and no
hygiene mark in front (`IsWritten`).  Macro calls make names of their own out
of these, with dollar signs and the number of the call.

* `decimal_injective`, `dollar_not_mem_decimal`: numbers are told apart by
  their digits, among which there is no dollar sign;
* `hide_injective`: the private forms of written names are told apart;
* `anchor_injective`, `private_injective`: the names that calls make tell
  which call made them, of which macro;
* `qualify_injective`: below the parent labels of the source all these names
  stay apart.
-/

namespace Mos6510

/-! ## Dollar signs -/

/-- The name is free of dollar signs. -/
def Plain (name : String) : Prop := '$' ∉ name.toList

/-- Lists are split at their first dollar sign in one way only. -/
theorem split_first {l₁ l₂ r₁ r₂ : List Char} (h₁ : '$' ∉ l₁) (h₂ : '$' ∉ l₂)
    (h : l₁ ++ '$' :: r₁ = l₂ ++ '$' :: r₂) : l₁ = l₂ ∧ r₁ = r₂ := by
  induction l₁ generalizing l₂ with
  | nil =>
      cases l₂ with
      | nil => exact ⟨rfl, (List.cons.inj h).2⟩
      | cons c l₂ =>
          obtain ⟨rfl, -⟩ := List.cons.inj h
          exact absurd List.mem_cons_self h₂
  | cons c l₁ ih =>
      cases l₂ with
      | nil =>
          obtain ⟨rfl, -⟩ := List.cons.inj h
          exact absurd List.mem_cons_self h₁
      | cons d l₂ =>
          obtain ⟨rfl, htail⟩ := List.cons.inj h
          obtain ⟨rfl, rfl⟩ := ih (fun hc => h₁ (List.mem_cons_of_mem _ hc))
            (fun hc => h₂ (List.mem_cons_of_mem _ hc)) htail
          exact ⟨rfl, rfl⟩

/-! ## Digits -/

namespace Text

/-- The number that decimal digits stand for, after one read already. -/
def decimalValue (n : Nat) (cs : List Char) : Nat :=
  cs.foldl (fun n c => 10 * n + (c.toNat - 48)) n

theorem toNat_upperDigit {d : Nat} (h : d < 10) : (upperDigit d).toNat - 48 = d := by
  have hall : ∀ d < 10, (upperDigit d).toNat - 48 = d := by decide
  exact hall d h

theorem decimalValue_digitsAux {fuel n : Nat} (h : n < 2 ^ fuel) (acc : List Char) :
    decimalValue 0 (digitsAux upperDigit 10 fuel n acc) = decimalValue n acc := by
  induction fuel generalizing n acc with
  | zero =>
      obtain rfl : n = 0 := by omega
      rfl
  | succ fuel ih =>
      rw [digitsAux]
      split
      · rename_i hzero
        rw [hzero]
      · have hlt : n / 10 < 2 ^ fuel := by omega
        rw [ih hlt]
        show decimalValue (10 * (n / 10) + ((upperDigit (n % 10)).toNat - 48)) acc = _
        rw [toNat_upperDigit (Nat.mod_lt _ (by decide)), Nat.div_add_mod]

theorem decimalValue_digits (n : Nat) : decimalValue 0 (digits upperDigit 10 n) = n := by
  unfold digits
  split
  · rename_i hzero
    rw [hzero]
    rfl
  · rw [decimalValue_digitsAux Nat.lt_log2_self]
    rfl

theorem toList_decimal (n : Nat) : (decimal n).toList = digits upperDigit 10 n := by
  have hneg : ¬(n : Int) < 0 := by omega
  simp [decimal, hneg]

theorem decimal_injective {n m : Nat} (h : decimal n = decimal m) : n = m := by
  have hdigits := congrArg (fun s => decimalValue 0 s.toList) h
  simpa only [toList_decimal, decimalValue_digits] using hdigits

theorem mem_digitsAux {fuel n : Nat} {acc : List Char} {c : Char}
    (h : c ∈ digitsAux upperDigit 10 fuel n acc) : c ∈ acc ∨ ∃ d < 10, c = upperDigit d := by
  induction fuel generalizing n acc with
  | zero => exact .inl h
  | succ fuel ih =>
      rw [digitsAux] at h
      split at h
      · exact .inl h
      · rcases ih h with h | h
        · rcases List.mem_cons.mp h with rfl | h
          · exact .inr ⟨n % 10, Nat.mod_lt _ (by decide), rfl⟩
          · exact .inl h
        · exact .inr h

theorem mem_decimal {n : Nat} {c : Char} (h : c ∈ (decimal n).toList) :
    ∃ d < 10, c = upperDigit d := by
  rw [toList_decimal] at h
  unfold digits at h
  split at h
  · exact ⟨0, by decide, List.mem_singleton.mp h⟩
  · exact (mem_digitsAux h).resolve_left List.not_mem_nil

theorem decimal_ne_nil (n : Nat) : (decimal n).toList ≠ [] := by
  intro h
  rw [toList_decimal] at h
  have hvalue := decimalValue_digits n
  rw [h] at hvalue
  obtain rfl : n = 0 := hvalue.symm
  cases h

theorem dollar_not_mem_decimal (n : Nat) : '$' ∉ (decimal n).toList := by
  have hall : ∀ d < 10, '$' ≠ upperDigit d := by decide
  intro h
  obtain ⟨d, hd, heq⟩ := mem_decimal h
  exact hall d hd heq

end Text

/-! ## Written names -/

/-- A local name starts with an underscore. -/
theorem isLocalName_eq (name : String) : isLocalName name = (name.toList.head? == some '_') := by
  unfold isLocalName String.Pos.Raw.get
  cases name.toList with
  | nil => rfl
  | cons c cs => simp [String.Pos.Raw.utf8GetAux]

/-- A name as source text can have it. -/
structure IsWritten (name : String) : Prop where
  plain : Plain name
  noMark : ¬ MacroDef.hygieneMark.toList <+: name.toList

instance (name : String) : Decidable (IsWritten name) :=
  decidable_of_iff ('$' ∉ name.toList ∧ ¬ MacroDef.hygieneMark.toList <+: name.toList)
    ⟨fun h => ⟨h.1, h.2⟩, fun h => ⟨h.plain, h.noMark⟩⟩

/-- A name as the source text can have it for a label or a macro: a written name that starts
with no digit. -/
structure IsIdentifier (name : String) : Prop extends IsWritten name where
  start : ∃ c, name.toList.head? = some c ∧ c.isDigit = false

namespace MacroDef

theorem hide_eq_or (name : String) : hide name = name ∨ hide name = hygieneMark ++ name := by
  unfold hide
  split
  · exact .inl rfl
  · exact .inr rfl

/-- A written name is the private form of no name but itself. -/
theorem eq_of_hide_eq {n m : String} (hm : IsWritten m) (h : hide n = m) : n = m := by
  rcases hide_eq_or n with hn | hn
  · exact hn.symm.trans h
  · rw [hn] at h
    refine absurd ?_ hm.noMark
    rw [← h, String.toList_append]
    exact List.prefix_append _ _

theorem hide_injective {n m : String} (hn : IsWritten n) (hm : IsWritten m)
    (h : hide n = hide m) : n = m := by
  rcases hide_eq_or m with hm' | hm'
  · exact eq_of_hide_eq hm (h.trans hm')
  · rcases hide_eq_or n with hn' | hn'
    · exact (eq_of_hide_eq hn (h.symm.trans hn')).symm
    · rw [hn', hm'] at h
      have hlist := congrArg String.toList h
      rw [String.toList_append, String.toList_append] at hlist
      exact String.toList_inj.mp (List.append_cancel_left hlist)

/-- Private names are local ones. -/
theorem isLocalName_hide (name : String) : isLocalName (hide name) = true := by
  unfold hide
  split
  · assumption
  · rw [isLocalName_eq, String.toList_append]
    rfl

theorem plain_hide {n : String} (h : Plain n) : Plain (hide n) := by
  rcases hide_eq_or n with hn | hn
  · rwa [hn]
  · rw [hn, Plain, String.toList_append, List.mem_append]
    rintro (hmark | hname)
    · revert hmark
      decide
    · exact h hname

end MacroDef

/-! ## Names of calls -/

/-- The synthetic label of a call of the macro with a name. -/
def anchorName (name : String) (seq : Nat) : String := name ++ "$" ++ Text.decimal seq

theorem toList_anchorName (name : String) (seq : Nat) :
    (anchorName name seq).toList = name.toList ++ '$' :: (Text.decimal seq).toList := by
  simp [anchorName]

theorem toList_private (name : String) (seq : Nat) (p : String) :
    (anchorName name seq ++ localMark ++ p).toList =
      name.toList ++ '$' :: ((Text.decimal seq).toList ++ '$' :: '$' :: p.toList) := by
  simp [toList_anchorName, localMark]

theorem anchor_injective {n m : String} {i j : Nat} (hn : Plain n) (hm : Plain m)
    (h : anchorName n i = anchorName m j) : n = m ∧ i = j := by
  have hlist := congrArg String.toList h
  rw [toList_anchorName, toList_anchorName] at hlist
  obtain ⟨hname, hseq⟩ := split_first hn hm hlist
  exact ⟨String.toList_inj.mp hname, Text.decimal_injective (String.toList_inj.mp hseq)⟩

theorem private_injective {n m p q : String} {i j : Nat} (hn : Plain n) (hm : Plain m)
    (h : anchorName n i ++ localMark ++ p = anchorName m j ++ localMark ++ q) :
    n = m ∧ i = j ∧ p = q := by
  have hlist := congrArg String.toList h
  rw [toList_private, toList_private] at hlist
  obtain ⟨hname, hlist⟩ := split_first hn hm hlist
  obtain ⟨hseq, hlist⟩ := split_first (Text.dollar_not_mem_decimal i)
    (Text.dollar_not_mem_decimal j) hlist
  refine ⟨String.toList_inj.mp hname, Text.decimal_injective (String.toList_inj.mp hseq), ?_⟩
  exact String.toList_inj.mp (List.cons.inj hlist).2

/-! ## Full names -/

/-- The name does not look as if it stood below a parent label: its first dollar
sign has no second one behind it. -/
def Unscoped (name : String) : Prop :=
  ∀ parent rest, '$' ∉ parent → name.toList ≠ parent ++ '$' :: '$' :: rest

theorem Plain.unscoped {name : String} (h : Plain name) : Unscoped name := by
  intro parent rest _ heq
  refine h ?_
  rw [heq]
  exact List.mem_append_right _ List.mem_cons_self

theorem qualify_eq_ok {name parent full : String} :
    qualify name parent = .ok full ↔
      (isLocalName name = false ∧ full = name) ∨
        (isLocalName name = true ∧ parent ≠ "" ∧ full = parent ++ localMark ++ name) := by
  unfold qualify
  cases hlocal : isLocalName name with
  | false => simp [eq_comm]
  | true =>
      by_cases hparent : parent = ""
      · simp [hparent]
      · have hempty : parent.isEmpty = false := by simpa using hparent
        simp only [Bool.not_true, Bool.false_eq_true, if_false, hempty, Except.ok.injEq, ne_eq,
          hparent, not_false_eq_true, true_and, false_and, false_or, eq_comm]

/-- Below a parent label of the source, no two names get one full name. -/
theorem qualify_injective {n m p q full : String} (hp : Plain p) (hq : Plain q)
    (hn : Unscoped n) (hm : Unscoped m) (h₁ : qualify n p = .ok full)
    (h₂ : qualify m q = .ok full) : n = m := by
  have htoList : ∀ p n : String, (p ++ localMark ++ n).toList = p.toList ++ '$' :: '$' :: n.toList :=
    fun p n => by simp [localMark]
  rcases qualify_eq_ok.mp h₁ with ⟨-, rfl⟩ | ⟨-, -, rfl⟩ <;>
    rcases qualify_eq_ok.mp h₂ with ⟨-, heq⟩ | ⟨-, -, heq⟩
  · exact heq
  · exact absurd ((congrArg String.toList heq).trans (htoList q m)) (hn _ _ hq)
  · exact absurd ((congrArg String.toList heq).symm.trans (htoList p n)) (hm _ _ hp)
  · have hlist := congrArg String.toList heq
    rw [htoList, htoList] at hlist
    have htail := (split_first hp hq hlist).2
    exact String.toList_inj.mp (List.cons.inj htail).2

end Mos6510
