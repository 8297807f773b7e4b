import Mathlib.Logic.Equiv.Basic
import Mos6510.Proofs.Renumbering

/-!
# Macros that exchange their names

The name of a macro is part of the names that its calls make, in front of a dollar sign and
the number of the call.  So when two macros exchange their names, symbols are renamed where
such a number follows (`exchangeCalls`).

* `exchangeCalls_anchor`: the anchor of a call becomes that of the other macro;
* `isLocalName_exchangeCalls`: names keep their scope, if both macros are local names or none is;
* `Relabelling.exchange`: so exchanging the names of two macros is a relabelling.
-/

namespace Mos6510

/-! ## Exchanging names -/

/-- Does the part of a name start like the number of a macro call? -/
def isCount (p : List Char) : Bool := p.head?.any Char.isDigit

/-- Exchange two parts where a number follows. -/
def exchangeParts (old new : List Char) : List (List Char) → List (List Char)
  | [] => []
  | p :: rest => (if rest.head?.any isCount then Equiv.swap old new p else p) :: exchangeParts old new rest

/-- A name after two macros have exchanged theirs. -/
def exchangeCalls (old new name : String) : String :=
  ofParts (exchangeParts old.toList new.toList (parts name))

theorem IsIdentifier.isCount {name : String} (h : IsIdentifier name) : isCount name.toList = false := by
  obtain ⟨c, hc, hdigit⟩ := h.start
  rw [Mos6510.isCount, hc]
  exact hdigit

theorem IsIdentifier.ne_nil {name : String} (h : IsIdentifier name) : name.toList ≠ [] := by
  obtain ⟨c, hc, -⟩ := h.start
  rintro heq
  rw [heq] at hc
  cases hc

theorem isCount_decimal (n : Nat) : isCount (Text.decimal n).toList = true := by
  obtain ⟨c, cs, hcs⟩ := List.exists_cons_of_ne_nil (Text.decimal_ne_nil n)
  obtain ⟨d, hd, rfl⟩ := Text.mem_decimal (n := n) (c := c) (hcs ▸ List.mem_cons_self)
  have hall : ∀ d < 10, (Text.upperDigit d).isDigit = true := by decide
  rw [hcs]
  exact hall d hd

section

variable {old new : List Char}

/-- What does not tell the two parts from each other. -/
theorem apply_swap_eq {α : Type} {f : List Char → α} (h : f old = f new) (p : List Char) :
    f (Equiv.swap old new p) = f p := by
  rw [Equiv.swap_apply_def]
  split
  · rename_i hp
    rw [hp, h]
  · split
    · rename_i hp
      rw [hp, h]
    · rfl

theorem exchangeParts_append (old new : List Char) {as bs : List (List Char)} (hne : as ≠ [])
    (hbs : bs.head?.any isCount = false) :
    exchangeParts old new (as ++ [] :: bs) = exchangeParts old new as ++ [] :: exchangeParts old new bs := by
  induction as with
  | nil => exact absurd rfl hne
  | cons a as ih =>
      cases as with
      | nil =>
          rw [List.cons_append, List.nil_append, exchangeParts, exchangeParts, hbs]
          rfl
      | cons a' as =>
          have hrest := ih (List.cons_ne_nil _ _)
          rw [List.cons_append] at hrest
          rw [List.cons_append, List.cons_append, exchangeParts, hrest, exchangeParts]
          rfl

/-- Parts stay where they are, and empty ones stay empty. -/
theorem exchangeParts_split (hold : old ≠ []) (hnew : new ≠ []) (as bs : List (List Char)) :
    ∃ as' bs', as'.length = as.length ∧ bs'.length = bs.length ∧
      exchangeParts old new (as ++ [] :: bs) = as' ++ [] :: bs' := by
  have hlength : ∀ ps, (exchangeParts old new ps).length = ps.length := by
    intro ps
    induction ps with
    | nil => rfl
    | cons p ps ih => rw [exchangeParts, List.length_cons, ih, List.length_cons]
  induction as with
  | nil =>
      refine ⟨[], _, rfl, hlength bs, ?_⟩
      rw [List.nil_append, exchangeParts, Equiv.swap_apply_of_ne_of_ne hold.symm hnew.symm, ite_self]
      rfl
  | cons a as ih =>
      obtain ⟨as', bs', has, hbs, heq⟩ := ih
      refine ⟨(if (as ++ [] :: bs).head?.any isCount then Equiv.swap old new a else a) :: as', bs',
        by rw [List.length_cons, has, List.length_cons], hbs, ?_⟩
      rw [List.cons_append, exchangeParts, heq]
      rfl

variable (hold : isCount old = false) (hnew : isCount new = false)

include hold hnew

/-- Exchanging twice leaves everything as it was. -/
theorem exchangeParts_exchangeParts (ps : List (List Char)) :
    exchangeParts old new (exchangeParts old new ps) = ps := by
  have hcount := apply_swap_eq (f := isCount) (hold.trans hnew.symm)
  have hhead : ∀ ps, (exchangeParts old new ps).head?.any isCount = ps.head?.any isCount := by
    intro ps
    cases ps with
    | nil => rfl
    | cons p ps =>
        rw [exchangeParts, List.head?_cons, List.head?_cons]
        show isCount (if _ then _ else _) = isCount p
        split
        · exact hcount p
        · rfl
  induction ps with
  | nil => rfl
  | cons p ps ih =>
      rw [exchangeParts, exchangeParts, hhead, ih]
      split
      · rw [Equiv.swap_apply_self]
      · rfl

end

section

variable {old new : String} (hold : IsIdentifier old) (hnew : IsIdentifier new)

include hold hnew

theorem parts_exchangeCalls (name : String) :
    parts (exchangeCalls old new name) = exchangeParts old.toList new.toList (parts name) := by
  have hplain : ∀ ps : List (List Char), (∀ p ∈ ps, '$' ∉ p) →
      ∀ p ∈ exchangeParts old.toList new.toList ps, '$' ∉ p := by
    intro ps
    induction ps with
    | nil => exact fun _ _ hp => absurd hp List.not_mem_nil
    | cons q ps ih =>
        intro h p hp
        obtain ⟨hq, hps⟩ := List.forall_mem_cons.mp h
        rw [exchangeParts] at hp
        rcases List.mem_cons.mp hp with rfl | hp
        · have hswap : ('$' ∈ Equiv.swap old.toList new.toList q) = ('$' ∈ q) :=
            apply_swap_eq (f := fun p => '$' ∈ p) (propext (iff_of_false hold.plain hnew.plain)) q
          split
          · exact fun h => hq (hswap ▸ h)
          · exact hq
        · exact ih hps p hp
  refine parts_ofParts (hplain _ fun p => dollar_not_mem_part) ?_
  obtain ⟨p, ps, hps⟩ := List.exists_cons_of_ne_nil (parts_ne_nil name)
  rw [hps, exchangeParts]
  exact List.cons_ne_nil _ _

theorem exchangeCalls_exchangeCalls (name : String) :
    exchangeCalls old new (exchangeCalls old new name) = name := by
  refine parts_injective ?_
  rw [parts_exchangeCalls hold hnew, parts_exchangeCalls hold hnew,
    exchangeParts_exchangeParts hold.isCount hnew.isCount]

theorem exchangeCalls_plain {name : String} (h : Plain name) : exchangeCalls old new name = name := by
  refine parts_injective ?_
  rw [parts_exchangeCalls hold hnew, parts_plain h]
  rfl

theorem exchangeCalls_anchor {name : String} (h : Plain name) (seq : Nat) :
    exchangeCalls old new (anchorName name seq) = anchorName (Equiv.swap old new name) seq := by
  have hplain : Plain (Equiv.swap old new name) := by
    rw [Equiv.swap_apply_def]
    split
    · exact hnew.plain
    · split
      · exact hold.plain
      · exact h
  have hlist : (Equiv.swap old new name).toList = Equiv.swap old.toList new.toList name.toList :=
    Function.Injective.map_swap (fun _ _ => String.toList_inj.mp) old new name
  refine parts_injective ?_
  rw [parts_exchangeCalls hold hnew, parts_anchor h, parts_anchor hplain, exchangeParts, List.head?_cons]
  simp only [Option.any_some, isCount_decimal, if_true, hlist]
  rfl

theorem isLocalName_exchangeCalls (hlocal : isLocalName old = isLocalName new) (name : String) :
    isLocalName (exchangeCalls old new name) = isLocalName name := by
  have hparts : ∀ {n : String}, isLocalName n = (n.toList.head? == some '_') := isLocalName_eq _
  have hhead := apply_swap_eq (f := fun p => p.head? == some '_') (hparts.symm.trans (hlocal.trans hparts))
  rw [isLocalName_eq_parts, isLocalName_eq_parts, parts_exchangeCalls hold hnew]
  cases parts name with
  | nil => rfl
  | cons p ps =>
      rw [exchangeParts]
      show (List.head? (if _ then _ else _) == some '_') = (p.head? == some '_')
      split
      · exact hhead p
      · rfl

theorem isQualifiedName_exchangeCalls (name : String) :
    isQualifiedName (exchangeCalls old new name) = isQualifiedName name := by
  have hone : ∀ {n : String},
      isQualifiedName n = true → isQualifiedName (exchangeCalls old new n) = true := by
    intro n h
    obtain ⟨as, bs, has, hbs, heq⟩ := (isQualifiedName_iff_parts n).mp h
    obtain ⟨as', bs', hlas, hlbs, hparts⟩ := exchangeParts_split hold.ne_nil hnew.ne_nil as bs
    refine (isQualifiedName_iff_parts _).mpr ⟨as', bs', ?_, ?_, ?_⟩
    · exact List.ne_nil_of_length_pos (hlas ▸ List.length_pos_of_ne_nil has)
    · exact List.ne_nil_of_length_pos (hlbs ▸ List.length_pos_of_ne_nil hbs)
    · rw [parts_exchangeCalls hold hnew, heq, hparts]
  refine Bool.eq_iff_iff.mpr ⟨fun h => ?_, hone⟩
  have hback := hone h
  rwa [exchangeCalls_exchangeCalls hold hnew] at hback

theorem exchangeCalls_local {n : String} (h : isLocalName n = true) (p : String) :
    exchangeCalls old new (p ++ localMark ++ n) =
      exchangeCalls old new p ++ localMark ++ exchangeCalls old new n := by
  refine parts_injective ?_
  have hfirst : (parts n).head?.any isCount = false := by
    rw [isLocalName_eq_parts] at h
    obtain ⟨q, qs, hqs⟩ := List.exists_cons_of_ne_nil (parts_ne_nil n)
    rw [hqs, List.head?_cons] at h ⊢
    rw [Option.any_some, isCount, show q.head? = some '_' by simpa using h]
    rfl
  rw [parts_exchangeCalls hold hnew, parts_local, parts_local, parts_exchangeCalls hold hnew,
    parts_exchangeCalls hold hnew, exchangeParts_append _ _ (parts_ne_nil p) hfirst]

end

/-! ## The relabelling -/

/-- Two macros exchange their names, and nothing is counted from elsewhere. -/
def Relabelling.exchange {old new : String} (hold : IsIdentifier old) (hnew : IsIdentifier new)
    (hlocal : isLocalName old = isLocalName new) : Relabelling where
  name := exchangeCalls old new
  call := Equiv.swap old new
  mark := id
  shift := {}
  name_injective := Function.LeftInverse.injective (exchangeCalls_exchangeCalls hold hnew)
  call_injective := (Equiv.swap old new).injective
  mark_injective := Function.injective_id
  name_plain := exchangeCalls_plain hold hnew
  mark_plain := fun _ => rfl
  call_written := by
    intro n hn
    rw [Equiv.swap_apply_def]
    split
    · exact hnew.toIsWritten
    · split
      · exact hold.toIsWritten
      · exact hn
  isLocalName_name := isLocalName_exchangeCalls hold hnew hlocal
  isQualifiedName_name := isQualifiedName_exchangeCalls hold hnew
  name_local := exchangeCalls_local hold hnew
  name_anchor := exchangeCalls_anchor hold hnew
  mark_anchor := fun _ _ => rfl

end Mos6510
