import Mathlib.Data.List.Zip
import Mos6510.Proofs.Linking

/-!
# Programs up to numbers and locations

Two programs may differ in the numbers of their jumps and counters and in the
locations of their actions, and still say the same.  A `Pairing` says which
numbers of the second stand for those of the first.

* `Op.Mirrors ρ`: two actions are the same but for numbers that `ρ` pairs;
* `Op.Matches ρ`: so are two actions of programs that define and call macros
  and include files;
* `Aligned acts acts'`: the pairing of the numbers that are given at the same
  places;
* `Mirrored.aligned`, `Matched.aligned`: if one program is linked, this is all
  the pairing there is;
* `Aligned.injective`: so no number has two partners.
-/

namespace Mos6510

/-- Which numbers of a second program stand for those of a first one. -/
abbrev Pairing : Type := Numbered → Int → Int → Prop

/-- What the actions do, without their locations. -/
def opsOf (acts : List Action) : List Op := acts.map Action.op

theorem opsOf_append (as bs : List Action) : opsOf (as ++ bs) = opsOf as ++ opsOf bs :=
  List.map_append

/-- Does the action hold no number and no other actions? -/
def Op.isPlain : Op → Bool
  | .load _ | .get _ | .set _ | .unary _ | .binary _ | .instruction _ | .width _ _ => true
  | .data _ | .text _ _ | .label _ _ | .metaLabel _ | .goto _ => true
  | _ => false

/-- Actions of two programs without macros and includes that are the same but for
numbers that are paired, locations, and names of files that are there. -/
inductive Op.Mirrors (ρ : Pairing) : Op → Op → Prop
  | plain {op : Op} : op.isPlain = true → Op.Mirrors ρ op op
  | bytes (name name' : String) (bytes : List UInt8) :
      Op.Mirrors ρ (.bytes name bytes) (.bytes name' bytes)
  | target {j j' : Int} : ρ .jump j j' → Op.Mirrors ρ (.target j) (.target j')
  | jump {j j' : Int} : ρ .jump j j' → Op.Mirrors ρ (.jump j) (.jump j')
  | jumpIfFalse {j j' : Int} : ρ .jump j j' → Op.Mirrors ρ (.jumpIfFalse j) (.jumpIfFalse j')
  | counterSet {c c' : Int} : ρ .counter c c' → Op.Mirrors ρ (.counterSet c) (.counterSet c')
  | counterTest {c c' j j' : Int} : ρ .counter c c' → ρ .jump j j' →
      Op.Mirrors ρ (.counterTest c j) (.counterTest c' j')
  | counterStep {c c' j j' : Int} : ρ .counter c c' → ρ .jump j j' →
      Op.Mirrors ρ (.counterStep c j) (.counterStep c' j')
  | message {level : Level} {formatted : Bool} {args args' : List (List Action)} :
      args.map opsOf = args'.map opsOf →
        Op.Mirrors ρ (.message level formatted args) (.message level formatted args')

/-- Two programs whose actions are the same, one by one. -/
def Mirrored (ρ : Pairing) : List Action → List Action → Prop :=
  List.Forall₂ fun a a' => a.op.Mirrors ρ a'.op

/-- No number of the first program has two partners. -/
def Pairing.Functional (ρ : Pairing) : Prop := ∀ κ n m m', ρ κ n m → ρ κ n m' → m = m'

/-- Actions of two programs that are the same but for numbers that are paired,
locations, and names that `β` says stand for one file. -/
inductive Op.Matches (ρ : Pairing) (β : String → String → Prop) : Op → Op → Prop
  | mirrors {op op' : Op} : op.Mirrors ρ op' → Op.Matches ρ β op op'
  | defineMacro {name : String} {params : List String} {body body' : List Action} {τ : Pairing} :
      τ.Functional → Mirrored τ body body' →
        Op.Matches ρ β (.defineMacro name params body) (.defineMacro name params body')
  | callMacro {name : String} {args args' : List (List Action)} :
      args.map opsOf = args'.map opsOf →
        Op.Matches ρ β (.callMacro name args) (.callMacro name args')
  | includeBinary {name name' : String} {args args' : List (List Action)} :
      β name name' → args.map opsOf = args'.map opsOf →
        Op.Matches ρ β (.includeBinary name args) (.includeBinary name' args')

/-- Two programs whose actions match, one by one.  Which names stand for one
file depends on where they are written. -/
def Matched (ρ : Pairing) (β : Location → Location → String → String → Prop) :
    List Action → List Action → Prop :=
  List.Forall₂ fun a a' => a.op.Matches ρ (β a.location a'.location) a'.op

/-- The pairing of numbers that are given at the same places. -/
def Aligned (acts acts' : List Action) : Pairing := fun κ n n' =>
  ∃ p ∈ acts.zip acts', p.1.op.given? κ = some n ∧ p.2.op.given? κ = some n'

namespace Op.Mirrors

variable {ρ τ : Pairing} {op op' : Op}

/-- Both actions give a number, or none. -/
theorem given (h : op.Mirrors ρ op') (κ : Numbered) :
    (op.given? κ = none ∧ op'.given? κ = none) ∨
      ∃ n n', op.given? κ = some n ∧ op'.given? κ = some n' ∧ ρ κ n n' := by
  cases h with
  | target h =>
      cases κ with
      | jump => exact .inr ⟨_, _, rfl, rfl, h⟩
      | counter => exact .inl ⟨rfl, rfl⟩
  | counterSet h =>
      cases κ with
      | jump => exact .inl ⟨rfl, rfl⟩
      | counter => exact .inr ⟨_, _, rfl, rfl, h⟩
  | @plain op h =>
      have hnone : op.given? κ = none := by
        cases κ <;> cases op <;> first | rfl | cases h
      exact .inl ⟨hnone, hnone⟩
  | _ => cases κ <;> exact .inl ⟨rfl, rfl⟩

/-- What one action takes has a partner, which the other takes. -/
theorem taken (h : op.Mirrors ρ op') {κ : Numbered} {n : Int} (hn : op.taken? κ = some n) :
    ∃ n', op'.taken? κ = some n' ∧ ρ κ n n' := by
  cases h with
  | @plain op h => cases κ <;> cases op <;> first | cases h; done | cases hn
  | jump h | jumpIfFalse h =>
      cases κ with
      | jump =>
          cases hn
          exact ⟨_, rfl, h⟩
      | counter => cases hn
  | counterTest hc hj | counterStep hc hj =>
      cases κ with
      | jump =>
          cases hn
          exact ⟨_, rfl, hj⟩
      | counter =>
          cases hn
          exact ⟨_, rfl, hc⟩
  | _ => cases κ <;> cases hn

/-- The actions mirror each other as soon as the numbers are paired that they
give and take. -/
theorem repair (h : op.Mirrors ρ op')
    (hgiven : ∀ κ n n', op.given? κ = some n → op'.given? κ = some n' → τ κ n n')
    (htaken : ∀ κ n n', op.taken? κ = some n → ρ κ n n' → τ κ n n') : op.Mirrors τ op' := by
  cases h with
  | plain h => exact .plain h
  | bytes => exact .bytes _ _ _
  | target => exact .target (hgiven .jump _ _ rfl rfl)
  | counterSet => exact .counterSet (hgiven .counter _ _ rfl rfl)
  | jump h => exact .jump (htaken .jump _ _ rfl h)
  | jumpIfFalse h => exact .jumpIfFalse (htaken .jump _ _ rfl h)
  | counterTest hc hj => exact .counterTest (htaken .counter _ _ rfl hc) (htaken .jump _ _ rfl hj)
  | counterStep hc hj => exact .counterStep (htaken .counter _ _ rfl hc) (htaken .jump _ _ rfl hj)
  | message h => exact .message h

theorem mono (h : op.Mirrors ρ op') (hle : ∀ κ n n', ρ κ n n' → τ κ n n') : op.Mirrors τ op' := by
  refine h.repair (fun κ n n' hn hn' => ?_) fun κ n n' _ => hle κ n n'
  rcases h.given κ with ⟨hnone, -⟩ | ⟨m, m', hm, hm', hρ⟩
  · rw [hnone] at hn
    cases hn
  · obtain rfl : m = n := Option.some.inj (hm.symm.trans hn)
    obtain rfl : m' = n' := Option.some.inj (hm'.symm.trans hn')
    exact hle κ _ _ hρ

end Op.Mirrors

namespace Op.Matches

variable {ρ τ : Pairing} {β : String → String → Prop} {op op' : Op}

/-- Both actions give a number, or none. -/
theorem given (h : op.Matches ρ β op') (κ : Numbered) :
    (op.given? κ = none ∧ op'.given? κ = none) ∨
      ∃ n n', op.given? κ = some n ∧ op'.given? κ = some n' ∧ ρ κ n n' := by
  cases h with
  | mirrors h => exact h.given κ
  | _ => cases κ <;> exact .inl ⟨rfl, rfl⟩

/-- What one action takes has a partner, which the other takes. -/
theorem taken (h : op.Matches ρ β op') {κ : Numbered} {n : Int} (hn : op.taken? κ = some n) :
    ∃ n', op'.taken? κ = some n' ∧ ρ κ n n' := by
  cases h with
  | mirrors h => exact h.taken hn
  | _ => cases κ <;> cases hn

/-- The actions match as soon as the numbers are paired that they give and take. -/
theorem repair (h : op.Matches ρ β op')
    (hgiven : ∀ κ n n', op.given? κ = some n → op'.given? κ = some n' → τ κ n n')
    (htaken : ∀ κ n n', op.taken? κ = some n → ρ κ n n' → τ κ n n') : op.Matches τ β op' := by
  cases h with
  | mirrors h => exact .mirrors (h.repair hgiven htaken)
  | defineMacro hτ hbody => exact .defineMacro hτ hbody
  | callMacro hargs => exact .callMacro hargs
  | includeBinary hname hargs => exact .includeBinary hname hargs

theorem mono (h : op.Matches ρ β op') (hle : ∀ κ n n', ρ κ n n' → τ κ n n') : op.Matches τ β op' := by
  cases h with
  | mirrors h => exact .mirrors (h.mono hle)
  | defineMacro hτ hbody => exact .defineMacro hτ hbody
  | callMacro hargs => exact .callMacro hargs
  | includeBinary hname hargs => exact .includeBinary hname hargs

end Op.Matches

namespace Mirrored

variable {ρ τ : Pairing} {acts acts' as as' bs bs' : List Action}

theorem length_eq (h : Mirrored ρ acts acts') : acts.length = acts'.length :=
  List.Forall₂.length_eq h

theorem mono (h : Mirrored ρ acts acts') (hle : ∀ κ n n', ρ κ n n' → τ κ n n') :
    Mirrored τ acts acts' :=
  List.Forall₂.imp (fun _ _ ha => ha.mono hle) h

theorem append (h : Mirrored ρ as as') (h' : Mirrored ρ bs bs') :
    Mirrored ρ (as ++ bs) (as' ++ bs') :=
  List.rel_append h h'

/-- The actions at one place mirror each other. -/
theorem of_mem_zip (h : Mirrored ρ acts acts') {p : Action × Action} (hp : p ∈ acts.zip acts') :
    p.1.op.Mirrors ρ p.2.op :=
  List.forall₂_iff_zip.mp h |>.2 hp

end Mirrored

namespace Aligned

variable {acts acts' as as' bs bs' : List Action} {κ : Numbered} {n n' m m' : Int}

theorem symm (h : Aligned acts acts' κ n n') : Aligned acts' acts κ n' n := by
  obtain ⟨⟨a, a'⟩, hp, hn, hn'⟩ := h
  refine ⟨(a', a), ?_, hn', hn⟩
  rw [← List.zip_swap]
  exact List.mem_map.mpr ⟨_, hp, rfl⟩

theorem mem_given (h : Aligned acts acts' κ n n') : n ∈ given κ acts := by
  obtain ⟨⟨a, a'⟩, hp, hn, -⟩ := h
  exact List.mem_filterMap.mpr ⟨a, (List.of_mem_zip hp).1, hn⟩

theorem append_left (h : Aligned as as' κ n n') (hlength : as.length = as'.length) :
    Aligned (as ++ bs) (as' ++ bs') κ n n' := by
  obtain ⟨p, hp, hn, hn'⟩ := h
  refine ⟨p, ?_, hn, hn'⟩
  rw [List.zip_append hlength]
  exact List.mem_append_left _ hp

theorem append_right (h : Aligned bs bs' κ n n') (hlength : as.length = as'.length) :
    Aligned (as ++ bs) (as' ++ bs') κ n n' := by
  obtain ⟨p, hp, hn, hn'⟩ := h
  refine ⟨p, ?_, hn, hn'⟩
  rw [List.zip_append hlength]
  exact List.mem_append_right _ hp

theorem cons {a a' : Action} (h : Aligned acts acts' κ n n') :
    Aligned (a :: acts) (a' :: acts') κ n n' := by
  obtain ⟨p, hp, hn, hn'⟩ := h
  exact ⟨p, List.mem_cons_of_mem _ hp, hn, hn'⟩

/-- A number that is given once has one partner. -/
theorem unique (hnodup : (given κ acts).Nodup) (h : Aligned acts acts' κ n m)
    (h' : Aligned acts acts' κ n m') : m = m' := by
  induction acts generalizing acts' with
  | nil =>
      obtain ⟨_, hp, -⟩ := h
      cases hp
  | cons a acts ih =>
      cases acts' with
      | nil =>
          obtain ⟨_, hp, -⟩ := h
          cases hp
      | cons a' acts' =>
          rw [given_cons] at hnodup
          obtain ⟨p, hp, hn, hm⟩ := h
          obtain ⟨q, hq, hn', hm'⟩ := h'
          have hapart : ∀ x, a.op.given? κ = some x → x ∉ given κ acts := by
            intro x hx
            rw [hx] at hnodup
            exact (List.nodup_cons.mp hnodup).1
          have hrest : ∀ r ∈ acts.zip acts', r.1.op.given? κ = some n → n ∈ given κ acts :=
            fun r hr hrn => List.mem_filterMap.mpr ⟨r.1, (List.of_mem_zip hr).1, hrn⟩
          rw [List.zip_cons_cons] at hp hq
          -- both are given by the first action, or both by later ones
          rcases List.mem_cons.mp hp with rfl | hp <;> rcases List.mem_cons.mp hq with rfl | hq
          · exact Option.some.inj (hm.symm.trans hm')
          · exact absurd (hrest q hq hn') (hapart n hn)
          · exact absurd (hrest p hp hn) (hapart n hn')
          · exact ih (List.Nodup.of_append_right hnodup) ⟨p, hp, hn, hm⟩ ⟨q, hq, hn', hm'⟩

theorem functional (h : Linked acts) : (Aligned acts acts').Functional :=
  fun κ _ _ _ => unique (h.apart κ)

/-- A number that is given once is the partner of one number. -/
theorem injective (h : Linked acts') (hn : Aligned acts acts' κ n m)
    (hn' : Aligned acts acts' κ n' m) : n = n' :=
  unique (h.apart κ) hn.symm hn'.symm

end Aligned

namespace Aligned

variable {ρ : Pairing} {acts acts' : List Action}

/-- What a linked program takes is given somewhere, and has the same partner
there. -/
theorem of_taken (hρ : ρ.Functional) (hlinked : Linked acts) (hlength : acts.length = acts'.length)
    (hgiven : ∀ p ∈ acts.zip acts', ∀ κ n, p.1.op.given? κ = some n →
      ∃ n', p.2.op.given? κ = some n' ∧ ρ κ n n')
    {a : Action} {κ : Numbered} {n n' : Int} (ha : a ∈ acts) (hn : a.op.taken? κ = some n)
    (hpair : ρ κ n n') : Aligned acts acts' κ n n' := by
  have htaken : n ∈ taken κ acts := List.mem_filterMap.mpr ⟨a, ha, hn⟩
  obtain ⟨b, hb, hbn⟩ := List.mem_filterMap.mp (hlinked.taken κ n htaken)
  obtain ⟨b', hq⟩ : ∃ b', (b, b') ∈ acts.zip acts' := by
    obtain ⟨i, hi, rfl⟩ := List.getElem_of_mem hb
    exact ⟨acts'.get ⟨i, hlength ▸ hi⟩, List.mem_iff_getElem.mpr ⟨i, by simpa [← hlength], by simp⟩⟩
  obtain ⟨m', hm', hpair'⟩ := hgiven _ hq κ n hbn
  obtain rfl := hρ κ _ _ _ hpair hpair'
  exact ⟨_, hq, hbn, hm'⟩

end Aligned

namespace Mirrored

variable {ρ : Pairing} {acts acts' : List Action}

/-- The numbers of a linked program are paired by where they are given. -/
theorem aligned (h : Mirrored ρ acts acts') (hρ : ρ.Functional) (hlinked : Linked acts) :
    Mirrored (Aligned acts acts') acts acts' := by
  refine List.forall₂_iff_zip.mpr ⟨h.length_eq, fun {a a'} hp => ?_⟩
  refine (h.of_mem_zip hp).repair (fun κ n n' hn hn' => ⟨_, hp, hn, hn'⟩) fun κ n n' hn hpair => ?_
  refine Aligned.of_taken hρ hlinked h.length_eq (fun q hq κ n hn => ?_) (List.of_mem_zip hp).1 hn hpair
  rcases (h.of_mem_zip hq).given κ with ⟨hnone, -⟩ | ⟨m, m', hm, hm', hpair⟩
  · rw [hn] at hnone
    cases hnone
  · obtain rfl := Option.some.inj (hn.symm.trans hm)
    exact ⟨m', hm', hpair⟩

end Mirrored

namespace Matched

variable {ρ τ : Pairing} {β : Location → Location → String → String → Prop}
  {acts acts' as as' bs bs' : List Action}

theorem length_eq (h : Matched ρ β acts acts') : acts.length = acts'.length :=
  List.Forall₂.length_eq h

theorem of_mirrored (h : Mirrored ρ acts acts') : Matched ρ β acts acts' :=
  List.Forall₂.imp (fun _ _ ha => .mirrors ha) h

theorem mono (h : Matched ρ β acts acts') (hle : ∀ κ n n', ρ κ n n' → τ κ n n') :
    Matched τ β acts acts' :=
  List.Forall₂.imp (fun _ _ ha => ha.mono hle) h

theorem append (h : Matched ρ β as as') (h' : Matched ρ β bs bs') :
    Matched ρ β (as ++ bs) (as' ++ bs') :=
  List.rel_append h h'

/-- The numbers of a linked program are paired by where they are given. -/
theorem aligned (h : Matched ρ β acts acts') (hρ : ρ.Functional) (hlinked : Linked acts) :
    Matched (Aligned acts acts') β acts acts' := by
  have hzip := fun {p : Action × Action} (hp : p ∈ acts.zip acts') =>
    (List.forall₂_iff_zip.mp h).2 hp
  refine List.forall₂_iff_zip.mpr ⟨h.length_eq, fun {a a'} hp => ?_⟩
  refine (hzip hp).repair (fun κ n n' hn hn' => ⟨_, hp, hn, hn'⟩) fun κ n n' hn hpair => ?_
  refine Aligned.of_taken hρ hlinked h.length_eq (fun q hq κ n hn => ?_) (List.of_mem_zip hp).1 hn hpair
  rcases (hzip hq).given κ with ⟨hnone, -⟩ | ⟨m, m', hm, hm', hpair⟩
  · rw [hn] at hnone
    cases hnone
  · obtain rfl := Option.some.inj (hn.symm.trans hm)
    exact ⟨m', hm', hpair⟩

/-- Parts that are aligned make a whole that is. -/
theorem aligned_append (h : Matched (Aligned as as') β as as') (h' : Matched (Aligned bs bs') β bs bs') :
    Matched (Aligned (as ++ bs) (as' ++ bs')) β (as ++ bs) (as' ++ bs') :=
  (h.mono fun _ _ _ hn => hn.append_left h.length_eq).append
    (h'.mono fun _ _ _ hn => hn.append_right h.length_eq)

end Matched

end Mos6510
