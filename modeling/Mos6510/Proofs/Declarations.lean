import Mos6510.Proofs.Blame
import Mos6510.Proofs.Locals
import Mos6510.Proofs.Roster

/-!
# Which programs declare their symbols

Gathering accepts the programs in which symbols are well scoped, and no others.

* `Gather.WellScoped`: `.LABEL`s differ and `.GOTO`s find them, local names have a parent
  label, and no full name stands for two labels, or for a label and a variable;
* `Gather.declareAction_ok_iff`, `Gather.declareAll_ok_iff`: what an action, and all of
  them, need of the symbols known so far;
* `Gather.declareAll_names`: the names that are known in the end;
* `Assembler.gather_exact`: so gathering succeeds just for well scoped programs, and no
  later pass changes the names.
-/

namespace Mos6510

open Outcome

/-! ## Full names -/

def Op.assigned? : Op → Option String
  | .set name => some name
  | _ => none

/-- The name of a label that is placed. -/
def Op.labelled? : Op → Option String
  | .label name _ => some name
  | _ => none

/-- Does the label scope the local names after it? -/
def Op.opensScope : Op → Bool
  | .label name synthetic => isParentLabel name synthetic
  | _ => false

/-- The name of a symbol that is seen below a parent label. -/
def fullName (parent name : String) : String :=
  if isLocalName name then parent ++ localMark ++ name else name

/-- The full name of the symbol that `pick` takes from an action, if it takes one. -/
def Action.fullName? (pick : Op → Option String) (parent : String) (a : Action) : List String :=
  ((pick a.op).map (fullName parent)).toList

/-- The full names of the symbols that `pick` takes from actions, each below the nearest
parent label before it. -/
def fullNames (pick : Op → Option String) : String → List Action → List String
  | _, [] => []
  | parent, a :: rest => a.fullName? pick parent ++ fullNames pick (scopeAfter parent a) rest

/-- A global name is known everywhere, a local one below a parent label. -/
theorem qualify_eq (name parent : String) :
    qualify name parent =
      if isLocalName name = true ∧ parent = "" then .error (.localWithoutParent name)
      else .ok (fullName parent name) := by
  unfold qualify fullName
  cases isLocalName name with
  | false => rfl
  | true =>
      by_cases hparent : parent = ""
      · simp [hparent]
      · simp [hparent]

namespace Gather

/-- The symbols of a program are well scoped. -/
structure WellScoped (acts : List Action) : Prop where
  distinct : (metaLabelNames acts).Nodup
  known : ∀ a ∈ acts, ∀ name, a.op = .goto name → name ∈ metaLabelNames acts
  underParent : ∀ before a after, acts = before ++ a :: after →
    ∀ name, (a.op.assigned? = some name ∨ a.op.labelled? = some name) → isLocalName name = true →
      ∃ b ∈ before, b.op.opensScope = true
  labels : (fullNames Op.labelled? "" acts).Nodup
  apart : ∀ n ∈ fullNames Op.labelled? "" acts, n ≠ pcName ∧ n ∉ fullNames Op.assigned? "" acts

/-! ## One action -/

/-- An action can be declared where some symbols are known. -/
structure Admits (labels : List (String × Nat)) (parent : String) (e : Engine) (a : Action) :
    Prop where
  known : ∀ name, a.op = .goto name → (labels.lookup name).isSome = true
  underParent : ∀ name, (a.op.assigned? = some name ∨ a.op.labelled? = some name) →
    isLocalName name = true → parent ≠ ""
  assigned : ∀ n ∈ a.fullName? Op.assigned? parent, n ∉ e.labels.names
  labelled : ∀ n ∈ a.fullName? Op.labelled? parent, e.isVariable n = false ∧ n ∉ e.labels.names

/-- The symbols that are known once an action is declared. -/
structure Adds (parent : String) (e : Engine) (a : Action) (next : String) (e' : Engine) : Prop where
  next_eq : next = scopeAfter parent a
  vars : ∀ n, e'.isVariable n = true ↔ n ∈ a.fullName? Op.assigned? parent ∨ e.isVariable n = true
  labels : e'.labels.names = a.fullName? Op.labelled? parent ++ e.labels.names

section Variables

variable {parent name : String} {e e' : Engine}

theorem not_contains {t : SymbolTable} {n : String} : t.contains n = false ↔ n ∉ t.names := by
  rw [← Bool.not_eq_true, SymbolTable.contains_iff]

/-- A variable is declared unless its name is local and has no parent label, or is that of
a label. -/
theorem declareVariable_ok_iff (hpc : pcName ∉ e.labels.names) :
    (∃ u e', Engine.declareVariable name parent e = .ok u e') ↔
      (isLocalName name = true → parent ≠ "") ∧ fullName parent name ∉ e.labels.names := by
  unfold Engine.declareVariable
  by_cases hname : name = pcName
  · subst hname
    have hglobal : isLocalName pcName = false := rfl
    exact iff_of_true ⟨(), e, rfl⟩ ⟨fun h => absurd (hglobal.symm.trans h) Bool.false_ne_true, hpc⟩
  · rw [if_neg (by simpa using hname), qualify_eq]
    by_cases hlost : isLocalName name = true ∧ parent = ""
    · rw [if_pos hlost]
      exact iff_of_false (by simp) fun h => h.1 hlost.1 hlost.2
    · rw [if_neg hlost]
      have hparent : isLocalName name = true → parent ≠ "" := fun h h' => hlost ⟨h, h'⟩
      cases hlabel : e.labels.contains (fullName parent name) with
      | true =>
          refine iff_of_false (by simp [hlabel]) fun h => h.2 (SymbolTable.contains_iff.mp hlabel)
      | false =>
          refine iff_of_true ?_ ⟨hparent, not_contains.mp hlabel⟩
          cases hvariable : e.isVariable (fullName parent name) with
          | true => exact ⟨(), e, by simp [hlabel, hvariable]⟩
          | false => exact ⟨(), _, by simp [hlabel, hvariable]; rfl⟩

/-- What is known once a variable is declared. -/
theorem declareVariable_names {u : Unit} (h : Engine.declareVariable name parent e = .ok u e') :
    e'.labels.names = e.labels.names ∧
      ∀ n, e'.isVariable n = true ↔ n = fullName parent name ∨ e.isVariable n = true := by
  have hknown : ∀ full, e.isVariable full = true →
      ∀ n, e.isVariable n = true ↔ n = full ∨ e.isVariable n = true :=
    fun full hfull n => (or_iff_right_of_imp fun hn => hn ▸ hfull).symm
  unfold Engine.declareVariable at h
  by_cases hname : name = pcName
  · subst hname
    obtain rfl := done_eq_ok.mp h
    exact ⟨rfl, hknown pcName rfl⟩
  · rw [if_neg (by simpa using hname), qualify_eq] at h
    by_cases hlost : isLocalName name = true ∧ parent = ""
    · rw [if_pos hlost] at h
      cases h
    · rw [if_neg hlost] at h
      dsimp only at h
      split at h
      · cases h
      · split at h
        · rename_i hvariable
          obtain rfl := done_eq_ok.mp h
          exact ⟨rfl, hknown _ hvariable⟩
        · obtain rfl := done_eq_ok.mp h
          refine ⟨rfl, fun n => ?_⟩
          simp only [Engine.isVariable, SymbolTable.contains_declare, Bool.or_eq_true, beq_iff_eq]
          rw [or_left_comm, @eq_comm _ (fullName parent name) n]

/-- A label is declared unless its name is local and has no parent label, or is that of
another symbol. -/
theorem declareLabel_ok_iff {synthetic : Bool} :
    (∃ next e', Engine.declareLabel name synthetic parent e = .ok next e') ↔
      (isLocalName name = true → parent ≠ "") ∧ e.isVariable (fullName parent name) = false ∧
        fullName parent name ∉ e.labels.names := by
  unfold Engine.declareLabel
  rw [qualify_eq]
  by_cases hlost : isLocalName name = true ∧ parent = ""
  · rw [if_pos hlost]
    exact iff_of_false (by simp) fun h => h.1 hlost.1 hlost.2
  · rw [if_neg hlost]
    have hparent : isLocalName name = true → parent ≠ "" := fun h h' => hlost ⟨h, h'⟩
    cases hvariable : e.isVariable (fullName parent name) with
    | true => exact iff_of_false (by simp [hvariable]) fun h => by cases h.2.1
    | false =>
        cases hlabel : e.labels.contains (fullName parent name) with
        | true =>
            refine iff_of_false (by simp [hlabel, hvariable]) fun h => ?_
            exact h.2.2 (SymbolTable.contains_iff.mp hlabel)
        | false =>
            refine iff_of_true ⟨if isParentLabel name synthetic then fullName parent name else parent,
              { e with labels := e.labels.declare (fullName parent name) }, ?_⟩
              ⟨hparent, rfl, not_contains.mp hlabel⟩
            simp only [hlabel, hvariable, Bool.false_eq_true, if_false]

/-- What is known once a label is declared. -/
theorem declareLabel_names {synthetic : Bool} {next : String}
    (h : Engine.declareLabel name synthetic parent e = .ok next e') :
    e'.labels.names = fullName parent name :: e.labels.names ∧
      ∀ n, e'.isVariable n = e.isVariable n := by
  unfold Engine.declareLabel at h
  rw [qualify_eq] at h
  by_cases hlost : isLocalName name = true ∧ parent = ""
  · rw [if_pos hlost] at h
    cases h
  · rw [if_neg hlost] at h
    dsimp only at h
    split at h
    · cases h
    · split at h
      · cases h
      · obtain ⟨-, rfl⟩ := ok_eq_ok.mp h
        exact ⟨rfl, fun _ => rfl⟩

end Variables

section Actions

variable {labels : List (String × Nat)} {parent : String} {e : Engine} {a : Action}

/-- An action is declared just where it can be. -/
theorem declareAction_ok_iff (hpc : pcName ∉ e.labels.names) :
    (∃ p e', declareAction labels parent a e = .ok p e') ↔ Admits labels parent e a := by
  obtain ⟨loc, op, x⟩ := a
  -- what neither assigns nor places a name nor jumps to a `.LABEL` is always admitted
  have hquiet : op.assigned? = none → op.labelled? = none → (∀ name, op ≠ .goto name) →
      Admits labels parent e ⟨loc, op, x⟩ := by
    intro hassigned hlabelled hgoto
    refine ⟨fun name h => absurd h (hgoto name), fun name h => ?_, fun n h => ?_, fun n h => ?_⟩
    · rw [hassigned, hlabelled] at h
      rcases h with h | h <;> cases h
    · rw [Action.fullName?, hassigned] at h
      cases h
    · rw [Action.fullName?, hlabelled] at h
      cases h
  cases op with
  | goto name =>
      unfold declareAction
      cases hfound : labels.lookup name with
      | none =>
          refine iff_of_false (by simp [hfound]) fun h => ?_
          have hknown := h.known name rfl
          rw [hfound] at hknown
          cases hknown
      | some j =>
          refine iff_of_true ⟨(⟨loc, .jump j, x⟩, parent), e, by simp [hfound]⟩ ⟨?_, ?_, nofun, nofun⟩
          · rintro _ ⟨⟩
            rw [hfound]
            rfl
          · rintro _ (h | h) <;> cases h
  | set name =>
      have hdeclared : (∃ p e', declareAction labels parent ⟨loc, .set name, x⟩ e = .ok p e') ↔
          ∃ u e', Engine.declareVariable name parent e = .ok u e' := by
        unfold declareAction
        cases hdeclare : Engine.declareVariable name parent e <;> simp [hdeclare]
      rw [hdeclared, declareVariable_ok_iff hpc]
      constructor
      · rintro ⟨hparent, hlabel⟩
        refine ⟨nofun, ?_, fun n hn => ?_, nofun⟩
        · rintro _ (h | h) <;> cases h
          exact hparent
        · rw [List.mem_singleton.mp hn]
          exact hlabel
      · exact fun h => ⟨h.underParent name (.inl rfl), h.assigned _ (List.mem_singleton.mpr rfl)⟩
  | label name synthetic =>
      have hdeclared :
          (∃ p e', declareAction labels parent ⟨loc, .label name synthetic, x⟩ e = .ok p e') ↔
            ∃ next e', Engine.declareLabel name synthetic parent e = .ok next e' := by
        unfold declareAction
        cases hdeclare : Engine.declareLabel name synthetic parent e <;> simp [hdeclare]
      rw [hdeclared, declareLabel_ok_iff]
      constructor
      · rintro ⟨hparent, hfresh⟩
        refine ⟨nofun, ?_, nofun, fun n hn => ?_⟩
        · rintro _ (h | h) <;> cases h
          exact hparent
        · rw [List.mem_singleton.mp hn]
          exact hfresh
      · exact fun h => ⟨h.underParent name (.inr rfl), h.labelled _ (List.mem_singleton.mpr rfl)⟩
  | _ => exact iff_of_true ⟨_, e, rfl⟩ (hquiet rfl rfl nofun)

/-- What is known once an action is declared. -/
theorem declareAction_adds {b : Action} {next : String} {e' : Engine}
    (h : declareAction labels parent a e = .ok (b, next) e') : Adds parent e a next e' := by
  obtain ⟨loc, op, x⟩ := a
  cases op with
  | set name =>
      unfold declareAction at h
      cases hdeclare : Engine.declareVariable name parent e with
      | error err e₁ =>
          simp only [hdeclare] at h
          cases h
      | ok u e₁ =>
          simp only [hdeclare] at h
          cases h
          obtain ⟨hlabels, hvars⟩ := declareVariable_names hdeclare
          exact ⟨rfl, fun n => (hvars n).trans (or_congr_left List.mem_singleton.symm), hlabels⟩
  -- only a label can change what local names stand below
  | label name synthetic =>
      unfold declareAction at h
      cases hdeclare : Engine.declareLabel name synthetic parent e with
      | error err e₁ =>
          simp only [hdeclare] at h
          cases h
      | ok next' e₁ =>
          simp only [hdeclare] at h
          cases h
          obtain ⟨hlabels, hvars⟩ := declareLabel_names hdeclare
          obtain ⟨-, full, -, -, hnext⟩ := Engine.declareLabel_known hdeclare
          exact ⟨hnext, fun n => by rw [hvars n]; exact (or_iff_right List.not_mem_nil).symm, hlabels⟩
  | goto name =>
      cases hfound : labels.lookup name with
      | none =>
          simp only [declareAction, hfound] at h
          cases h
      | some j =>
          simp only [declareAction, hfound] at h
          cases h
          exact ⟨rfl, fun n => (or_iff_right List.not_mem_nil).symm, rfl⟩
  | _ =>
      cases h
      exact ⟨rfl, fun n => (or_iff_right List.not_mem_nil).symm, rfl⟩

end Actions

/-! ## All actions -/

/-- Actions can be declared where some symbols are known. -/
structure Accepts (labels : List (String × Nat)) (parent : String) (e : Engine)
    (acts : List Action) : Prop where
  known : ∀ a ∈ acts, ∀ name, a.op = .goto name → (labels.lookup name).isSome = true
  underParent : ∀ before a after, acts = before ++ a :: after →
    ∀ name, (a.op.assigned? = some name ∨ a.op.labelled? = some name) → isLocalName name = true →
      before.foldl scopeAfter parent ≠ ""
  labels : (fullNames Op.labelled? parent acts).Nodup
  fresh : ∀ n ∈ fullNames Op.labelled? parent acts, e.isVariable n = false ∧ n ∉ e.labels.names
  apart : ∀ n ∈ fullNames Op.assigned? parent acts,
    n ∉ e.labels.names ∧ n ∉ fullNames Op.labelled? parent acts

section All

variable {labels : List (String × Nat)} {parent next : String} {e e' : Engine} {a : Action}
  {acts rest : List Action}

theorem fullNames_cons (pick : Op → Option String) :
    fullNames pick parent (a :: rest) =
      a.fullName? pick parent ++ fullNames pick (scopeAfter parent a) rest := rfl

/-- No action both assigns and labels. -/
theorem not_labelled_of_assigned {n : String} (h : n ∈ a.fullName? Op.assigned? parent) :
    n ∉ a.fullName? Op.labelled? parent := by
  obtain ⟨loc, op, x⟩ := a
  cases op with
  | set => exact List.not_mem_nil
  | _ => cases h

theorem nodup_labelled : (a.fullName? Op.labelled? parent).Nodup := by
  unfold Action.fullName?
  cases a.op.labelled? with
  | none => exact List.nodup_nil
  | some name => exact List.nodup_singleton _

theorem Accepts.admits (h : Accepts labels parent e (a :: rest)) : Admits labels parent e a where
  known := h.known a List.mem_cons_self
  underParent := h.underParent [] a rest rfl
  assigned n hn := (h.apart n (List.mem_append_left _ hn)).1
  labelled n hn := h.fresh n (List.mem_append_left _ hn)

theorem Accepts.tail (h : Accepts labels parent e (a :: rest)) (hadds : Adds parent e a next e') :
    Accepts labels next e' rest := by
  obtain ⟨rfl, hvars, hnames⟩ := hadds
  have hdisjoint := List.disjoint_of_nodup_append h.labels
  refine ⟨fun b hb => h.known b (List.mem_cons_of_mem a hb), fun before b after hsplit => ?_,
    h.labels.of_append_right, fun n hn => ⟨?_, ?_⟩, fun n hn => ⟨?_, ?_⟩⟩
  · exact h.underParent (a :: before) b after (by rw [hsplit]; rfl)
  · rw [← Bool.not_eq_true, hvars]
    rintro (hassigned | hknown)
    · exact (h.apart n (List.mem_append_left _ hassigned)).2 (List.mem_append_right _ hn)
    · rw [(h.fresh n (List.mem_append_right _ hn)).1] at hknown
      cases hknown
  · rw [hnames, List.mem_append]
    rintro (hown | hknown)
    · exact hdisjoint hown hn
    · exact (h.fresh n (List.mem_append_right _ hn)).2 hknown
  · rw [hnames, List.mem_append]
    obtain ⟨hknown, hlabelled⟩ := h.apart n (List.mem_append_right _ hn)
    rintro (hown | hold)
    · exact hlabelled (List.mem_append_left _ hown)
    · exact hknown hold
  · exact fun hlater => (h.apart n (List.mem_append_right _ hn)).2 (List.mem_append_right _ hlater)

theorem Accepts.cons (hadmits : Admits labels parent e a) (hadds : Adds parent e a next e')
    (h : Accepts labels next e' rest) : Accepts labels parent e (a :: rest) := by
  obtain ⟨rfl, hvars, hnames⟩ := hadds
  -- what the first action declares is known when the others come
  have hlater : ∀ n ∈ fullNames Op.labelled? (scopeAfter parent a) rest,
      n ∉ a.fullName? Op.assigned? parent ∧ e.isVariable n = false ∧
        n ∉ a.fullName? Op.labelled? parent ∧ n ∉ e.labels.names := by
    intro n hn
    obtain ⟨hvariable, hlabel⟩ := h.fresh n hn
    rw [← Bool.not_eq_true, hvars, not_or, Bool.not_eq_true] at hvariable
    rw [hnames, List.mem_append, not_or] at hlabel
    exact ⟨hvariable.1, hvariable.2, hlabel⟩
  refine ⟨List.forall_mem_cons.mpr ⟨hadmits.known, h.known⟩, fun before b after hsplit => ?_, ?_,
    fun n hn => ?_, fun n hn => ?_⟩
  · cases before with
    | nil =>
        cases hsplit
        exact hadmits.underParent
    | cons c before =>
        cases hsplit
        exact h.underParent before b after rfl
  · refine List.nodup_append'.mpr ⟨nodup_labelled, h.labels, fun n hown hn => ?_⟩
    exact (hlater n hn).2.2.1 hown
  · rcases List.mem_append.mp hn with hown | hn
    · exact hadmits.labelled n hown
    · exact ⟨(hlater n hn).2.1, (hlater n hn).2.2.2⟩
  · rw [fullNames_cons, List.mem_append, not_or]
    rcases List.mem_append.mp hn with hown | hn
    · exact ⟨hadmits.assigned n hown, not_labelled_of_assigned hown, fun h => (hlater n h).1 hown⟩
    · obtain ⟨hlabel, hrest⟩ := h.apart n hn
      rw [hnames, List.mem_append, not_or] at hlabel
      exact ⟨hlabel.2, hlabel.1, hrest⟩

theorem Adds.pcName_not_mem (hadmits : Admits labels parent e a) (hadds : Adds parent e a next e')
    (hpc : pcName ∉ e.labels.names) : pcName ∉ e'.labels.names := by
  rw [hadds.labels, List.mem_append]
  rintro (hown | hknown)
  · cases (hadmits.labelled pcName hown).1
  · exact hpc hknown

/-- Actions are declared just where they can be. -/
theorem declareAll_ok_iff (hpc : pcName ∉ e.labels.names) :
    (∃ r e', declareAll labels parent acts e = .ok r e') ↔ Accepts labels parent e acts := by
  induction acts generalizing parent e with
  | nil =>
      refine iff_of_true ⟨[], e, rfl⟩ ⟨nofun, fun before a after hsplit => ?_, List.nodup_nil,
        nofun, nofun⟩
      simp at hsplit
  | cons a rest ih =>
      constructor
      · rintro ⟨r, e', h⟩
        obtain ⟨⟨b, next⟩, e₁, ha, h⟩ := bind_eq_ok.mp h
        obtain ⟨rest', e₂, hrest, -⟩ := bind_eq_ok.mp h
        have hadmits := (declareAction_ok_iff hpc).mp ⟨_, _, ha⟩
        have hadds := declareAction_adds ha
        exact ((ih (hadds.pcName_not_mem hadmits hpc)).mp ⟨_, _, hrest⟩).cons hadmits hadds
      · intro h
        obtain ⟨⟨b, next⟩, e₁, ha⟩ := (declareAction_ok_iff hpc).mpr h.admits
        have hadds := declareAction_adds ha
        obtain ⟨rest', e', hrest⟩ := (ih (hadds.pcName_not_mem h.admits hpc)).mpr (h.tail hadds)
        exact ⟨b :: rest', e', bind_eq_ok.mpr ⟨_, _, ha, bind_eq_ok.mpr ⟨_, _, hrest, rfl⟩⟩⟩

/-- What is known once all actions are declared. -/
theorem declareAll_names {r : List Action} (h : declareAll labels parent acts e = .ok r e') :
    (∀ n, e'.isVariable n = true ↔
        n ∈ fullNames Op.assigned? parent acts ∨ e.isVariable n = true) ∧
      ∀ n, n ∈ e'.labels.names ↔ n ∈ fullNames Op.labelled? parent acts ∨ n ∈ e.labels.names := by
  induction acts generalizing parent r e with
  | nil =>
      obtain ⟨-, rfl⟩ := pure_eq_ok.mp h
      exact ⟨fun n => (or_iff_right List.not_mem_nil).symm,
        fun n => (or_iff_right List.not_mem_nil).symm⟩
  | cons a rest ih =>
      obtain ⟨⟨b, next⟩, e₁, ha, h⟩ := bind_eq_ok.mp h
      obtain ⟨rest', e₂, hrest, hpure⟩ := bind_eq_ok.mp h
      obtain ⟨-, rfl⟩ := pure_eq_ok.mp hpure
      obtain ⟨rfl, hvars, hnames⟩ := declareAction_adds ha
      obtain ⟨hlast, hlastNames⟩ := ih hrest
      refine ⟨fun n => ?_, fun n => ?_⟩
      · rw [hlast, hvars, fullNames_cons, List.mem_append, or_left_comm, or_assoc]
      · rw [hlastNames, hnames, List.mem_append, fullNames_cons, List.mem_append, or_left_comm,
          or_assoc]

end All

/-! ## `.LABEL`s -/

section MetaLabels

variable {acts : List Action} {labels : List (String × Nat)} {ids ids' : Ids}

/-- `.LABEL`s get numbers just if no name is used twice. -/
theorem numberLabels_ok_iff :
    (∃ labels ids', numberLabels acts [] ids = .ok labels ids') ↔ (metaLabelNames acts).Nodup := by
  constructor
  · rintro ⟨labels, ids', h⟩
    -- names that differ in number differ
    have hnumbers : ((metaLabelNames acts).map (jumpOf labels)).Nodup := by
      rw [(numberLabels_eq_ok h).2.1]
      exact Ids.nodup_upTo ids ids' .jump
    exact hnumbers.of_map
  · intro hdistinct
    cases h : numberLabels acts [] ids with
    | ok labels ids' => exact ⟨labels, ids', rfl⟩
    | error err ids' =>
        obtain ⟨before, a, after, name, rfl, hop, htwice, -⟩ := numberLabels_eq_error h
        have hnames : metaLabelNames (before ++ a :: after) =
            metaLabelNames before ++ name :: metaLabelNames after := by
          simp only [metaLabelNames, List.filterMap_append, List.filterMap_cons, hop]
        rw [hnames] at hdistinct
        rcases htwice with hknown | hbefore
        · cases hknown
        · exact absurd List.mem_cons_self (List.disjoint_of_nodup_append hdistinct hbefore)

/-- The names that have numbers are those of the `.LABEL`s. -/
theorem lookup_isSome_iff (h : numberLabels acts [] ids = .ok labels ids') {name : String} :
    (labels.lookup name).isSome = true ↔ name ∈ metaLabelNames acts := by
  refine ⟨fun hfound => ?_, lookup_of_numberLabels h⟩
  rcases (numberLabels_eq_ok h).2.2.1 name hfound with hknown | hname
  · cases hknown
  · exact hname

end MetaLabels

/-! ## Programs -/

def LabelsNamed (acts : List Action) : Prop :=
  ∀ a ∈ acts, ∀ name synthetic, a.op = .label name synthetic → name ≠ ""

/-- There is a parent label as soon as a label scopes names. -/
theorem nearestParent_ne_iff {acts : List Action} (hnames : LabelsNamed acts) :
    nearestParent acts ≠ "" ↔ ∃ b ∈ acts, b.op.opensScope = true := by
  induction acts using List.reverseRecOn with
  | nil => exact iff_of_false (fun h => h rfl) (by simp)
  | append_singleton acts a ih =>
      have ih := ih fun b hb => hnames b (List.mem_append_left _ hb)
      rw [nearestParent_snoc]
      by_cases hopens : a.op.opensScope = true
      · refine iff_of_true ?_ ⟨a, List.mem_append_right _ List.mem_cons_self, hopens⟩
        obtain ⟨loc, op, x⟩ := a
        cases op with
        | label name synthetic =>
            rw [show scopeAfter (nearestParent acts) ⟨loc, .label name synthetic, x⟩ = name from
              if_pos hopens]
            exact hnames _ (List.mem_append_right _ List.mem_cons_self) name synthetic rfl
        | _ => cases hopens
      · have hkept : scopeAfter (nearestParent acts) a = nearestParent acts := by
          obtain ⟨loc, op, x⟩ := a
          cases op with
          | label name synthetic => exact if_neg hopens
          | _ => rfl
        rw [hkept, ih]
        simp only [List.mem_append, List.mem_singleton, or_and_right, exists_or, exists_eq_left,
          hopens, Bool.false_eq_true, or_false]

/-- The program counter is the only variable that an engine begins with. -/
theorem isVariable_new (verbose : Bool) (n : String) :
    ({ verbose := verbose } : Engine).isVariable n = true ↔ n = pcName := by
  have hnone : ({ verbose := verbose } : Engine).vars.contains n = false := rfl
  rw [Engine.isVariable, hnone, Bool.or_false, beq_iff_eq]

/-- Where nothing is known yet, actions can be declared just if they are well scoped. -/
theorem accepts_iff {acts : List Action} {labels : List (String × Nat)} {verbose : Bool}
    (hnames : LabelsNamed acts)
    (hlabels : ∀ {name}, (labels.lookup name).isSome = true ↔ name ∈ metaLabelNames acts) :
    (metaLabelNames acts).Nodup ∧ Accepts labels "" { verbose := verbose } acts ↔
      WellScoped acts := by
  have hvariable : ∀ n, ({ verbose := verbose } : Engine).isVariable n = false ↔ n ≠ pcName := by
    intro n
    rw [← Bool.not_eq_true, isVariable_new]
  have hparent : ∀ {before a after}, acts = before ++ a :: after →
      (before.foldl scopeAfter "" ≠ "" ↔ ∃ b ∈ before, b.op.opensScope = true) := by
    rintro before a after rfl
    exact nearestParent_ne_iff fun b hb => hnames b (List.mem_append_left _ hb)
  constructor
  · rintro ⟨hdistinct, h⟩
    refine ⟨hdistinct, fun a ha name hop => hlabels.mp (h.known a ha name hop),
      fun before a after hsplit name hop hlocal => ?_, h.labels, fun n hn => ?_⟩
    · exact (hparent hsplit).mp (h.underParent before a after hsplit name hop hlocal)
    · exact ⟨(hvariable n).mp (h.fresh n hn).1, fun hassigned => (h.apart n hassigned).2 hn⟩
  · intro h
    refine ⟨h.distinct, fun a ha name hop => hlabels.mpr (h.known a ha name hop),
      fun before a after hsplit name hop hlocal => ?_, h.labels, fun n hn => ?_, fun n hn => ?_⟩
    · exact (hparent hsplit).mpr (h.underParent before a after hsplit name hop hlocal)
    · exact ⟨(hvariable n).mpr (h.apart n hn).1, List.not_mem_nil⟩
    · exact ⟨List.not_mem_nil, fun hlabelled => (h.apart n hlabelled).2 hn⟩

/-- What an action may become: `.LABEL`s become targets, and `.GOTO`s jumps. -/
inductive Settles : Action → Action → Prop
  | metaLabel (loc : Location) (name : String) (x : Option Expansion) (j : Int) :
      Settles ⟨loc, .metaLabel name, x⟩ (Action.plain loc (.target j))
  | goto (loc : Location) (name : String) (x : Option Expansion) (j : Int) :
      Settles ⟨loc, .goto name, x⟩ ⟨loc, .jump j, x⟩
  | same {a : Action} : (∀ name, a.op ≠ .metaLabel name ∧ a.op ≠ .goto name) → Settles a a

theorem settles_settle (labels : List (String × Nat)) (a : Action) :
    Settles a (settle labels a) := by
  obtain ⟨loc, op, x⟩ := a
  cases op with
  | metaLabel name => exact .metaLabel loc name x _
  | goto name => exact .goto loc name x _
  | _ => exact .same fun name => ⟨nofun, nofun⟩

end Gather

namespace Assembler

open Gather

/-- Gathering numbers `.LABEL`s, and then declares the actions. -/
theorem gather_ok_iff (asm : Assembler) (acts : List Action) (s : Session) :
    (∃ r s', asm.gather acts s = .ok r s') ↔
      ∃ labels ids', numberLabels acts [] s.ids = .ok labels ids' ∧
        ∃ r e, declareAll labels "" acts { verbose := asm.verbose } = .ok r e := by
  constructor
  · rintro ⟨⟨r, e⟩, s', h⟩
    obtain ⟨labels, hnumber, hdeclare⟩ := gather_eq_ok h
    exact ⟨labels, s'.ids, hnumber, r, e, hdeclare⟩
  · rintro ⟨labels, ids', hnumber, r, e, hdeclare⟩
    have hids : withIds (numberLabels acts []) s = .ok labels { s with ids := ids' } := by
      unfold withIds
      rw [hnumber]
    cases hgather : asm.gather acts s with
    | ok r' s' => exact ⟨r', s', rfl⟩
    | error err s' =>
        rw [gather, show (withIds _ >>= _) s = _ from bind_of_ok hids] at hgather
        simp only [hdeclare] at hgather
        cases hgather

/-- Gathering accepts just the programs in which symbols are well scoped.  It changes
`.LABEL`s and `.GOTO`s only, and knows the names that are assigned and labelled; no state
that a later pass comes to knows others, and in none does a name stand for two symbols. -/
theorem gather_exact (asm : Assembler) (acts : List Action) (s : Session)
    (hnames : LabelsNamed acts) :
    ((∃ r s', asm.gather acts s = .ok r s') ↔ WellScoped acts) ∧
      ∀ out e s', asm.gather acts s = .ok (out, e) s' →
        List.Forall₂ Settles acts out ∧
        (∀ n, e.isVariable n = true ↔ n = pcName ∨ n ∈ fullNames Op.assigned? "" acts) ∧
        (∀ n, n ∈ e.labels.names ↔ n ∈ fullNames Op.labelled? "" acts) ∧
        ∀ code, Code.ofActions out = .ok code →
          ∀ e', code.Reaches asm.verbose e e' → e'.names = e.names ∧ e'.NamesApart := by
  refine ⟨?_, fun out e s' h => ?_⟩
  · rw [gather_ok_iff]
    constructor
    · rintro ⟨labels, ids', hnumber, hdeclare⟩
      have hdistinct := numberLabels_ok_iff.mp ⟨labels, ids', hnumber⟩
      have haccepts := (declareAll_ok_iff List.not_mem_nil).mp hdeclare
      exact (accepts_iff hnames (lookup_isSome_iff hnumber)).mp ⟨hdistinct, haccepts⟩
    · intro hscoped
      obtain ⟨labels, ids', hnumber⟩ := numberLabels_ok_iff.mpr hscoped.distinct
      have haccepts : Accepts labels "" { verbose := asm.verbose } acts :=
        ((accepts_iff hnames (lookup_isSome_iff hnumber)).mpr hscoped).2
      exact ⟨labels, ids', hnumber, (declareAll_ok_iff List.not_mem_nil).mpr haccepts⟩
  · obtain ⟨labels, -, hdeclare⟩ := gather_eq_ok h
    obtain ⟨hvars, hlabels⟩ := declareAll_names hdeclare
    have hapart := (declareAll_declared (Engine.declared_new asm.verbose) hdeclare).toNamesApart
    refine ⟨?_, fun n => (hvars n).trans ?_, fun n => ?_, fun code _ e' hreach => ?_⟩
    · rw [(declareAll_eq_settle hdeclare).1, List.forall₂_map_right_iff]
      exact List.forall₂_same.mpr fun a _ => settles_settle labels a
    · rw [or_comm, isVariable_new]
    · rw [hlabels n]
      exact or_iff_left List.not_mem_nil
    · have heq := hreach.names_eq
      exact ⟨heq, hapart.of_names (congrArg Prod.fst heq) (congrArg Prod.snd heq)⟩

/-- A parent label, and a variable and a label below it. -/
def belowMain : List Action :=
  [.plain ⟨"main.s", 1⟩ (.label "main" false), .plain ⟨"main.s", 2⟩ (.load 7),
    .plain ⟨"main.s", 2⟩ (.set "_x"), .plain ⟨"main.s", 3⟩ (.label "_loop" false),
    .plain ⟨"main.s", 4⟩ (.metaLabel "again"), .plain ⟨"main.s", 5⟩ (.goto "again")]

/-- Local names are full names below their parent. -/
theorem gather_exact_belowMain :
    LabelsNamed belowMain ∧ WellScoped belowMain ∧
      ∃ out e s', ({} : Assembler).gather belowMain {} = .ok (out, e) s' ∧
        List.Forall₂ Settles belowMain out ∧
        (∀ n, e.isVariable n = true ↔ n = pcName ∨ n ∈ ["main$$_x"]) ∧
        (∀ n, n ∈ e.labels.names ↔ n ∈ ["main", "main$$_loop"]) ∧
        ∃ code, Code.ofActions out = .ok code ∧
          ∀ e', code.Reaches false e e' → e'.names = e.names ∧ e'.NamesApart := by
  have hnames : LabelsNamed belowMain := by
    intro a ha name synthetic hop
    simp only [belowMain, List.mem_cons, List.not_mem_nil, or_false] at ha
    rcases ha with rfl | rfl | rfl | rfl | rfl | rfl <;> cases hop <;> decide
  have hrun : isOkWith (fun p _ => (Code.ofActions p.1).toOption.isSome)
      (({} : Assembler).gather belowMain {}) = true := by decide +kernel
  obtain ⟨⟨out, e⟩, s', h, hcode⟩ := exists_of_isOkWith hrun
  obtain ⟨hiff, hdone⟩ := gather_exact {} belowMain {} hnames
  obtain ⟨hsettles, hvars, hlabels, hreaches⟩ := hdone out e s' h
  have hassigned : fullNames Op.assigned? "" belowMain = ["main$$_x"] := by decide +kernel
  have hlabelled : fullNames Op.labelled? "" belowMain = ["main", "main$$_loop"] := by
    decide +kernel
  rw [hassigned] at hvars
  rw [hlabelled] at hlabels
  cases hofActions : Code.ofActions out with
  | error err =>
      rw [hofActions] at hcode
      cases hcode
  | ok code =>
      exact ⟨hnames, hiff.mp ⟨_, s', h⟩, out, e, s', h, hsettles, hvars, hlabels, code,
        hofActions, hreaches code hofActions⟩

end Assembler

end Mos6510
