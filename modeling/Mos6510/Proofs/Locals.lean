import Mathlib.Data.List.Infix
import Mos6510.Proofs.Framing
import Mos6510.Proofs.Stages
import Mos6510.Proofs.Targets

/-!
# The scope of local names

A local name belongs to the nearest parent label before it.  Symbols are
declared in the order of the text (`Gather.declareAll_known`), while the
engine takes the latest parent label that it came by
(`Code.Passes.parent_eq`): a label that is jumped over opens no scope, as
`skippedLabel_captured` shows.

The two agree wherever every jump lands below the parent label that it starts
from.  Then each local name that an action reads, sets or places stands for
the very symbol that was declared for the action (`local_resolves_as_declared`).
That holds of all passes at once if it can be seen in the code
(`Code.keepsScope_of_jumpsInScope`).
-/

namespace Mos6510

open Outcome EngineM

/-! ## Scopes in the text -/

/-- The parent label of the local names after an action. -/
def scopeAfter (parent : String) (a : Action) : String :=
  match a.op with
  | .label name synthetic => if isParentLabel name synthetic then name else parent
  | _ => parent

/-- The nearest parent label in some actions, or else nothing. -/
def nearestParent (acts : List Action) : String := acts.foldl scopeAfter ""

theorem nearestParent_snoc (acts : List Action) (a : Action) :
    nearestParent (acts ++ [a]) = scopeAfter (nearestParent acts) a := by
  unfold nearestParent
  rw [List.foldl_append]
  rfl

theorem scopeAfter_of_not_label {parent : String} {a : Action}
    (h : ∀ name synthetic, a.op ≠ .label name synthetic) : scopeAfter parent a = parent := by
  unfold scopeAfter
  split
  · exact absurd ‹_› (h _ _)
  · rfl

/-- Jump targets open no scope. -/
theorem nearestParent_strip (acts : List Action) :
    nearestParent (Code.strip acts) = nearestParent acts := by
  unfold nearestParent
  generalize "" = parent
  induction acts generalizing parent with
  | nil => rfl
  | cons a rest ih =>
      cases ha : Code.isTarget a with
      | false =>
          rw [Code.strip_cons ha]
          exact ih _
      | true =>
          obtain ⟨loc, op, x⟩ := a
          obtain ⟨j, rfl⟩ := Code.exists_target ha
          rw [Code.strip_target]
          exact ih _

/-- A parent label has the same name everywhere. -/
theorem qualify_of_isParentLabel {name parent : String} {synthetic : Bool}
    (h : isParentLabel name synthetic = true) : qualify name parent = .ok name := by
  simp only [isParentLabel, Bool.and_eq_true, Bool.not_eq_true'] at h
  simp [qualify, h.1.2]

/-! ## Declarations -/

/-- The symbol that an action sets or places is known by the name that it has
below a parent label. -/
structure Action.Known (a : Action) (parent : String) (e : Engine) : Prop where
  set : ∀ name, a.op = .set name →
    ∃ full, qualify name parent = .ok full ∧ e.isVariable full = true
  label : ∀ name synthetic, a.op = .label name synthetic →
    ∃ full, qualify name parent = .ok full ∧ e.labels.contains full = true

/-- The second engine knows the symbols of the first. -/
structure Engine.Knows (e e' : Engine) : Prop where
  vars : ∀ full, e.isVariable full = true → e'.isVariable full = true
  labels : ∀ full, e.labels.contains full = true → e'.labels.contains full = true

theorem Engine.Knows.refl (e : Engine) : e.Knows e := ⟨fun _ h => h, fun _ h => h⟩

theorem Action.Known.of_knows {a : Action} {parent : String} {e e' : Engine}
    (h : a.Known parent e) (hknows : e.Knows e') : a.Known parent e' where
  set := by
    intro name hop
    obtain ⟨full, hq, hfull⟩ := h.set name hop
    exact ⟨full, hq, hknows.vars full hfull⟩
  label := by
    intro name synthetic hop
    obtain ⟨full, hq, hfull⟩ := h.label name synthetic hop
    exact ⟨full, hq, hknows.labels full hfull⟩

/-- Does the action set or place a symbol? -/
def Op.declares : Op → Bool
  | .set _ => true
  | .label _ _ => true
  | _ => false

theorem Action.Known.of_declares_eq_false {a : Action} {parent : String} {e : Engine}
    (h : a.op.declares = false) : a.Known parent e where
  set := by
    intro name hop
    rw [hop] at h
    cases h
  label := by
    intro name synthetic hop
    rw [hop] at h
    cases h

theorem SymbolTable.contains_declare (t : SymbolTable) (n m : String) :
    (t.declare n).contains m = (n == m || t.contains m) := rfl

theorem Engine.declareVariable_known {name parent : String} {u : Unit} {e e' : Engine}
    (h : declareVariable name parent e = .ok u e') :
    e.Knows e' ∧ ∃ full, qualify name parent = .ok full ∧ e'.isVariable full = true := by
  unfold declareVariable at h
  by_cases hp : name = pcName
  · subst hp
    obtain rfl := done_eq_ok.mp h
    exact ⟨.refl _, pcName, rfl, rfl⟩
  · rw [if_neg (by simpa using hp)] at h
    cases hq : qualify name parent with
    | error err =>
        rw [hq] at h
        cases h
    | ok full =>
        rw [hq] at h
        cases hl : e.labels.contains full with
        | true => simp [hl] at h
        | false =>
            cases hv : e.isVariable full with
            | true =>
                simp only [hl, hv, Bool.false_eq_true, if_false, if_true, done_eq_ok] at h
                subst h
                exact ⟨.refl _, full, rfl, hv⟩
            | false =>
                simp only [hl, hv, Bool.false_eq_true, if_false, done_eq_ok] at h
                subst h
                refine ⟨⟨fun n hn => ?_, fun n hn => hn⟩, full, rfl, ?_⟩
                · simp only [isVariable, SymbolTable.contains_declare, Bool.or_eq_true] at hn ⊢
                  exact hn.imp_right .inr
                · simp [isVariable, SymbolTable.contains_declare]

theorem Engine.declareLabel_known {name parent next : String} {synthetic : Bool} {e e' : Engine}
    (h : declareLabel name synthetic parent e = .ok next e') :
    e.Knows e' ∧ ∃ full, qualify name parent = .ok full ∧ e'.labels.contains full = true ∧
      next = if isParentLabel name synthetic then name else parent := by
  unfold declareLabel at h
  cases hq : qualify name parent with
  | error err =>
      rw [hq] at h
      cases h
  | ok full =>
      rw [hq] at h
      cases hv : e.isVariable full with
      | true => simp [hv] at h
      | false =>
          cases hl : e.labels.contains full with
          | true => simp [hl, hv] at h
          | false =>
              simp only [hl, hv, Bool.false_eq_true, if_false, ok_eq_ok] at h
              obtain ⟨rfl, rfl⟩ := h
              refine ⟨⟨fun n hn => hn, fun n hn => ?_⟩, full, rfl, ?_, ?_⟩
              · rw [SymbolTable.contains_declare, hn, Bool.or_true]
              · rw [SymbolTable.contains_declare, beq_self_eq_true, Bool.true_or]
              · cases hparent : isParentLabel name synthetic with
                | false => rfl
                | true =>
                    rw [qualify_of_isParentLabel hparent] at hq
                    cases hq
                    rfl

namespace Gather

/-- What an action declares is known, and the names after it have the parent
label of the text. -/
theorem declareAction_known {labels : List (String × Nat)} {parent next : String} {a a' : Action}
    {e e' : Engine} (h : declareAction labels parent a e = .ok (a', next) e') :
    e.Knows e' ∧ a'.Known parent e' ∧ next = scopeAfter parent a' := by
  obtain ⟨loc, op, x⟩ := a
  unfold declareAction at h
  cases op with
  | metaLabel name =>
      obtain ⟨heq, rfl⟩ := ok_eq_ok.mp h
      cases heq
      exact ⟨.refl _, .of_declares_eq_false rfl, rfl⟩
  | goto name =>
      cases hj : labels.lookup name with
      | none =>
          simp only [hj] at h
          cases h
      | some j =>
          simp only [hj] at h
          obtain ⟨heq, rfl⟩ := ok_eq_ok.mp h
          cases heq
          exact ⟨.refl _, .of_declares_eq_false rfl, rfl⟩
  -- what is declared is known from then on, under the parent that the text has here
  | set name =>
      cases hdeclare : Engine.declareVariable name parent e with
      | error err e₁ =>
          simp only [hdeclare] at h
          cases h
      | ok u e₁ =>
          simp only [hdeclare] at h
          obtain ⟨heq, rfl⟩ := ok_eq_ok.mp h
          cases heq
          obtain ⟨hknows, full, hq, hfull⟩ := Engine.declareVariable_known hdeclare
          refine ⟨hknows, ⟨fun n hop => ?_, fun _ _ hop => ?_⟩, rfl⟩
          · cases hop
            exact ⟨full, hq, hfull⟩
          · cases hop
  | label name synthetic =>
      cases hdeclare : Engine.declareLabel name synthetic parent e with
      | error err e₁ =>
          simp only [hdeclare] at h
          cases h
      | ok next' e₁ =>
          simp only [hdeclare] at h
          obtain ⟨heq, rfl⟩ := ok_eq_ok.mp h
          cases heq
          obtain ⟨hknows, full, hq, hfull, hnext⟩ := Engine.declareLabel_known hdeclare
          refine ⟨hknows, ⟨fun _ hop => ?_, fun n synthetic hop => ?_⟩, hnext⟩
          · cases hop
          · cases hop
            exact ⟨full, hq, hfull⟩
  | _ =>
      obtain ⟨heq, rfl⟩ := ok_eq_ok.mp h
      cases heq
      exact ⟨.refl _, .of_declares_eq_false rfl, rfl⟩

/-- Each symbol that the text sets or places is declared below the nearest
parent label before it. -/
theorem declareAll_known {labels : List (String × Nat)} {parent : String} {acts r : List Action}
    {e e' : Engine} (h : declareAll labels parent acts e = .ok r e') :
    e.Knows e' ∧ ∀ before a after, r = before ++ a :: after →
      a.Known (before.foldl scopeAfter parent) e' := by
  induction acts generalizing parent r e with
  | nil =>
      obtain ⟨rfl, rfl⟩ := pure_eq_ok.mp h
      refine ⟨.refl _, fun before a after hsplit => ?_⟩
      simp at hsplit
  | cons a rest ih =>
      obtain ⟨⟨a', next⟩, e₁, ha, h⟩ := bind_eq_ok.mp h
      obtain ⟨rest', e₂, hrest, hpure⟩ := bind_eq_ok.mp h
      obtain ⟨rfl, rfl⟩ := pure_eq_ok.mp hpure
      obtain ⟨hknows, hknown, rfl⟩ := declareAction_known ha
      obtain ⟨hknows', hknown'⟩ := ih hrest
      refine ⟨⟨fun n hn => hknows'.vars n (hknows.vars n hn),
        fun n hn => hknows'.labels n (hknows.labels n hn)⟩, fun before b after hsplit => ?_⟩
      cases before with
      | nil =>
          cases hsplit
          exact hknown.of_knows hknows'
      | cons c before =>
          cases hsplit
          exact hknown' before b after rfl

end Gather

/-! ## Scopes in the order of execution -/

/-- A label that is placed opens its scope, and nothing else does. -/
theorem SymbolStep.parent_eq {a : Action} {e e' : Engine} (h : SymbolStep a.op e e') :
    e'.parent = scopeAfter e.parent a := by
  cases h with
  | read _ _ hparent hlabel => rw [hparent, scopeAfter_of_not_label hlabel]
  | assign name full v hop _ _ _ _ hparent =>
      rw [hparent, scopeAfter_of_not_label]
      intro _ _ h
      rw [hop] at h
      cases h
  | place name full synthetic addr hop hq _ _ _ _ hparent =>
      rw [hparent]
      simp only [scopeAfter, hop]
      cases hs : isParentLabel name synthetic with
      | false => rfl
      | true =>
          rw [qualify_of_isParentLabel hs] at hq
          cases hq
          rfl

/-- The engine is below the nearest parent label among the visits that it
made. -/
theorem parent_symbolTraced :
    SymbolTraced fun past e => e.parent = nearestParent (past.map Visit.action) where
  scope := by
    intro _ e e' h hpast
    simp only [Engine.scope, Prod.mk.injEq] at h
    rw [h.2.2.2]
    exact hpast
  step := by
    intro past e e' a hpast hstep _
    rw [hstep.parent_eq, hpast, List.map_append]
    exact (nearestParent_snoc _ a).symm
  enter := by
    intro past e a hmsg hpast
    rw [List.map_append, List.map_singleton, nearestParent_snoc, hpast, scopeAfter_of_not_label]
    intro _ _ h
    rw [h] at hmsg
    cases hmsg

/-- Along a pass, local names belong to the latest parent label that was
placed, wherever it stands. -/
theorem Code.Passes.parent_eq {code : Code} {pass : Pass} {e e' : Engine}
    {before after : List Visit} {v : Visit}
    (h : code.Passes pass e (before ++ v :: after) e') :
    v.engine.parent = nearestParent (before.map Visit.action) := by
  obtain ⟨halong, -⟩ := parent_symbolTraced.along h rfl
  exact halong.visit.1

theorem Action.Speaks.of_not_message {a : Action} (h : a.op.isMessage = false) : a.Speaks := by
  intro level formatted args hop
  rw [hop] at h
  cases h

theorem Action.run_parent {a : Action} (hspeaks : a.Speaks) {e e' : Engine}
    (h : a.run e = .ok () e') : e'.parent = scopeAfter e.parent a := by
  obtain ⟨loc, op, x⟩ := a
  cases hmsg : op.isMessage with
  | false => exact (Op.run_symbolStep loc hmsg h).1.parent_eq (a := ⟨loc, op, x⟩)
  | true =>
      cases op with
      | message level formatted args =>
          exact (message_untouched (hspeaks level formatted args rfl) h).1.parent
      | _ => cases hmsg

/-! ## Arguments of messages -/

/-- An expression neither declares a symbol nor shows a message. -/
theorem Expr.plain_actions (x : Expr) :
    ∀ a ∈ x.actions, a.op.declares = false ∧ a.op.isMessage = false := by
  induction x with
  | number loc value => simp [Expr.actions, Action.load, Action.plain, Op.declares, Op.isMessage]
  | symbol loc name => simp [Expr.actions, Action.get, Action.plain, Op.declares, Op.isMessage]
  | unary loc op x ih =>
      intro a ha
      rcases List.mem_append.mp ha with ha | ha
      · exact ih a ha
      · rw [List.mem_singleton.mp ha]
        exact ⟨rfl, rfl⟩
  | binary loc op x y ihx ihy =>
      intro a ha
      rcases List.mem_append.mp ha with ha | ha
      · exact ihx a ha
      · rcases List.mem_append.mp ha with ha | ha
        · exact ihy a ha
        · rw [List.mem_singleton.mp ha]
          exact ⟨rfl, rfl⟩

theorem scopeAfter_of_declares_eq_false {parent : String} {a : Action}
    (h : a.op.declares = false) : scopeAfter parent a = parent := by
  refine scopeAfter_of_not_label fun name synthetic hop => ?_
  rw [hop] at h
  cases h

theorem Action.visits_of_not_message (a : Action) (e : Engine) (h : a.op.isMessage = false) :
    a.visits e = [⟨a, e⟩] := by
  obtain ⟨loc, op, x⟩ := a
  cases op with
  | message => cases h
  | _ => rfl

/-- Actions that declare nothing are visited below one label, with nothing but
themselves. -/
theorem eachVisits_parent {acts : List Action}
    (hacts : ∀ a ∈ acts, a.op.declares = false ∧ a.op.isMessage = false) {e : Engine} {v : Visit}
    (hv : v ∈ eachVisits acts e) :
    v.engine.parent = e.parent ∧ v.action.op.declares = false ∧ v.action.op.isMessage = false := by
  induction acts generalizing e with
  | nil =>
      rw [eachVisits] at hv
      exact absurd hv List.not_mem_nil
  | cons a rest ih =>
      obtain ⟨⟨hdeclares, hmsg⟩, hrest⟩ := List.forall_mem_cons.mp hacts
      rw [eachVisits, a.visits_of_not_message e hmsg, List.mem_append] at hv
      rcases hv with hv | hv
      · rw [List.mem_singleton.mp hv]
        exact ⟨rfl, hdeclares, hmsg⟩
      · split at hv
        · rename_i u e₁ hrun
          obtain ⟨hparent, hop⟩ := ih hrest hv
          have hkept := Action.run_parent (.of_not_message hmsg) hrun
          rw [scopeAfter_of_declares_eq_false hdeclares] at hkept
          exact ⟨hparent.trans hkept, hop⟩
        · exact absurd hv List.not_mem_nil

/-- So are the arguments of a message. -/
theorem argVisits_parent {args : List (List Action)} (hargs : ∀ arg ∈ args, IsMessageArg arg)
    {e : Engine} {v : Visit} (hv : v ∈ argVisits args e) :
    v.engine.parent = e.parent ∧ v.action.op.declares = false ∧ v.action.op.isMessage = false := by
  induction args generalizing e with
  | nil =>
      rw [argVisits] at hv
      exact absurd hv List.not_mem_nil
  | cons arg rest ih =>
      obtain ⟨harg, hrest⟩ := List.forall_mem_cons.mp hargs
      rcases harg with ⟨loc, s, rfl⟩ | ⟨x, rfl⟩
      · exact ih hrest (by simpa [argVisits, Action.plain] using hv)
      · rw [argVisits, List.mem_append] at hv
        · rcases hv with hv | hv
          · exact eachVisits_parent x.plain_actions hv
          · split at hv
            · rename_i w e₁ hrun
              obtain ⟨hparent, hop⟩ := ih hrest hv
              obtain ⟨_, e₂, hexpr, hpop⟩ := bind_eq_ok.mp hrun
              obtain ⟨stack, -, rfl⟩ := Engine.pop_eq_ok.mp hpop
              exact ⟨hparent.trans (x.runEach_pushed hexpr).1.parent, hop⟩
            · exact absurd hv List.not_mem_nil
        · -- an expression is never a single text
          rintro loc s y heq
          have hplain := x.flat_actions ⟨loc, .string s, y⟩ (by rw [heq]; exact List.mem_cons_self)
          cases hplain.1

/-- All visits of an action are made below one label, and only the action
itself declares a symbol. -/
theorem Action.visits_parent {a : Action} (hspeaks : a.Speaks) {e : Engine} {v : Visit}
    (hv : v ∈ a.visits e) :
    v.engine.parent = e.parent ∧ (v.action = a ∨ v.action.op.declares = false) := by
  cases hmsg : a.op.isMessage with
  | false =>
      rw [a.visits_of_not_message e hmsg] at hv
      rw [List.mem_singleton.mp hv]
      exact ⟨rfl, .inl rfl⟩
  | true =>
      obtain ⟨loc, op, x⟩ := a
      cases op with
      | message level formatted args =>
          rw [Action.visits, Op.nestedVisits] at hv
          rcases List.mem_cons.mp hv with rfl | hv
          · exact ⟨rfl, .inl rfl⟩
          · split at hv
            · obtain ⟨hparent, hop, -⟩ := argVisits_parent (hspeaks level formatted args rfl) hv
              exact ⟨hparent, .inr hop⟩
            · exact absurd hv List.not_mem_nil
      | _ => cases hmsg

/-! ## Jumps that stay below a label -/

namespace Code

/-- The nearest parent label before the end of some code. -/
def scopeAt (code : Code) (k : List Action) : String :=
  nearestParent (code.actions.take (code.actions.length - k.length))

theorem scopeAt_of_eq {code : Code} {before k : List Action} (h : code.actions = before ++ k) :
    code.scopeAt k = nearestParent before := by
  unfold scopeAt
  rw [h, List.length_append, Nat.add_sub_cancel, List.take_left]

/-- The places that a pass comes to. -/
abbrev Visits (code : Code) (pass : Pass) (e : Engine) : Nat → List Action → Engine → Prop :=
  code.Arrives jumpLimit code.actions (code.start pass e)

/-- Every jump that a pass makes lands below the parent label that it starts
from. -/
def KeepsScope (code : Code) (pass : Pass) (e : Engine) : Prop :=
  ∀ ⦃n a k d d' j k'⦄, code.Visits pass e n (a :: k) d → a.run (d.atAction a) = .ok () d' →
    d'.jump = some j → code.target? j = some k' → code.scopeAt k' = code.scopeAt k

section Places

variable {seq : List Action} {code : Code} {pass : Pass} {e d : Engine} {n : Nat} {k : List Action}
  (hcode : ofActions seq = .ok code)

include hcode

/-- Execution is always at the end of the code. -/
theorem suffix_of_visits (h : code.Visits pass e n k d) : k <:+ code.actions := by
  induction h with
  | start => exact List.suffix_rfl
  | @next _ a _ _ _ _ _ _ ih => exact (List.suffix_cons a _).trans ih
  | jump _ _ _ ht _ => exact suffix_of_target? hcode ht

theorem mem_of_visits {a : Action} (h : code.Visits pass e n (a :: k) d) :
    a ∈ seq ∧ isTarget a = false := by
  have hmem := (suffix_of_visits hcode h).subset List.mem_cons_self
  rw [(ofActions_eq_ok hcode).2.1] at hmem
  exact mem_strip.mp hmem

/-- A place in the code is known by the number of actions that are left. -/
theorem Visits.of_walk (test : Engine → Bool) {i left : Nat}
    (h : ((code.walk i jumpLimit code.actions (code.start pass e)).any fun p =>
      p.2.1.length == left && test p.2.2) = true) :
    ∃ n d, code.Visits pass e n (code.actions.drop (code.actions.length - left)) d ∧
      test d = true := by
  obtain ⟨⟨n, k, d⟩, hwalk, hp⟩ := (Option.any_eq_true _ _).mp h
  obtain ⟨hleft, htest⟩ := Bool.and_eq_true_iff.mp hp
  have hvisits : code.Visits pass e n k d := Arrives.walk .start hwalk
  have hk := List.suffix_iff_eq_drop.mp (suffix_of_visits hcode hvisits)
  obtain rfl : k.length = left := by simpa using hleft
  exact ⟨n, d, hk ▸ hvisits, htest⟩

/-- Where all jumps keep the scope, execution and text agree on it. -/
theorem parent_of_visits (hspeaks : ∀ a ∈ seq, a.Speaks) (hscope : code.KeepsScope pass e)
    (h : code.Visits pass e n k d) : d.parent = code.scopeAt k := by
  have hstep : ∀ {m a l c c'}, code.Visits pass e m (a :: l) c → c.parent = code.scopeAt (a :: l) →
      a.run (c.atAction a) = .ok () c' → c'.parent = code.scopeAt l := by
    intro m a l c c' hvisits hparent hrun
    obtain ⟨before, hbefore⟩ := suffix_of_visits hcode hvisits
    rw [Action.run_parent (hspeaks a (mem_of_visits hcode hvisits).1) hrun]
    show scopeAfter c.parent a = _
    rw [hparent, scopeAt_of_eq hbefore.symm, ← nearestParent_snoc]
    exact (scopeAt_of_eq (by rw [← hbefore, List.append_assoc]; rfl)).symm
  induction h with
  | start => exact (scopeAt_of_eq (List.nil_append _).symm).symm
  | next hvisits hrun _ ih => exact hstep hvisits ih hrun
  | @jump _ _ _ _ _ _ d' hvisits hrun hj ht ih =>
      show d'.parent = _
      rw [hscope hvisits hrun hj ht]
      exact hstep hvisits ih hrun

end Places

end Code

/-! ## Jumps in the code -/

/-- The jump that an action may ask for. -/
def Op.jump? : Op → Option Int
  | .jump j => some j
  | .jumpIfFalse j => some j
  | .counterTest _ j => some j
  | .counterStep _ j => some j
  | _ => none

theorem Engine.requestJump_jump {j i : Int} {u : Unit} {e e' : Engine}
    (h : requestJump i e = .ok u e') (hj : e'.jump = some j) : i = j := by
  obtain rfl := requestJump_eq_ok.mp h
  simp only at hj
  split at hj
  · cases hj
  · exact Option.some.inj hj

theorem Engine.requestJump_if_jump {j i : Int} {p : Prop} [Decidable p] {u : Unit}
    {e e' : Engine} (h : (if p then requestJump i else pure ()) e = .ok u e')
    (hnone : e.jump = none) (hj : e'.jump = some j) : i = j := by
  split at h
  · exact requestJump_jump h hj
  · obtain ⟨-, rfl⟩ := pure_eq_ok.mp h
    rw [hnone] at hj
    cases hj

/-- An action asks for its own jump and no other. -/
theorem Action.run_jump {a : Action} (hspeaks : a.Speaks) {e e' : Engine} {j : Int}
    (h : a.run e = .ok () e') (hnone : e.jump = none) (hj : e'.jump = some j) :
    a.op.jump? = some j := by
  cases hstraight : a.op.isStraight with
  | true =>
      have hkept := (Action.run_framed hstraight hspeaks).control_eq h
      have hjump : e'.jump = e.jump := congrArg Control.jump hkept
      rw [hjump, hnone] at hj
      cases hj
  -- only the actions of control ask for a jump, and each asks for the one that it names
  | false =>
      obtain ⟨loc, op, x⟩ := a
      cases op with
      | jump i => exact congrArg some (Engine.requestJump_jump h hj)
      | jumpIfFalse i =>
          obtain ⟨v, e₁, hpop, h⟩ := bind_eq_ok.mp h
          obtain ⟨rest, -, rfl⟩ := Engine.pop_eq_ok.mp hpop
          exact congrArg some (Engine.requestJump_if_jump h hnone hj)
      | counterSet c =>
          obtain ⟨-, h⟩ := Engine.loadCounter_eq_ok.mp h
          obtain ⟨v, e₁, hpop, h⟩ := bind_eq_ok.mp h
          obtain ⟨rest, -, rfl⟩ := Engine.pop_eq_ok.mp hpop
          obtain rfl := Engine.setCounter_eq_ok.mp h
          exact absurd (hj.symm.trans hnone) (Option.some_ne_none j)
      | counterTest c i =>
          obtain ⟨v, e₁, hc, hrequest⟩ := bind_eq_ok.mp h
          obtain ⟨-, rfl⟩ := Engine.counter_eq_ok.mp hc
          exact congrArg some (Engine.requestJump_if_jump hrequest hnone hj)
      | counterStep c i =>
          obtain ⟨v, e₁, -, h⟩ := bind_eq_ok.mp h
          obtain ⟨_, e₂, -, h⟩ := bind_eq_ok.mp h
          exact congrArg some (Engine.requestJump_jump h hj)
      | load | get | set | unary | binary | instruction | width | data | text | bytes | label
      | message => cases hstraight
      | _ => exact absurd h throw_ne_ok

namespace Code

/-- Every jump in the code leads to a place below the label that it stands
below. -/
def jumpsInScope (code : Code) : Bool :=
  code.actions.tails.all fun
    | [] => true
    | a :: k => (a.op.jump?.bind code.target?).all fun k' => code.scopeAt k' == code.scopeAt k

/-- No jump is pending where execution goes on. -/
theorem jump_of_visits {code : Code} {pass : Pass} {e d : Engine} {n : Nat} {k : List Action}
    (h : code.Visits pass e n k d) : d.jump = none := by
  cases h with
  | start => rfl
  | next _ _ hj => exact hj
  | jump => rfl

/-- Then all jumps of all passes keep their scope. -/
theorem keepsScope_of_jumpsInScope {seq : List Action} {code : Code}
    (hcode : ofActions seq = .ok code) (hspeaks : ∀ a ∈ seq, a.Speaks)
    (hjumps : code.jumpsInScope = true) (pass : Pass) (e : Engine) : code.KeepsScope pass e := by
  intro n a k d d' j k' hvisits hrun hj ht
  have hnone := jump_of_visits hvisits
  have hown := Action.run_jump (hspeaks a (mem_of_visits hcode hvisits).1) hrun hnone hj
  have hall := List.all_eq_true.mp hjumps _
    ((List.mem_tails _ _).mpr (suffix_of_visits hcode hvisits))
  simpa [hown, ht] using hall

end Code

/-! ## Local names -/

/-- The symbol that an action reads, sets or places. -/
def Op.symbol? : Op → Option String
  | .get name => some name
  | .set name => some name
  | .label name _ => some name
  | _ => none

/-- The full name of a local name below the nearest parent label. -/
theorem qualify_local {name parent : String} (hlocal : isLocalName name = true)
    (hparent : parent ≠ "") : qualify name parent = .ok (parent ++ localMark ++ name) := by
  have hempty : parent.isEmpty = false := by simpa using hparent
  simp [qualify, hlocal, hempty]

/-- Execution resolves local names as they were declared.  In every pass whose
jumps land below the parent label that they start from, whatever else they
skip or repeat, an action finds each local name that it reads, sets or places
below the nearest parent label before it in the text; and what it sets or
places is known under that name from the start. -/
theorem local_resolves_as_declared (asm : Assembler) (acts gathered : List Action)
    (s s' : Session) (e₀ : Engine) (code : Code)
    (hgather : asm.gather acts s = .ok (gathered, e₀) s')
    (hcode : Code.ofActions gathered = .ok code) (hspeaks : ∀ a ∈ gathered, a.Speaks)
    (pass : Pass) (e : Engine) (hscope : code.KeepsScope pass e)
    (before after : List Action) (a : Action) (hsplit : gathered = before ++ a :: after)
    (n : Nat) (d : Engine) (hvisits : code.Visits pass e n (a :: Code.strip after) d)
    (v : Visit) (hv : v ∈ a.visits (d.atAction a)) :
    (∀ name, v.action.op.symbol? = some name → isLocalName name = true →
      qualify name v.engine.parent =
        if nearestParent before = "" then .error (.localWithoutParent name)
        else .ok (nearestParent before ++ localMark ++ name)) ∧
      v.action.Known (nearestParent before) e₀ := by
  have hmem : a ∈ gathered := by
    rw [hsplit]
    exact List.mem_append_right _ List.mem_cons_self
  obtain ⟨hparent, hself⟩ := Action.visits_parent (hspeaks a hmem) hv
  -- the place in the code is the place in the text
  have htarget : Code.isTarget a = false := (Code.mem_of_visits hcode hvisits).2
  have hplace : code.scopeAt (a :: Code.strip after) = nearestParent before := by
    rw [← nearestParent_strip before]
    refine Code.scopeAt_of_eq ?_
    rw [(Code.ofActions_eq_ok hcode).2.1, hsplit, Code.strip_append, Code.strip_cons htarget]
  have hengine : v.engine.parent = nearestParent before := by
    have hd := Code.parent_of_visits hcode hspeaks hscope hvisits
    exact hparent.trans (hd.trans hplace)
  refine ⟨fun name _ hlocal => ?_, ?_⟩
  · rw [hengine]
    split
    · rename_i hnone
      simp [qualify, hlocal, hnone]
    · exact qualify_local hlocal ‹_›
  · rcases hself with heq | hplain
    · rw [heq]
      obtain ⟨labels, hdeclare⟩ := Assembler.yields_of_gather ⟨s, s', hgather⟩
      exact (Gather.declareAll_known hdeclare).2 before a after hsplit
    · exact .of_declares_eq_false hplain

/-- A local name that a loop reads, and its namesake below another label. -/
def namesakes : List Action :=
  [.load {} 0x1000, .set {} "@", .plain {} (.label "copy" false), .load {} 7, .set {} "_x",
    .load {} 2, .plain {} (.counterSet 0), .plain {} (.target 0), .plain {} (.counterTest 0 1),
    .get {} "_x", .plain {} (.data false), .plain {} (.counterStep 0 0), .plain {} (.target 1),
    .plain {} (.label "next" false), .load {} 1, .set {} "_x"]

/-- The engine that knows the symbols of `namesakes`. -/
def namesakesStart : Engine where
  vars := ⟨[("next$$_x", {}), ("copy$$_x", {})]⟩
  labels := ⟨[("next", {}), ("copy", {})]⟩

/-- The code of `namesakes`. -/
def namesakesCode : Code where
  actions := Code.strip namesakes
  targets := Code.targetTable (Code.targetMarks namesakes)
  counters := 1

/-- In its second round the loop reads the local name of the label before it. -/
theorem local_resolves_as_declared_namesakes :
    ∃ s' n d, ({} : Assembler).gather namesakes {} = .ok (namesakes, namesakesStart) s' ∧
      Code.ofActions namesakes = .ok namesakesCode ∧
      namesakesCode.KeepsScope .warmUp namesakesStart ∧
      namesakesCode.Visits .warmUp namesakesStart n
        (.get {} "_x" :: Code.strip (namesakes.drop 10)) d ∧
      qualify "_x" d.parent = .ok "copy$$_x" := by
  obtain ⟨s', hgather⟩ : ∃ s', ({} : Assembler).gather namesakes {} =
      .ok (namesakes, namesakesStart) s' := ⟨_, rfl⟩
  have hcode : Code.ofActions namesakes = .ok namesakesCode := rfl
  have hspeaks : ∀ a ∈ namesakes, a.Speaks := by
    have hquiet : (namesakes.all fun a => !a.op.isMessage) = true := by decide
    intro a ha
    exact .of_not_message (by simpa using List.all_eq_true.mp hquiet a ha)
  have hscope := Code.keepsScope_of_jumpsInScope hcode hspeaks (by decide +kernel) .warmUp
    namesakesStart
  have hwalk : ((namesakesCode.walk 12 Code.jumpLimit namesakesCode.actions
      (namesakesCode.start .warmUp namesakesStart)).any fun p =>
        p.2.1.length == 6 && true) = true := by
    decide +kernel
  obtain ⟨n, d, hvisits, -⟩ := Code.Visits.of_walk hcode (fun _ => true) hwalk
  refine ⟨s', n, d, hgather, hcode, hscope, hvisits, ?_⟩
  exact (local_resolves_as_declared {} namesakes namesakes {} s' namesakesStart namesakesCode
    hgather hcode hspeaks .warmUp namesakesStart hscope (namesakes.take 9) (namesakes.drop 10)
    (.get {} "_x") rfl n d hvisits ⟨_, _⟩ List.mem_cons_self).1 "_x" rfl rfl

/-- A label that is jumped over, with a local name on both sides. -/
def skippedLabel : List Action :=
  [.load {} 0x1000, .set {} "@", .plain {} (.label "A" false), .load {} 1, .set {} "_x",
    .load {} 0, .plain {} (.jumpIfFalse 0), .plain {} (.label "B" false), .plain {} (.target 0),
    .load {} 2, .set {} "_x"]

/-- The engine that knows the symbols of `skippedLabel`. -/
def skippedLabelStart : Engine where
  vars := ⟨[("B$$_x", {}), ("A$$_x", {})]⟩
  labels := ⟨[("B", {}), ("A", {})]⟩

/-- The code of `skippedLabel`. -/
def skippedLabelCode : Code where
  actions := Code.strip skippedLabel
  targets := Code.targetTable (Code.targetMarks skippedLabel)
  counters := 0

/-- Behind a label that is jumped over, a local name stands for that of the
label before, though it is declared below the label that was skipped. -/
theorem skippedLabel_captured :
    ∃ s' n d, ({} : Assembler).gather skippedLabel {} = .ok (skippedLabel, skippedLabelStart) s' ∧
      Code.ofActions skippedLabel = .ok skippedLabelCode ∧
      skippedLabelCode.Visits .warmUp skippedLabelStart n [.set {} "_x"] d ∧
      qualify "_x" d.parent = .ok "A$$_x" ∧
      qualify "_x" (nearestParent (skippedLabel.take 10)) = .ok "B$$_x" := by
  obtain ⟨s', hgather⟩ : ∃ s', ({} : Assembler).gather skippedLabel {} =
      .ok (skippedLabel, skippedLabelStart) s' := ⟨_, rfl⟩
  have hcode : Code.ofActions skippedLabel = .ok skippedLabelCode := rfl
  have hwalk : ((skippedLabelCode.walk 8 Code.jumpLimit skippedLabelCode.actions
      (skippedLabelCode.start .warmUp skippedLabelStart)).any fun p =>
        p.2.1.length == 1 && p.2.2.parent == "A") = true := by
    decide +kernel
  obtain ⟨n, d, hvisits, hparent⟩ := Code.Visits.of_walk hcode (·.parent == "A") hwalk
  obtain hparent : d.parent = "A" := by simpa using hparent
  exact ⟨s', n, d, hgather, hcode, hvisits, by rw [hparent]; rfl, rfl⟩

end Mos6510
