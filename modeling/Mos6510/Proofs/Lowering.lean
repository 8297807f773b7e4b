import Mathlib.Data.List.Nodup
import Mos6510.Proofs.Folding
import Mos6510.Proofs.Targets

/-!
# Lowered control flow

`Structured.Lowers p ids acts ids'` says what actions a structured program is
lowered to, if the numbers `ids` are the next to be given out and `ids'` those
after it.

* `Structured.lowers`: issuing the lines of a program adds such actions, and
  leaves the open blocks as they were;
* `Structured.Lowers.targets`: the jump targets of the actions are numbered
  apart, from the first number to before the last;
* `resolves_of_ofActions`: so in the prepared code each number leads to what
  stands behind its target.
-/

namespace Mos6510

open Outcome

/-! ## The shape of lowered programs -/

mutual

/-- The actions of a program, between two states of the numbers given out. -/
inductive Structured.Lowers : Structured → Ids → List Action → Ids → Prop
  | skip {ids : Ids} : Structured.Lowers .skip ids [] ids
  | seq {p q : Structured} {i j k : Ids} {as bs : List Action} :
      p.Lowers i as j → q.Lowers j bs k → Structured.Lowers (.seq p q) i (as ++ bs) k
  | simple {loc : Location} {s : Simple} {ids : Ids} {acts : List Action} :
      Implements (s.actions loc) acts → Structured.Lowers (.simple loc s) ids acts ids
  | choice {loc : Location} {x : Expr} {body : Structured} {rest : Branches} {i j k : Ids}
      {test as bs : List Action} :
      Implements x.actions test → body.Lowers { i with jump := i.jump + 2 } as j →
      rest.Lowers i.jump (i.jump + 1) j bs k →
      Structured.Lowers (.choice loc x body rest) i
        (test ++ Action.plain loc (.jumpIfFalse ((i.jump + 1 : Nat) : Int)) :: (as ++ bs)) k
  | repetition {loc close : Location} {x : Expr} {body : Structured} {i j : Ids}
      {count as : List Action} :
      Implements x.actions count →
      body.Lowers { i with jump := i.jump + 2, counter := i.counter + 1 } as j →
      Structured.Lowers (.repetition loc x body close) i
        (count ++ Action.plain loc (.counterSet i.counter) ::
          Action.plain loc (.target i.jump) ::
          Action.plain loc (.counterTest i.counter ((i.jump + 1 : Nat) : Int)) ::
          (as ++ [Action.plain close (.counterStep i.counter i.jump),
            Action.plain close (.target ((i.jump + 1 : Nat) : Int))])) j
  | loop {loc close : Location} {x : Expr} {body : Structured} {i j : Ids}
      {test as : List Action} :
      Implements x.actions test → body.Lowers { i with jump := i.jump + 2 } as j →
      Structured.Lowers (.loop loc x body close) i
        (Action.plain loc (.target i.jump) ::
          (test ++ Action.plain loc (.jumpIfFalse ((i.jump + 1 : Nat) : Int)) ::
          (as ++ [Action.plain close (.jump i.jump),
            Action.plain close (.target ((i.jump + 1 : Nat) : Int))]))) j

/-- The actions of branches, by the number of where the condition ends and of
where these branches start. -/
inductive Branches.Lowers : Branches → Nat → Nat → Ids → List Action → Ids → Prop
  | close {loc : Location} {exit next : Nat} {ids : Ids} :
      Branches.Lowers (.close loc) exit next ids
        [Action.plain loc (.target next), Action.plain loc (.target exit)] ids
  | otherwise {loc close : Location} {body : Structured} {exit next : Nat} {i j : Ids}
      {as : List Action} :
      body.Lowers i as j →
      Branches.Lowers (.otherwise loc body close) exit next i
        (Action.plain loc (.jump exit) :: Action.plain loc (.target next) ::
          (as ++ [Action.plain close (.target exit)])) j
  | elseIf {loc : Location} {x : Expr} {body : Structured} {rest : Branches} {exit next : Nat}
      {i j k : Ids} {test as bs : List Action} :
      Implements x.actions test → body.Lowers { i with jump := i.jump + 1 } as j →
      rest.Lowers exit i.jump j bs k →
      Branches.Lowers (.elseIf loc x body rest) exit next i
        (Action.plain loc (.jump exit) :: Action.plain loc (.target next) ::
          (test ++ Action.plain loc (.jumpIfFalse i.jump) :: (as ++ bs))) k

end

/-! ## Issuing a program -/

namespace Builder

theorem issueAll_append (as bs : List Line) :
    issueAll (as ++ bs) = (issueAll as >>= fun _ => issueAll bs) := by
  induction as with
  | nil => rfl
  | cons l rest ih => rw [List.cons_append, issueAll, issueAll, ih, bind_assoc]

/-- Issuing went from one builder to another, with some actions added. -/
structure Added (b : Builder) (acts : List Action) (blocks : List Block) (b' : Builder) :
    Prop where
  actions : b'.actions.toList = b.actions.toList ++ acts
  blocks : b'.blocks = blocks

theorem Added.trans {b b₁ b' : Builder} {as bs : List Action} {blocks₁ blocks : List Block}
    (h : Added b as blocks₁ b₁) (h' : Added b₁ bs blocks b') : Added b (as ++ bs) blocks b' where
  actions := by rw [h'.actions, h.actions, List.append_assoc]
  blocks := h'.blocks

variable {loc : Location} {cond : List Action} {b b' : Builder} {u : Unit}

theorem openIf_eq_ok (h : openIf loc cond b = .ok u b') :
    ∃ test, foldAt loc cond = .ok test ∧
      Added b (test ++ [Action.plain loc (.jumpIfFalse ((b.ids.jump + 1 : Nat) : Int))])
        (.condition loc b.ids.jump (some (b.ids.jump + 1)) :: b.blocks) b' ∧
      b'.ids = { b.ids with jump := b.ids.jump + 2 } := by
  unfold openIf at h
  dsimp only at h
  split at h
  · cases h
  · rename_i test hfold
    cases h
    exact ⟨test, hfold, ⟨by simp [add], rfl⟩, rfl⟩

theorem elseIf_eq_ok {start : Location} {exit next : Nat} {outer : List Block}
    (hb : b.blocks = .condition start exit (some next) :: outer)
    (h : elseIf loc cond b = .ok u b') :
    ∃ test, foldAt loc cond = .ok test ∧
      Added b ([Action.plain loc (.jump exit), Action.plain loc (.target next)] ++ test ++
          [Action.plain loc (.jumpIfFalse b.ids.jump)])
        (.condition start exit (some b.ids.jump) :: outer) b' ∧
      b'.ids = { b.ids with jump := b.ids.jump + 1 } := by
  unfold elseIf at h
  simp only [hb] at h
  split at h
  · cases h
  · rename_i test hfold
    cases h
    exact ⟨test, hfold, ⟨by simp [add], rfl⟩, rfl⟩

theorem otherwise_eq_ok {start : Location} {exit next : Nat} {outer : List Block}
    (hb : b.blocks = .condition start exit (some next) :: outer)
    (h : otherwise loc b = .ok u b') :
    Added b [Action.plain loc (.jump exit), Action.plain loc (.target next)]
        (.condition start exit none :: outer) b' ∧ b'.ids = b.ids := by
  unfold otherwise at h
  simp only [hb] at h
  cases h
  exact ⟨⟨by simp [add], rfl⟩, rfl⟩

theorem closeIf_eq_ok {start : Location} {exit : Nat} {next : Option Nat} {outer : List Block}
    (hb : b.blocks = .condition start exit next :: outer) (h : closeIf loc b = .ok u b') :
    Added b ((next.elim [] fun next => [Action.plain loc (.target next)]) ++
        [Action.plain loc (.target exit)]) outer b' ∧ b'.ids = b.ids := by
  unfold closeIf at h
  simp only [hb] at h
  cases h
  cases next <;> exact ⟨⟨by simp [add], rfl⟩, rfl⟩

theorem openRepeat_eq_ok (h : openRepeat loc cond b = .ok u b') :
    ∃ count, foldAt loc cond = .ok count ∧
      Added b (count ++ [Action.plain loc (.counterSet b.ids.counter),
          Action.plain loc (.target b.ids.jump),
          Action.plain loc (.counterTest b.ids.counter ((b.ids.jump + 1 : Nat) : Int))])
        (.repetition loc b.ids.jump (b.ids.jump + 1) b.ids.counter :: b.blocks) b' ∧
      b'.ids = { b.ids with jump := b.ids.jump + 2, counter := b.ids.counter + 1 } := by
  unfold openRepeat at h
  dsimp only at h
  split at h
  · cases h
  · rename_i count hfold
    cases h
    exact ⟨count, hfold, ⟨by simp [add], rfl⟩, rfl⟩

theorem closeRepeat_eq_ok {start : Location} {first exit counter : Nat} {outer : List Block}
    (hb : b.blocks = .repetition start first exit counter :: outer)
    (h : closeRepeat loc b = .ok u b') :
    Added b [Action.plain loc (.counterStep counter first), Action.plain loc (.target exit)]
        outer b' ∧ b'.ids = b.ids := by
  unfold closeRepeat at h
  simp only [hb] at h
  cases h
  exact ⟨⟨by simp [add], rfl⟩, rfl⟩

theorem openWhile_eq_ok (h : openWhile loc cond b = .ok u b') :
    ∃ test, foldAt loc cond = .ok test ∧
      Added b (Action.plain loc (.target b.ids.jump) :: test ++
          [Action.plain loc (.jumpIfFalse ((b.ids.jump + 1 : Nat) : Int))])
        (.loop loc b.ids.jump (b.ids.jump + 1) :: b.blocks) b' ∧
      b'.ids = { b.ids with jump := b.ids.jump + 2 } := by
  unfold openWhile at h
  dsimp only at h
  split at h
  · cases h
  · rename_i test hfold
    cases h
    exact ⟨test, hfold, ⟨by simp [add], rfl⟩, rfl⟩

theorem closeWhile_eq_ok {start : Location} {first exit : Nat} {outer : List Block}
    (hb : b.blocks = .loop start first exit :: outer) (h : closeWhile loc b = .ok u b') :
    Added b [Action.plain loc (.jump first), Action.plain loc (.target exit)] outer b' ∧
      b'.ids = b.ids := by
  unfold closeWhile at h
  simp only [hb] at h
  cases h
  exact ⟨⟨by simp [add], rfl⟩, rfl⟩

theorem issueAll_cons_eq_ok {l : Line} {rest : List Line}
    (h : issueAll (l :: rest) b = .ok u b') :
    ∃ b₁, issue l.location l.statement b = .ok () b₁ ∧ issueAll rest b₁ = .ok u b' := by
  rw [issueAll] at h
  obtain ⟨_, b₁, hissue, hrest⟩ := bind_eq_ok.mp h
  exact ⟨b₁, hissue, hrest⟩

theorem issueAll_append_eq_ok {as bs : List Line} (h : issueAll (as ++ bs) b = .ok u b') :
    ∃ b₁, issueAll as b = .ok () b₁ ∧ issueAll bs b₁ = .ok u b' := by
  rw [issueAll_append] at h
  obtain ⟨_, b₁, has, hbs⟩ := bind_eq_ok.mp h
  exact ⟨b₁, has, hbs⟩

theorem issueAll_single_eq_ok {l : Line} (h : issueAll [l] b = .ok u b') :
    issue l.location l.statement b = .ok () b' := by
  obtain ⟨b₁, hissue, hrest⟩ := issueAll_cons_eq_ok h
  rw [issueAll] at hrest
  obtain ⟨-, rfl⟩ := pure_eq_ok.mp hrest
  exact hissue

end Builder

open Builder

mutual

/-- Issuing a program adds its actions and closes all blocks that it opens. -/
theorem Structured.lowers : ∀ (p : Structured) {b b' : Builder} {u : Unit},
    issueAll p.lines b = .ok u b' →
      ∃ acts, p.Lowers b.ids acts b'.ids ∧ b.Added acts b.blocks b'
  | .skip, b, b', u, h => by
      rw [Structured.lines, issueAll] at h
      obtain ⟨-, rfl⟩ := pure_eq_ok.mp h
      exact ⟨[], .skip, ⟨by simp, rfl⟩⟩
  | .seq p q, b, b', u, h => by
      rw [Structured.lines] at h
      obtain ⟨b₁, hp, hq⟩ := issueAll_append_eq_ok h
      obtain ⟨as, hlowers₁, hadded₁⟩ := p.lowers hp
      obtain ⟨bs, hlowers₂, hadded₂⟩ := q.lowers hq
      rw [hadded₁.blocks] at hadded₂
      exact ⟨as ++ bs, .seq hlowers₁ hlowers₂, hadded₁.trans hadded₂⟩
  | .simple loc s, b, b', u, h => by
      rw [Structured.lines] at h
      obtain ⟨acts, rfl, himplements⟩ := issue_simple (issueAll_single_eq_ok h)
      exact ⟨acts, .simple himplements, ⟨by simp [add], rfl⟩⟩
  -- a block is lowered inside what opens and closes it, which give its jumps
  | .choice loc x body rest, b, b', u, h => by
      rw [Structured.lines] at h
      obtain ⟨b₁, hopen, h₁⟩ := issueAll_cons_eq_ok h
      obtain ⟨b₂, hbody, hrest⟩ := issueAll_append_eq_ok h₁
      obtain ⟨test, hfold, hadded, hids⟩ := openIf_eq_ok hopen
      obtain ⟨as, hlowers₁, hadded₁⟩ := body.lowers hbody
      rw [hadded.blocks] at hadded₁
      obtain ⟨bs, hlowers₂, hadded₂⟩ := rest.lowers hadded₁.blocks hrest
      rw [hids] at hlowers₁
      refine ⟨_, .choice (fold_implements hfold) hlowers₁ hlowers₂, ?_⟩
      simpa using (hadded.trans hadded₁).trans hadded₂
  | .repetition loc x body close, b, b', u, h => by
      rw [Structured.lines] at h
      obtain ⟨b₁, hopen, h₁⟩ := issueAll_cons_eq_ok h
      obtain ⟨b₂, hbody, hclose⟩ := issueAll_append_eq_ok h₁
      obtain ⟨count, hfold, hadded, hids⟩ := openRepeat_eq_ok hopen
      obtain ⟨as, hlowers, hadded₁⟩ := body.lowers hbody
      rw [hadded.blocks] at hadded₁
      obtain ⟨hadded₂, hids₂⟩ := closeRepeat_eq_ok hadded₁.blocks (issueAll_single_eq_ok hclose)
      rw [hids, ← hids₂] at hlowers
      refine ⟨_, .repetition (fold_implements hfold) hlowers, ?_⟩
      simpa using (hadded.trans hadded₁).trans hadded₂
  | .loop loc x body close, b, b', u, h => by
      rw [Structured.lines] at h
      obtain ⟨b₁, hopen, h₁⟩ := issueAll_cons_eq_ok h
      obtain ⟨b₂, hbody, hclose⟩ := issueAll_append_eq_ok h₁
      obtain ⟨test, hfold, hadded, hids⟩ := openWhile_eq_ok hopen
      obtain ⟨as, hlowers, hadded₁⟩ := body.lowers hbody
      rw [hadded.blocks] at hadded₁
      obtain ⟨hadded₂, hids₂⟩ := closeWhile_eq_ok hadded₁.blocks (issueAll_single_eq_ok hclose)
      rw [hids, ← hids₂] at hlowers
      refine ⟨_, .loop (fold_implements hfold) hlowers, ?_⟩
      simpa using (hadded.trans hadded₁).trans hadded₂

/-- Issuing branches adds their actions and closes the condition. -/
theorem Branches.lowers : ∀ (r : Branches) {b b' : Builder} {u : Unit} {start : Location}
    {exit next : Nat} {outer : List Block},
    b.blocks = .condition start exit (some next) :: outer → issueAll r.lines b = .ok u b' →
      ∃ acts, r.Lowers exit next b.ids acts b'.ids ∧ b.Added acts outer b'
  | .close loc, b, b', u, start, exit, next, outer, hb, h => by
      rw [Branches.lines] at h
      obtain ⟨hadded, hids⟩ := closeIf_eq_ok hb (issueAll_single_eq_ok h)
      rw [hids]
      exact ⟨_, .close, hadded⟩
  | .otherwise loc body close, b, b', u, start, exit, next, outer, hb, h => by
      rw [Branches.lines] at h
      obtain ⟨b₁, hopen, h₁⟩ := issueAll_cons_eq_ok h
      obtain ⟨b₂, hbody, hclose⟩ := issueAll_append_eq_ok h₁
      obtain ⟨hadded, hids⟩ := otherwise_eq_ok hb hopen
      obtain ⟨as, hlowers, hadded₁⟩ := body.lowers hbody
      rw [hadded.blocks] at hadded₁
      obtain ⟨hadded₂, hids₂⟩ := closeIf_eq_ok hadded₁.blocks (issueAll_single_eq_ok hclose)
      rw [hids, ← hids₂] at hlowers
      refine ⟨_, .otherwise hlowers, ?_⟩
      simpa using (hadded.trans hadded₁).trans hadded₂
  | .elseIf loc x body rest, b, b', u, start, exit, next, outer, hb, h => by
      rw [Branches.lines] at h
      obtain ⟨b₁, hopen, h₁⟩ := issueAll_cons_eq_ok h
      obtain ⟨b₂, hbody, hrest⟩ := issueAll_append_eq_ok h₁
      obtain ⟨test, hfold, hadded, hids⟩ := elseIf_eq_ok hb hopen
      obtain ⟨as, hlowers₁, hadded₁⟩ := body.lowers hbody
      rw [hadded.blocks] at hadded₁
      obtain ⟨bs, hlowers₂, hadded₂⟩ := rest.lowers hadded₁.blocks hrest
      rw [hids] at hlowers₁
      refine ⟨_, .elseIf (fold_implements hfold) hlowers₁ hlowers₂, ?_⟩
      simpa using (hadded.trans hadded₁).trans hadded₂

end

/-! ## Jump targets -/

/-- The number of a jump target. -/
def Action.targetId? (a : Action) : Option Int :=
  match a.op with
  | .target j => some j
  | _ => none

/-- The numbers of the jump targets, in order. -/
def targetIds (acts : List Action) : List Int := acts.filterMap Action.targetId?

namespace Code

theorem map_fst_targetMarks (acts : List Action) :
    (targetMarks acts).map Prod.fst = targetIds acts := by
  induction acts with
  | nil => rfl
  | cons a rest ih =>
      obtain ⟨loc, op, x⟩ := a
      cases op with
      | target j => rw [targetMarks_target, List.map_cons, ih]; rfl
      | _ => rw [targetMarks_cons rfl, ih]; rfl

end Code

theorem Straight.targetIds {acts : List Action} (h : Straight acts) : targetIds acts = [] := by
  refine List.filterMap_eq_nil_iff.mpr fun a ha => ?_
  obtain ⟨hstraight, -⟩ := h a ha
  obtain ⟨loc, op, x⟩ := a
  cases op with
  | target => cases hstraight
  | _ => rfl

theorem targetIds_append (as bs : List Action) :
    targetIds (as ++ bs) = targetIds as ++ targetIds bs :=
  List.filterMap_append

mutual

/-- The targets of a program have numbers of their own. -/
theorem Structured.Lowers.targets : ∀ {p : Structured} {i j : Ids} {acts : List Action},
    p.Lowers i acts j → i.jump ≤ j.jump ∧ (targetIds acts).Nodup ∧
      ∀ t ∈ targetIds acts, (i.jump : Int) ≤ t ∧ t < j.jump
  | .skip, _, _, _, h => by
      cases h
      simp [targetIds]
  | .seq p q, _, _, _, h => by
      cases h with
      | seq hp hq =>
          have hfirst := hp.targets
          have hsecond := hq.targets
          rw [targetIds_append]
          grind [List.nodup_append]
  | .simple loc s, _, _, _, h => by
      cases h with
      | simple himplements => simp [himplements.straightLowered.targetIds]
  | .choice loc x body rest, i, _, _, h => by
      cases h with
      | choice htest hbody hrest =>
          have hfirst := hbody.targets
          dsimp only at hfirst
          -- the body has numbers from after the two of the condition on, the branches after those
          have hsecond := hrest.targets (by omega) (by omega) (by omega)
          rw [targetIds_append, htest.straightLowered.targetIds, List.nil_append]
          show _ ∧ (targetIds (_ ++ _)).Nodup ∧ ∀ t ∈ targetIds (_ ++ _), _
          rw [targetIds_append]
          grind [List.nodup_append]
  | .repetition loc x body close, i, _, _, h => by
      cases h with
      | repetition hcount hbody =>
          have hfirst := hbody.targets
          rw [targetIds_append, hcount.straightLowered.targetIds, List.nil_append]
          show _ ∧ (_ :: targetIds (_ ++ _)).Nodup ∧ ∀ t ∈ _ :: targetIds (_ ++ _), _
          rw [targetIds_append]
          show _ ∧ (_ :: (_ ++ [_])).Nodup ∧ ∀ t ∈ _ :: (_ ++ [_]), _
          grind [List.nodup_cons, List.nodup_append]
  | .loop loc x body close, i, _, _, h => by
      cases h with
      | loop htest hbody =>
          have hfirst := hbody.targets
          show _ ∧ (_ :: targetIds (_ ++ _)).Nodup ∧ ∀ t ∈ _ :: targetIds (_ ++ _), _
          rw [targetIds_append, htest.straightLowered.targetIds, List.nil_append]
          show _ ∧ (_ :: targetIds (_ ++ _)).Nodup ∧ ∀ t ∈ _ :: targetIds (_ ++ _), _
          rw [targetIds_append]
          show _ ∧ (_ :: (_ ++ [_])).Nodup ∧ ∀ t ∈ _ :: (_ ++ [_]), _
          grind [List.nodup_cons, List.nodup_append]

theorem Branches.Lowers.targets : ∀ {r : Branches} {exit next : Nat} {i j : Ids}
    {acts : List Action}, r.Lowers exit next i acts j → exit ≠ next → exit < i.jump →
    next < i.jump → i.jump ≤ j.jump ∧ (targetIds acts).Nodup ∧
      ∀ t ∈ targetIds acts, t = exit ∨ t = next ∨ ((i.jump : Int) ≤ t ∧ t < j.jump)
  | .close loc, _, _, _, _, _, h, hne, hexit, hnext => by
      cases h
      show _ ∧ [_, _].Nodup ∧ ∀ t ∈ [_, _], _
      grind [List.nodup_cons]
  | .otherwise loc body close, _, _, _, _, _, h, hne, hexit, hnext => by
      cases h with
      | otherwise hbody =>
          have hfirst := hbody.targets
          show _ ∧ (_ :: targetIds (_ ++ _)).Nodup ∧ ∀ t ∈ _ :: targetIds (_ ++ _), _
          rw [targetIds_append]
          show _ ∧ (_ :: (_ ++ [_])).Nodup ∧ ∀ t ∈ _ :: (_ ++ [_]), _
          grind [List.nodup_cons, List.nodup_append]
  | .elseIf loc x body rest, _, _, i, _, _, h, hne, hexit, hnext => by
      cases h with
      | elseIf htest hbody hrest =>
          have hfirst := hbody.targets
          dsimp only at hfirst
          have hsecond := hrest.targets (by omega) (by omega) (by omega)
          show _ ∧ (_ :: targetIds (_ ++ _)).Nodup ∧ ∀ t ∈ _ :: targetIds (_ ++ _), _
          rw [targetIds_append, htest.straightLowered.targetIds, List.nil_append]
          show _ ∧ (_ :: targetIds (_ ++ _)).Nodup ∧ ∀ t ∈ _ :: targetIds (_ ++ _), _
          rw [targetIds_append]
          grind [List.nodup_cons, List.nodup_append]

end

/-! ## Prepared code -/

/-- The jump targets of actions lead to what stands behind them, with more to
follow. -/
def Resolves (code : Code) (acts k : List Action) : Prop :=
  ∀ m ∈ Code.targetMarks acts, code.target? m.1 = some (m.2 ++ k)

namespace Resolves

variable {code : Code} {acts as bs k : List Action}

theorem append_iff :
    Resolves code (as ++ bs) k ↔
      Resolves code as (Code.strip bs ++ k) ∧ Resolves code bs k := by
  unfold Resolves
  rw [Code.targetMarks_append, List.forall_mem_append, List.forall_mem_map]
  simp only [List.append_assoc]

theorem cons_iff {a : Action} (h : Code.isTarget a = false) :
    Resolves code (a :: acts) k ↔ Resolves code acts k := by
  unfold Resolves
  rw [Code.targetMarks_cons h]

theorem target_iff {loc : Location} {j : Int} :
    Resolves code (Action.plain loc (.target j) :: acts) k ↔
      code.target? j = some (Code.strip acts ++ k) ∧ Resolves code acts k := by
  show (∀ m ∈ (j, Code.strip acts) :: Code.targetMarks acts, _) ↔ _
  exact List.forall_mem_cons

end Resolves

theorem Straight.strip {acts : List Action} (h : Straight acts) : Code.strip acts = acts := by
  induction acts with
  | nil => rfl
  | cons a rest ih =>
      obtain ⟨⟨hstraight, -⟩, hrest⟩ := List.forall_mem_cons.mp h
      have htarget : Code.isTarget a = false := by
        obtain ⟨loc, op, x⟩ := a
        cases op with
        | target => cases hstraight
        | _ => rfl
      rw [Code.strip_cons htarget, ih hrest]

theorem Straight.strip_append {acts : List Action} (h : Straight acts) (rest : List Action) :
    Code.strip (acts ++ rest) = acts ++ Code.strip rest := by
  rw [Code.strip_append, h.strip]

theorem strip_plain_target (loc : Location) (j : Int) (rest : List Action) :
    Code.strip (Action.plain loc (.target j) :: rest) = Code.strip rest := rfl

/-- Where all numbers are apart, every target is found. -/
theorem resolves_of_ofActions {acts : List Action} {code : Code}
    (h : Code.ofActions acts = .ok code) (hapart : (targetIds acts).Nodup)
    (hpos : ∀ t ∈ targetIds acts, 0 ≤ t) : Resolves code acts [] := by
  have hids := Code.map_fst_targetMarks acts
  have hmem : ∀ m ∈ Code.targetMarks acts, m.1 ∈ targetIds acts := by
    intro m hm
    rw [← hids]
    exact List.mem_map_of_mem hm
  intro m hm
  rw [List.append_nil]
  -- the table is indexed by naturals, so equal entries need the numbers not negative
  refine Code.target?_of_mem_marks h (hpos _ (hmem m hm)) hm fun m' hm' heq => ?_
  have hsame : m'.1 = m.1 := by
    have := hpos _ (hmem m hm)
    have := hpos _ (hmem m' hm')
    omega
  rw [← hids] at hapart
  exact congrArg Prod.snd (List.inj_on_of_nodup_map hapart hm' hm hsame)

/-- Is the action executed, or a jump target? -/
def Action.isCode (a : Action) : Prop := a.op.isMeta = true → Code.isTarget a = true

theorem Straight.isCode {acts : List Action} (h : Straight acts) : ∀ a ∈ acts, a.isCode := by
  intro a ha hmeta
  obtain ⟨hstraight, -⟩ := h a ha
  obtain ⟨loc, op, x⟩ := a
  cases op <;> simp [Op.isStraight] at hstraight <;> cases hmeta

theorem isCode_plain {loc : Location} {op : Op} (h : op.isMeta = false) :
    (Action.plain loc op).isCode := by
  intro hmeta
  rw [show (Action.plain loc op).op = op from rfl, h] at hmeta
  cases hmeta

theorem isCode_target {loc : Location} {j : Int} : (Action.plain loc (.target j)).isCode :=
  fun _ => rfl

mutual

/-- A program is lowered to code, and counters are given out in order. -/
theorem Structured.Lowers.code : ∀ {p : Structured} {i j : Ids} {acts : List Action},
    p.Lowers i acts j → i.counter ≤ j.counter ∧ ∀ a ∈ acts, a.isCode
  | .skip, _, _, _, h => by
      cases h
      simp
  | .seq p q, _, _, _, h => by
      cases h with
      | seq hp hq =>
          obtain ⟨hle, hcode⟩ := hp.code
          obtain ⟨hle', hcode'⟩ := hq.code
          exact ⟨by omega, List.forall_mem_append.mpr ⟨hcode, hcode'⟩⟩
  | .simple loc s, _, _, _, h => by
      cases h with
      | simple himplements => exact ⟨Nat.le_refl _, himplements.straightLowered.isCode⟩
  | .choice loc x body rest, _, _, _, h => by
      cases h with
      | choice htest hbody hrest =>
          obtain ⟨hle, hcode⟩ := hbody.code
          obtain ⟨hle', hcode'⟩ := hrest.code
          refine ⟨Nat.le_trans hle hle', ?_⟩
          simp only [List.forall_mem_append, List.forall_mem_cons]
          exact ⟨htest.straightLowered.isCode, isCode_plain rfl, hcode, hcode'⟩
  | .repetition loc x body close, i, j, _, h => by
      cases h with
      | repetition hcount hbody =>
          obtain ⟨hle, hcode⟩ := hbody.code
          refine ⟨Nat.le_of_succ_le hle, ?_⟩
          simp only [List.forall_mem_append, List.forall_mem_cons]
          exact ⟨hcount.straightLowered.isCode, isCode_plain rfl, isCode_target,
            isCode_plain rfl, hcode, isCode_plain rfl, isCode_target, by simp⟩
  | .loop loc x body close, _, _, _, h => by
      cases h with
      | loop htest hbody =>
          obtain ⟨hle, hcode⟩ := hbody.code
          refine ⟨hle, ?_⟩
          simp only [List.forall_mem_append, List.forall_mem_cons]
          exact ⟨isCode_target, htest.straightLowered.isCode, isCode_plain rfl, hcode,
            isCode_plain rfl, isCode_target, by simp⟩

theorem Branches.Lowers.code : ∀ {r : Branches} {exit next : Nat} {i j : Ids}
    {acts : List Action}, r.Lowers exit next i acts j →
      i.counter ≤ j.counter ∧ ∀ a ∈ acts, a.isCode
  | .close loc, _, _, _, _, _, h => by
      cases h
      simp only [List.forall_mem_cons]
      exact ⟨Nat.le_refl _, isCode_target, isCode_target, by simp⟩
  | .otherwise loc body close, _, _, _, _, _, h => by
      cases h with
      | otherwise hbody =>
          obtain ⟨hle, hcode⟩ := hbody.code
          refine ⟨hle, ?_⟩
          simp only [List.forall_mem_append, List.forall_mem_cons]
          exact ⟨isCode_plain rfl, isCode_target, hcode, isCode_target, by simp⟩
  | .elseIf loc x body rest, _, _, _, _, _, h => by
      cases h with
      | elseIf htest hbody hrest =>
          obtain ⟨hle, hcode⟩ := hbody.code
          obtain ⟨hle', hcode'⟩ := hrest.code
          refine ⟨Nat.le_trans hle hle', ?_⟩
          simp only [List.forall_mem_append, List.forall_mem_cons]
          exact ⟨isCode_plain rfl, isCode_target, htest.straightLowered.isCode,
            isCode_plain rfl, hcode, hcode'⟩

end

/-- Lowered programs can be prepared for execution. -/
theorem ofActions_of_isCode {acts : List Action} (h : ∀ a ∈ acts, a.isCode) :
    ∃ code, Code.ofActions acts = .ok code := by
  unfold Code.ofActions
  have hnone : acts.find? (fun a => a.op.isMeta && !Code.isTarget a) = none := by
    refine List.find?_eq_none.mpr fun a ha => ?_
    have hcode := h a ha
    cases hmeta : a.op.isMeta with
    | false => simp
    | true => simp [hcode hmeta]
  rw [hnone]
  exact ⟨_, rfl⟩

end Mos6510
