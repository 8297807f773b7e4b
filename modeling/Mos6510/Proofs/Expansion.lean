import Mathlib.Data.List.Pairwise
import Mos6510.Proofs.Clauses

/-!
# What the stages make of a program

Once all files are included, a program goes through two more stages before it
is executed.

* `Expanded`: macro definitions are dropped and calls expanded, each with the
  next sequence number and fresh numbers for its jumps and counters;
  `expandMacros_eq_ok` says that this is all that the stage does;
* `Gather.settle`: `.LABEL` and `.GOTO` become jump targets and jumps;
  `declareAll_eq_settle` says that this is all that gathering does to actions;
* `Assembler.sequence`: all stages up to the code, one after the other.
-/

namespace Mos6510

open Outcome

/-! ## Calls -/

/-- A macro call: the definition and the arguments, and the numbers that it
got. -/
structure Call where
  definition : WrittenMacro
  location : Location
  args : List (List Action)
  seq : Nat
  /-- The numbers that were next to be given out. -/
  ids : Ids

namespace Call

def mark (k : Call) : Expansion := ⟨k.definition.name, k.location, k.seq⟩

/-- What the call replaces names and numbers by. -/
def renames (k : Call) : Renaming := k.definition.callRenaming k.seq k.ids

/-- The synthetic label of the call. -/
def opening (k : Call) : Action :=
  ⟨k.location, .label (anchorName k.definition.name k.seq) true, some k.mark⟩

/-- The body as the call sees it. -/
def body (k : Call) : List Action := k.definition.body.map (k.renames.action k.mark)

/-- What the call is replaced by. -/
def actions (k : Call) : List Action :=
  k.opening :: (k.definition.bindings k.renames k.location k.args ++ k.body)

def assignments (k : Call) : List Action :=
  k.definition.params.map fun p => Action.set k.location (k.renames.symbol p)

/-- What belongs to the call: all but the arguments, which are the caller's. -/
def own (k : Call) : List Action := k.opening :: (k.assignments ++ k.body)

/-- The symbols that belong to the call. -/
def names (k : Call) : List String := k.definition.freshNames k.seq k.ids

/-- The call is made with the right number of arguments. -/
def Complete (k : Call) : Prop := k.args.length = k.definition.params.length

/-- What a call is replaced by belongs to it, or to an argument. -/
theorem mem_actions {k : Call} {a : Action} (h : a ∈ k.actions) :
    a ∈ k.own ∨ ∃ arg ∈ k.args, a ∈ arg := by
  -- the opening, then the bindings of the arguments, then the body
  rcases List.mem_cons.mp h with rfl | h
  · exact .inl List.mem_cons_self
  rcases List.mem_append.mp h with h | h
  · obtain ⟨⟨p, arg⟩, hb, h⟩ := List.mem_flatMap.mp h
    obtain ⟨hp, harg⟩ := List.of_mem_zip hb
    rcases List.mem_append.mp h with h | h
    · exact .inr ⟨arg, harg, h⟩
    · obtain rfl := List.mem_singleton.mp h
      exact .inl (List.mem_cons_of_mem _ (List.mem_append_left _ (List.mem_map_of_mem hp)))
  · exact .inl (List.mem_cons_of_mem _ (List.mem_append_right _ h))

end Call

/-! ## Macros -/

/-- The macros that actions define. -/
def writtenMacros (acts : List Action) : List WrittenMacro :=
  acts.filterMap fun a => match a.op with
    | .defineMacro name params body => some ⟨a.location, name, params, body⟩
    | _ => none

theorem mem_writtenMacros {acts : List Action} {w : WrittenMacro} :
    w ∈ writtenMacros acts ↔
      ∃ x, (⟨w.location, .defineMacro w.name w.params w.body, x⟩ : Action) ∈ acts := by
  unfold writtenMacros
  rw [List.mem_filterMap]
  constructor
  · rintro ⟨⟨loc, op, x⟩, ha, h⟩
    cases op <;> cases h
    exact ⟨x, ha⟩
  · rintro ⟨x, ha⟩
    exact ⟨_, ha, rfl⟩

/-- The macros of source text are such as calls rely on. -/
theorem sound_of_resolved {acts : List Action} (h : WrittenClauses Op.Resolved acts) :
    ∀ w ∈ writtenMacros acts, w.Sound := by
  intro w hw
  obtain ⟨x, hw⟩ := mem_writtenMacros.mp hw
  rcases h.mem hw with ⟨e, he, ha⟩ | ⟨-, hop⟩
  · cases he.isExpr.computes _ ha
  · obtain h | h | ⟨_, _, h⟩ := hop
    · cases h
    · cases h with
      | define hname hparams hbody hlinked =>
          refine ⟨hlinked, hbody.isOutermost, ?_⟩
          refine List.forall_mem_append.mpr ⟨List.forall_mem_append.mpr ⟨?_, hbody.symbolNames⟩,
            hbody.metaLabelNames⟩
          exact List.forall_mem_cons.mpr ⟨hname, hparams⟩
    · cases h

/-- Definitions dropped and calls expanded, while the numbers given out go
from one state to another. -/
inductive Expanded (macros : List WrittenMacro) :
    Ids → List Action → List Call → List Action → Ids → Prop
  | nil {i : Ids} : Expanded macros i [] [] [] i
  | keep {i j : Ids} {a : Action} {acts : List Action} {calls : List Call} {out : List Action} :
      a.op.kind ≠ .defineMacro → a.op.kind ≠ .callMacro → Expanded macros i acts calls out j →
        Expanded macros i (a :: acts) calls (a :: out) j
  | define {i j : Ids} {a : Action} {acts : List Action} {calls : List Call} {out : List Action} :
      a.op.kind = .defineMacro → Expanded macros i acts calls out j →
        Expanded macros i (a :: acts) calls out j
  | call {i j : Ids} {a : Action} {acts : List Action} {k : Call} {calls : List Call}
      {out : List Action} :
      a.op = .callMacro k.definition.name k.args → a.location = k.location →
        k.definition ∈ macros → k.Complete → k.seq = i.seq + 1 →
          k.ids = { i with seq := i.seq + 1 } →
            Expanded macros (k.definition.idsAfter k.ids) acts calls out j →
              Expanded macros i (a :: acts) (k :: calls) (k.actions ++ out) j

namespace Expanded

variable {macros : List WrittenMacro} {i j : Ids} {acts out : List Action} {calls : List Call}

/-- Each action stood there before, or is part of a call. -/
theorem mem (h : Expanded macros i acts calls out j) {a : Action} (ha : a ∈ out) :
    (a ∈ acts ∧ a.op.kind ≠ .defineMacro ∧ a.op.kind ≠ .callMacro) ∨
      ∃ k ∈ calls, a ∈ k.actions := by
  induction h with
  | nil => cases ha
  | @keep _ _ b acts calls out hdefine hcall _ ih =>
      rcases List.mem_cons.mp ha with rfl | ha
      · exact .inl ⟨List.mem_cons_self, hdefine, hcall⟩
      · exact (ih ha).imp_left fun h => ⟨List.mem_cons_of_mem _ h.1, h.2⟩
  | define _ _ ih => exact (ih ha).imp_left fun h => ⟨List.mem_cons_of_mem _ h.1, h.2⟩
  | @call _ _ b acts k calls out _ _ _ _ _ _ _ ih =>
      rcases List.mem_append.mp ha with ha | ha
      · exact .inr ⟨k, List.mem_cons_self, ha⟩
      · refine (ih ha).imp (fun h => ⟨List.mem_cons_of_mem _ h.1, h.2⟩) ?_
        rintro ⟨k', hk', ha⟩
        exact ⟨k', List.mem_cons_of_mem _ hk', ha⟩

/-- Each call stands in the program, and calls a macro that is defined. -/
theorem of_mem_calls (h : Expanded macros i acts calls out j) {k : Call} (hk : k ∈ calls) :
    k.definition ∈ macros ∧
      ∃ a ∈ acts, a.op = .callMacro k.definition.name k.args ∧ a.location = k.location := by
  induction h with
  | nil => cases hk
  | keep _ _ _ ih | define _ _ ih =>
      obtain ⟨hmem, a, ha, hop⟩ := ih hk
      exact ⟨hmem, a, List.mem_cons_of_mem _ ha, hop⟩
  | @call _ _ b acts k' calls out hop hloc hmem _ _ _ _ ih =>
      rcases List.mem_cons.mp hk with rfl | hk
      · exact ⟨hmem, b, List.mem_cons_self, hop, hloc⟩
      · obtain ⟨hmem, a, ha, hop⟩ := ih hk
        exact ⟨hmem, a, List.mem_cons_of_mem _ ha, hop⟩

/-- The sequence numbers of calls go up. -/
theorem seq_between (h : Expanded macros i acts calls out j) :
    (∀ k ∈ calls, i.seq < k.seq) ∧ calls.Pairwise fun k l => k.seq < l.seq := by
  induction h with
  | nil => exact ⟨fun _ h => absurd h List.not_mem_nil, .nil⟩
  | keep _ _ _ ih | define _ _ ih => exact ih
  | @call i j a acts k calls out _ _ _ _ hseq hids _ ih =>
      obtain ⟨hlater, hsorted⟩ := ih
      -- a body draws jumps and counters, never a call number
      have hafter : (k.definition.idsAfter k.ids).seq = k.seq := by
        rw [hseq, WrittenMacro.idsAfter, hids]
      refine ⟨List.forall_mem_cons.mpr ⟨by omega, fun l hl => ?_⟩, .cons (fun l hl => ?_) hsorted⟩
      · have := hlater l hl
        omega
      · have := hlater l hl
        omega

end Expanded

theorem MacroDef.length_of_instantiate {m : MacroDef} {loc : Location} {args : List (List Action)}
    {seq : Nat} {acts : List Action} {ids ids' : Ids}
    (h : m.instantiate loc args seq ids = .ok acts ids') : args.length = m.params.length := by
  unfold instantiate at h
  split at h
  · cases h
  · rename_i hcount
    simpa using hcount

namespace Assembler

/-- The macros that are known are those that are defined. -/
theorem collectMacros_define {acts : List Action} {known found : List (String × MacroDef)}
    {macros : List WrittenMacro} (hin : ∀ w ∈ writtenMacros acts, w ∈ macros)
    (hknown : ∀ p ∈ known, ∃ w ∈ macros, p = (w.name, w.define))
    (h : collectMacros acts known = .ok found) : ∀ p ∈ found, ∃ w ∈ macros, p = (w.name, w.define) := by
  induction acts generalizing known with
  | nil =>
      cases h
      exact hknown
  | cons a rest ih =>
      have hrest : ∀ w ∈ writtenMacros rest, w ∈ macros := by
        intro w hw
        obtain ⟨x, hw⟩ := mem_writtenMacros.mp hw
        exact hin w (mem_writtenMacros.mpr ⟨x, List.mem_cons_of_mem _ hw⟩)
      -- the accumulator holds definitions of macros written so far
      unfold collectMacros at h
      split at h
      · rename_i name params body hop
        split at h
        · cases h
        · refine ih hrest (List.forall_mem_cons.mpr ⟨?_, hknown⟩) h
          obtain ⟨loc, op, x⟩ := a
          cases hop
          exact ⟨⟨loc, name, params, body⟩,
            hin _ (mem_writtenMacros.mpr ⟨x, List.mem_cons_self⟩), rfl⟩
      · exact ih hrest hknown h

/-- What an action is replaced by where macros are expanded. -/
theorem replaceCall_eq_ok {asm : Assembler} {known : List (String × MacroDef)}
    {macros : List WrittenMacro} (hknown : ∀ p ∈ known, ∃ w ∈ macros, p = (w.name, w.define))
    (hsound : ∀ w ∈ macros, w.Sound) {a : Action} {bs : List Action} {s s' : Session}
    (h : asm.replaceCall known a s = .ok bs s') :
    (a.op.kind ≠ .defineMacro ∧ a.op.kind ≠ .callMacro ∧ bs = [a] ∧ s' = s) ∨
      (a.op.kind = .defineMacro ∧ bs = [] ∧ s' = s) ∨
      ∃ k : Call, a.op = .callMacro k.definition.name k.args ∧ a.location = k.location ∧
        k.definition ∈ macros ∧ k.Complete ∧ k.seq = s.ids.seq + 1 ∧
        k.ids = { s.ids with seq := s.ids.seq + 1 } ∧ bs = k.actions ∧
        s'.ids = k.definition.idsAfter k.ids := by
  obtain ⟨loc, op, x⟩ := a
  cases op with
  | defineMacro name params body =>
      obtain ⟨rfl, rfl⟩ := pure_eq_ok.mp h
      exact .inr (.inl ⟨rfl, rfl, rfl⟩)
  | callMacro name args =>
      simp only [replaceCall] at h
      cases hlookup : known.lookup name with
      | none =>
          simp only [hlookup] at h
          exact absurd h throw_ne_ok
      | some m =>
          simp only [hlookup] at h
          obtain ⟨seq, s₁, hseq, h⟩ := bind_eq_ok.mp h
          obtain ⟨acts, s₂, hacts, h⟩ := bind_eq_ok.mp h
          obtain ⟨_, s₃, hnote, h⟩ := bind_eq_ok.mp h
          obtain ⟨rfl, rfl⟩ := pure_eq_ok.mp h
          cases hseq
          cases hnote
          obtain ⟨before, after, heq, -⟩ := List.lookup_eq_some_iff.mp hlookup
          obtain ⟨w, hw, hpair⟩ := hknown (name, m) (heq ▸ List.mem_append_cons_self)
          obtain ⟨rfl, rfl⟩ := Prod.mk.inj hpair
          let k : Call := ⟨w, loc, args, s.ids.seq + 1, { s.ids with seq := s.ids.seq + 1 }⟩
          unfold withIds at hacts
          split at hacts
          · rename_i acts ids hinstantiate
            cases hacts
            have hcount : k.Complete := by
              have hcount := MacroDef.length_of_instantiate hinstantiate
              rwa [show w.define.params = w.params.map MacroDef.hide from rfl, List.length_map]
                at hcount
            -- the call is complete, so what is instantiated is the body under its renaming
            have heq := WrittenMacro.instantiate_eq (hsound w hw) loc hcount k.seq k.ids
            obtain ⟨rfl, rfl⟩ := ok_eq_ok.mp (hinstantiate.symm.trans heq)
            exact .inr (.inr ⟨k, rfl, rfl, hw, hcount, rfl, rfl, rfl, rfl⟩)
          · cases hacts
  | _ =>
      obtain ⟨rfl, rfl⟩ := pure_eq_ok.mp h
      exact .inl ⟨nofun, nofun, rfl, rfl⟩

/-- Where the stage succeeds, it does what `Expanded` says. -/
theorem expandMacros_eq_ok {asm : Assembler} {acts out : List Action} {s s' : Session}
    (hsound : ∀ w ∈ writtenMacros acts, w.Sound) (h : asm.expandMacros acts s = .ok out s') :
    ∃ calls, Expanded (writtenMacros acts) s.ids acts calls out s'.ids := by
  unfold expandMacros at h
  cases hcollect : collectMacros acts [] with
  | error err =>
    simp only [hcollect] at h
    exact absurd h throw_ne_ok
  | ok known =>
    simp only [hcollect] at h
    have hknown := collectMacros_define (fun _ hw => hw) (fun _ h => absurd h List.not_mem_nil) hcollect
    -- the calls of a tail still name macros of the whole text, so the list is held fixed
    generalize writtenMacros acts = macros at hsound hknown ⊢
    clear hcollect
    induction acts generalizing out s with
    | nil =>
        obtain ⟨rfl, rfl⟩ := pure_eq_ok.mp h
        exact ⟨[], .nil⟩
    | cons a rest ih =>
        obtain ⟨bs, out', s₁, hbs, hrest, rfl⟩ := replaceEach_cons_eq_ok h
        obtain ⟨calls, hcalls⟩ := ih hrest
        rcases replaceCall_eq_ok hknown hsound hbs with ⟨hdefine, hcall, rfl, rfl⟩ |
          ⟨hdefine, rfl, rfl⟩ | ⟨k, hop, hloc, hmem, hcount, hseq, hids, rfl, hafter⟩
        · exact ⟨calls, .keep hdefine hcall hcalls⟩
        · exact ⟨calls, .define hdefine hcalls⟩
        · rw [hafter] at hcalls
          exact ⟨k :: calls, .call hop hloc hmem hcount hseq hids hcalls⟩

end Assembler

/-! ## Symbols -/

namespace Gather

/-- An action once `.LABEL`s have jump numbers. -/
def settle (labels : List (String × Nat)) (a : Action) : Action :=
  match a.op with
  | .metaLabel name => Action.plain a.location (.target ((labels.lookup name).getD 0))
  | .goto name => ⟨a.location, .jump ((labels.lookup name).getD 0), a.expansion⟩
  | _ => a

/-- `.LABEL` and `.GOTO` are all that gathering changes, and each `.GOTO` finds
its `.LABEL`. -/
theorem declareAll_eq_settle {labels : List (String × Nat)} {parent : String}
    {acts r : List Action} {e e' : Engine} (h : declareAll labels parent acts e = .ok r e') :
    r = acts.map (settle labels) ∧
      ∀ a ∈ acts, ∀ name, a.op = .goto name → (labels.lookup name).isSome = true := by
  induction acts generalizing parent r e with
  | nil =>
      obtain ⟨rfl, -⟩ := pure_eq_ok.mp h
      exact ⟨rfl, fun _ h => absurd h List.not_mem_nil⟩
  | cons a rest ih =>
      obtain ⟨⟨a', next⟩, e₁, ha, h⟩ := bind_eq_ok.mp h
      obtain ⟨rest', e₂, hrest, h⟩ := bind_eq_ok.mp h
      obtain ⟨rfl, rfl⟩ := pure_eq_ok.mp h
      obtain ⟨rfl, hgotos⟩ := ih hrest
      -- declaring changes the tables only: what is emitted is the settled action
      have hsettle : a' = settle labels a ∧
          ∀ name, a.op = .goto name → (labels.lookup name).isSome = true := by
        obtain ⟨loc, op, x⟩ := a
        cases op with
        | metaLabel name =>
            cases ha
            exact ⟨rfl, by rintro _ ⟨⟩⟩
        | goto name =>
            simp only [declareAction] at ha
            cases hlookup : labels.lookup name with
            | none =>
                simp only [hlookup] at ha
                cases ha
            | some j =>
                simp only [hlookup] at ha
                cases ha
                refine ⟨by simp [settle, hlookup], ?_⟩
                rintro _ ⟨⟩
                rw [hlookup]
                rfl
        | set name =>
            simp only [declareAction] at ha
            split at ha <;> cases ha
            exact ⟨rfl, by rintro _ ⟨⟩⟩
        | label name synthetic =>
            simp only [declareAction] at ha
            split at ha <;> cases ha
            exact ⟨rfl, by rintro _ ⟨⟩⟩
        | _ =>
            cases ha
            exact ⟨rfl, by rintro _ ⟨⟩⟩
      exact ⟨by rw [hsettle.1]; rfl, List.forall_mem_cons.mpr ⟨hsettle.2, hgotos⟩⟩

end Gather

/-! ## All stages -/

namespace Assembler

/-- The actions that are prepared for execution, and an engine that knows their
symbols. -/
def sequence (asm : Assembler) (actions : List Action) : SessionM (List Action × Engine) := do
  asm.notePass .includes actions
  let seq ← asm.resolveIncludes includeDepth actions
  asm.notePass .macros seq
  let seq ← asm.expandMacros seq
  asm.notePass .gather seq
  asm.gather seq

/-- Preparation turns the sequence into code. -/
theorem prepare_eq (asm : Assembler) (actions : List Action) :
    asm.prepare actions = (asm.sequence actions >>= fun p =>
      match Code.ofActions p.1 with
      | .error err => throw err
      | .ok code => pure (code, p.2)) := by
  unfold sequence
  simp only [bind_assoc]
  rfl

theorem notePass_ids {asm : Assembler} {pass : Pass} {seq : List Action} {s s' : Session} {u : Unit}
    (h : asm.notePass pass seq s = .ok u s') : s'.ids = s.ids := by
  cases h
  rfl

theorem gather_eq_ok {asm : Assembler} {acts seq : List Action} {e : Engine} {s s' : Session}
    (h : asm.gather acts s = .ok (seq, e) s') :
    ∃ labels, Gather.numberLabels acts [] s.ids = .ok labels s'.ids ∧
      Gather.declareAll labels "" acts { verbose := asm.verbose } = .ok seq e := by
  unfold gather at h
  obtain ⟨labels, s₁, hlabels, h⟩ := bind_eq_ok.mp h
  unfold withIds at hlabels
  split at hlabels
  · rename_i labels' ids hnumber
    cases hlabels
    cases hdeclare : Gather.declareAll labels "" acts { verbose := asm.verbose } with
    | error err e' =>
        simp only [hdeclare] at h
        exact absurd h throw_ne_ok
    | ok seq' e' =>
        simp only [hdeclare] at h
        obtain ⟨_, s₂, hnote, h⟩ := bind_eq_ok.mp h
        obtain ⟨hpair, rfl⟩ := pure_eq_ok.mp h
        cases hpair
        cases hnote
        exact ⟨labels, hnumber, hdeclare⟩
  · cases hlabels

/-- Each stage hands its actions and the numbers given out to the next. -/
theorem sequence_eq_ok {asm : Assembler} {actions seq : List Action} {e : Engine} {s s' : Session}
    (h : asm.sequence actions s = .ok (seq, e) s') :
    ∃ included expanded s₁ s₂ s₃ s₄ s₅, s₁.ids = s.ids ∧
      asm.resolveIncludes includeDepth actions s₁ = .ok included s₂ ∧ s₃.ids = s₂.ids ∧
      asm.expandMacros included s₃ = .ok expanded s₄ ∧ s₅.ids = s₄.ids ∧
      asm.gather expanded s₅ = .ok (seq, e) s' := by
  unfold sequence at h
  obtain ⟨_, s₁, hnote₁, h⟩ := bind_eq_ok.mp h
  obtain ⟨included, s₂, hincluded, h⟩ := bind_eq_ok.mp h
  obtain ⟨_, s₃, hnote₃, h⟩ := bind_eq_ok.mp h
  obtain ⟨expanded, s₄, hexpanded, h⟩ := bind_eq_ok.mp h
  obtain ⟨_, s₅, hnote₅, hgathered⟩ := bind_eq_ok.mp h
  exact ⟨included, expanded, s₁, s₂, s₃, s₄, s₅, notePass_ids hnote₁, hincluded,
    notePass_ids hnote₃, hexpanded, notePass_ids hnote₅, hgathered⟩

/-- What the stages make of source text: clauses in which macros are defined and
called, the expanded calls, and these with their `.LABEL`s settled. -/
theorem sequence_stages {asm : Assembler} {actions seq : List Action} {e : Engine} {s s' : Session}
    (hlowered : Lowered actions) (hinc : ∀ inc, asm.includer = some inc → inc.Lowered)
    (h : asm.sequence actions s = .ok (seq, e) s') :
    ∃ included calls expanded labels i j, WrittenClauses Op.Resolved included ∧
      Expanded (writtenMacros included) i included calls expanded j ∧
      seq = expanded.map (Gather.settle labels) := by
  obtain ⟨included, expanded, s₁, s₂, s₃, s₄, s₅, -, hincluded, -, hexpanded, -, hgathered⟩ :=
    sequence_eq_ok h
  have hresolved := resolveIncludes_resolved hinc includeDepth hlowered.written hincluded
  obtain ⟨calls, hcalls⟩ := expandMacros_eq_ok (sound_of_resolved hresolved) hexpanded
  obtain ⟨labels, -, hdeclare⟩ := gather_eq_ok hgathered
  exact ⟨included, calls, expanded, labels, s₃.ids, s₄.ids, hresolved, hcalls,
    (Gather.declareAll_eq_settle hdeclare).1⟩

end Assembler

end Mos6510
