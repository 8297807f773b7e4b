import Mos6510.Proofs.Linking
import Mos6510.Proofs.Locals

/-!
# No internal errors

Some errors are there for programs that are put together by hand: a jump or a
counter that nobody gave its number, and meta actions where code is expected.
Source text cannot cause them (`sources_link`): what it is lowered to is linked,
and each later stage keeps it so.
-/

namespace Mos6510

open Outcome EngineM

namespace Error

/-- Does the error say that actions were not put together well? -/
def isInternal (err : Error) : Bool :=
  err.chain.any fun
    | unknownJump _ | unknownCounter _ | metaAction | metaExecuted _ => true
    | _ => false

theorem isInternal_atLocation (loc : Location) (err : Error) :
    (err.atLocation loc).isInternal = err.isInternal :=
  any_chain_atLocation (fun _ _ => rfl) loc err

theorem isInternal_atAction (a : Action) (err : Error) :
    (err.atAction a).isInternal = err.isInternal :=
  any_chain_atAction (fun _ _ => rfl) (fun _ _ _ => rfl) a err

theorem isInternal_of_isOrdinary {err : Error} (h : err.isOrdinary = true) :
    err.isInternal = false := by
  cases err <;> first | rfl | cases h

theorem external_tame : Tame fun err => err.isInternal = false where
  ordinary _ h := isInternal_of_isOrdinary h
  empty := rfl
  full := rfl
  located loc err h := by rw [isInternal_atLocation, h]

/-- The errors of the stages before execution, once all files are included. -/
def isEarly : Error → Bool
  | duplicateMacro _ | unknownMacro _ | macroArgs _ _ _ | duplicateMetaLabel _ => true
  | unknownMetaLabel _ | duplicateLabel _ | conflict _ | localWithoutParent _ => true
  | _ => false

/-- A property of errors that those of these stages have, wherever they are
located. -/
structure Early (P : Error → Prop) : Prop where
  raised : ∀ err, err.isEarly = true → P err
  located : ∀ loc err, P err → P (err.atLocation loc)
  atAction : ∀ a err, P err → P (err.atAction a)

theorem external_early : Early fun err => err.isInternal = false where
  raised err h := by cases err <;> first | rfl | cases h
  located loc err h := by rw [isInternal_atLocation, h]
  atAction a err h := by rw [isInternal_atAction, h]

end Error

/-! ## Code without loose ends -/

/-- The actions of the code can all be run, the jumps that they ask for have
targets, and the counters that they use are there. -/
structure Code.Complete (code : Code) : Prop where
  speaks : ∀ a ∈ code.actions, a.Speaks
  executable : ∀ a ∈ code.actions, a.op.isMeta = false
  targets : ∀ a ∈ code.actions, ∀ j, a.op.jump? = some j → (code.target? j).isSome = true
  counters : ∀ a ∈ code.actions, ∀ c, a.op.counter? = some c → 0 ≤ c ∧ c.toNat < code.counters

theorem Op.taken_of_jump? {op : Op} {j : Int} (h : op.jump? = some j) :
    op.taken? .jump = some j := by
  cases op <;> exact h

theorem Op.counter_numbered {op : Op} {c : Int} (h : op.counter? = some c) :
    op.given? .counter = some c ∨ op.taken? .counter = some c := by
  cases op <;> first | exact .inl h | exact .inr h

namespace Code

theorem targetMarks_given (seq : List Action) :
    (targetMarks seq).map Prod.fst = given .jump seq := by
  induction seq with
  | nil => rfl
  | cons a rest ih =>
      obtain ⟨loc, op, x⟩ := a
      cases op with
      | target j => exact congrArg (j :: ·) ih
      | _ => exact ih

section

variable {seq : List Action} {code : Code} {lo hi : Ids} (hcode : ofActions seq = .ok code)
  (hnumbers : Numbers lo hi seq [])

include hcode hnumbers

/-- The number of a target leads to what stands behind that target. -/
theorem target?_of_mark {m : Int × List Action} (hm : m ∈ targetMarks seq) :
    code.target? m.1 = some m.2 := by
  have hpos : ∀ m ∈ targetMarks seq, 0 ≤ m.1 := by
    intro m hm
    have hgiven : m.1 ∈ given .jump seq := targetMarks_given seq ▸ List.mem_map_of_mem hm
    have := (hnumbers.between .jump m.1 (List.mem_append_left _ hgiven)).1
    omega
  have hapart : ((targetMarks seq).map Prod.fst).Nodup := by
    rw [targetMarks_given]
    exact hnumbers.linked.apart .jump
  refine target?_of_mem_marks hcode (hpos m hm) hm fun m' hm' heq => ?_
  have h₁ := hpos m hm
  have h₂ := hpos m' hm'
  have hfst : m'.1 = m.1 := by omega
  rw [List.inj_on_of_nodup_map hapart hm' hm hfst]

/-- Each number that a target gives leads somewhere. -/
theorem target?_of_given {j : Int} (hj : j ∈ given .jump seq) : (code.target? j).isSome = true := by
  rw [← targetMarks_given] at hj
  obtain ⟨m, hm, rfl⟩ := List.mem_map.mp hj
  rw [target?_of_mark hcode hnumbers hm]
  rfl

/-- There is a counter for each number that is given to one. -/
theorem counter_of_given {c : Int} (hc : c ∈ given .counter seq) : 0 ≤ c ∧ c.toNat < code.counters := by
  have hpos := (hnumbers.between .counter c (List.mem_append_left _ hc)).1
  obtain ⟨a, ha, hop⟩ := List.mem_filterMap.mp hc
  have hbound : counterBound a ≤ code.counters := by
    rw [(ofActions_eq_ok hcode).2.2.2]
    exact (le_foldl_max counterBound seq 0).2 a ha
  have hown : counterBound a = (c + 1).toNat := by
    unfold counterBound
    cases heq : a.op <;> rw [heq] at hop <;> cases hop
    rfl
  omega

/-- Numbered actions make complete code. -/
theorem complete_of_numbers (hspeaks : ∀ a ∈ seq, a.Speaks) : code.Complete := by
  obtain ⟨hmeta, hactions, -, -⟩ := ofActions_eq_ok hcode
  have hlinked := hnumbers.linked
  have hmem : ∀ a ∈ code.actions, a ∈ seq ∧ isTarget a = false := by
    intro a ha
    rw [hactions] at ha
    exact mem_strip.mp ha
  refine ⟨fun a ha => hspeaks a (hmem a ha).1, fun a ha => ?_, fun a ha j hj => ?_,
    fun a ha c hc => counter_of_given hcode hnumbers ?_⟩
  · obtain ⟨hseq, htarget⟩ := hmem a ha
    by_contra h
    rw [hmeta a hseq (by simpa using h)] at htarget
    cases htarget
  · have htaken : j ∈ taken .jump seq :=
      List.mem_filterMap.mpr ⟨a, (hmem a ha).1, Op.taken_of_jump? hj⟩
    exact target?_of_given hcode hnumbers (hlinked.taken .jump j htaken)
  · rcases Op.counter_numbered hc with hop | hop
    · exact List.mem_filterMap.mpr ⟨a, (hmem a ha).1, hop⟩
    · exact hlinked.taken .counter c (List.mem_filterMap.mpr ⟨a, (hmem a ha).1, hop⟩)

end

end Code

/-! ## Execution -/

/-- No action adds or drops counters. -/
theorem Action.run_counters {a : Action} (hspeaks : a.Speaks) {e e' : Engine}
    (h : a.run e = .ok () e') : e'.counters.size = e.counters.size := by
  cases hstraight : a.op.isStraight with
  | true =>
      have hkept := (Action.run_framed hstraight hspeaks).control_eq h
      exact congrArg (fun c => c.counters.size) hkept
  | false =>
      -- a jump is asked for or not, and counters stay either way
      have hrequest : ∀ {j : Int} {p : Prop} [Decidable p] {d d' : Engine},
          (if p then Engine.requestJump j else pure ()) d = .ok () d' → d'.counters = d.counters := by
        intro j p _ d d' h
        split at h
        · rw [Engine.requestJump_eq_ok.mp h]
        · rw [(pure_eq_ok.mp h).2]
      obtain ⟨loc, op, x⟩ := a
      cases op with
      | jump j => rw [Engine.requestJump_eq_ok.mp h]
      | jumpIfFalse j =>
          obtain ⟨v, e₁, hpop, hjump⟩ := bind_eq_ok.mp h
          obtain ⟨rest, -, rfl⟩ := Engine.pop_eq_ok.mp hpop
          have hkept := hrequest hjump
          exact congrArg Array.size hkept
      | counterSet c =>
          obtain ⟨-, hload⟩ := Engine.loadCounter_eq_ok.mp h
          obtain ⟨v, e₁, hpop, hset⟩ := bind_eq_ok.mp hload
          obtain ⟨rest, -, rfl⟩ := Engine.pop_eq_ok.mp hpop
          rw [Engine.setCounter_eq_ok.mp hset]
          exact Array.size_setIfInBounds
      | counterTest c j =>
          obtain ⟨v, e₁, hcounter, hjump⟩ := bind_eq_ok.mp h
          obtain ⟨-, rfl⟩ := Engine.counter_eq_ok.mp hcounter
          exact congrArg Array.size (hrequest hjump)
      | counterStep c j =>
          obtain ⟨v, e₁, hcounter, hrest⟩ := bind_eq_ok.mp h
          obtain ⟨-, rfl⟩ := Engine.counter_eq_ok.mp hcounter
          obtain ⟨_, e₂, hset, hjump⟩ := bind_eq_ok.mp hrest
          rw [Engine.requestJump_eq_ok.mp hjump, Engine.setCounter_eq_ok.mp hset]
          exact Array.size_setIfInBounds
      | load | get | set | unary | binary | instruction | width => cases hstraight
      | data | text | bytes | label | message => cases hstraight
      | _ => exact absurd h throw_ne_ok

namespace Code

variable {seq : List Action} {code : Code} {pass : Pass} {e d : Engine} {n : Nat} {k : List Action}

/-- All counters are there wherever a pass comes to. -/
theorem counters_of_visits (hcode : ofActions seq = .ok code)
    (hspeaks : ∀ a ∈ code.actions, a.Speaks) (h : code.Visits pass e n k d) :
    d.counters.size = code.counters := by
  have hhead : ∀ {m a l c}, code.Visits pass e m (a :: l) c → a.Speaks := fun h =>
    hspeaks _ ((suffix_of_visits hcode h).subset List.mem_cons_self)
  induction h with
  | start => exact Array.size_replicate
  | next hvisits ha _ ih => exact (Action.run_counters (hhead hvisits) ha).trans ih
  | jump hvisits ha _ _ ih => exact (Action.run_counters (hhead hvisits) ha).trans ih

/-- A pass over complete code has no internal error. -/
theorem Complete.runPass_external (hcode : ofActions seq = .ok code) (hcomplete : code.Complete)
    {verbose : Bool} {e' : Engine} {err : Error}
    (h : Assembler.runPass verbose code pass e = .error err e') : err.isInternal = false := by
  obtain ⟨m, a, l, d, hvisits, hfails⟩ := runFrom_eq_error (Assembler.runPass_eq_error h)
  have hmem : a ∈ code.actions := (suffix_of_visits hcode hvisits).subset List.mem_cons_self
  have hspeaks := hcomplete.speaks a hmem
  cases hfails with
  | run hrun =>
      rw [Error.isInternal_atAction]
      rcases Action.run_raises Error.external_tame hspeaks hrun with hfails | herr
      · cases hfails with
        | ordinary hordinary => exact Error.isInternal_of_isOrdinary hordinary
        | @counter c hop hnone =>
            obtain ⟨hpos, hlt⟩ := hcomplete.counters a hmem c hop
            have hsize := counters_of_visits hcode hcomplete.speaks hvisits
            have hsome : (d.atAction a).counters[c.toNat]? ≠ none := by
              rw [Ne, Array.getElem?_eq_none_iff]
              show ¬ d.counters.size ≤ _
              omega
            unfold Engine.counter? at hnone
            rw [if_neg (by omega)] at hnone
            exact absurd hnone hsome
        | misplaced hmeta => exact absurd hmeta (by simp [hcomplete.executable a hmem])
        | _ => rfl
      · exact herr
  | @jump j d' hrun hj hnone =>
      have hpending : d.jump = none := jump_of_visits hvisits
      have hop := Action.run_jump hspeaks hrun hpending hj
      have hsome := hcomplete.targets a hmem j hop
      rw [hnone] at hsome
      cases hsome
  | limit => rw [Error.isInternal_atAction]; rfl

end Code

/-! ## Stages -/

theorem Assembler.replaceEach_eq_error {f : Action → SessionM (List Action)} {acts : List Action}
    {s s' : Session} {err : Error} (h : replaceEach f acts s = .error err s') :
    ∃ a ∈ acts, ∃ t t', f a t = .error err t' := by
  induction acts generalizing s with
  | nil => cases h
  | cons a rest ih =>
      rw [replaceEach] at h
      rcases bind_eq_error.mp h with ha | ⟨bs, s₁, -, hrest⟩
      · exact ⟨a, List.mem_cons_self, s, s', ha⟩
      · rcases bind_eq_error.mp hrest with hrest | ⟨_, _, -, hpure⟩
        · obtain ⟨b, hb, hfails⟩ := ih hrest
          exact ⟨b, List.mem_cons_of_mem _ hb, hfails⟩
        · cases hpure

section

variable {P : Error → Prop} (hP : Error.Early P)

include hP

namespace Assembler

theorem collectMacros_raises {acts : List Action} {known : List (String × MacroDef)}
    {err : Error} (h : collectMacros acts known = .error err) : P err := by
  induction acts generalizing known with
  | nil => cases h
  | cons a rest ih =>
      unfold collectMacros at h
      split at h
      · split at h
        · cases h
          exact hP.located _ _ (hP.raised _ rfl)
        · exact ih h
      · exact ih h

/-- Sound macros are expanded, or called with the wrong number of arguments. -/
theorem instantiate_raises {w : WrittenMacro} (hw : w.Sound) {loc : Location}
    {args : List (List Action)} {seq : Nat} {ids ids' : Ids} {err : Error}
    (h : w.define.instantiate loc args seq ids = .error err ids') : P err := by
  by_cases hcount : args.length = w.params.length
  · rw [WrittenMacro.instantiate_eq hw loc hcount] at h
    cases h
  · have hparams : w.define.params.length = w.params.length := List.length_map _
    unfold MacroDef.instantiate at h
    rw [if_pos (by simpa [hparams] using hcount)] at h
    cases h
    exact hP.located _ _ (hP.raised _ rfl)

/-- How expanding the calls of sound macros fails. -/
theorem expandMacros_raises {asm : Assembler} {acts : List Action} {s s' : Session} {err : Error}
    (hsound : ∀ w ∈ writtenMacros acts, w.Sound) (h : asm.expandMacros acts s = .error err s') :
    P err := by
  unfold expandMacros at h
  cases hcollect : collectMacros acts [] with
  | error err' =>
      simp only [hcollect] at h
      cases h
      exact collectMacros_raises hP hcollect
  | ok known =>
      simp only [hcollect] at h
      -- every macro of the table is one that the actions define
      have hknown := collectMacros_define (fun _ hw => hw) (fun _ h => absurd h List.not_mem_nil)
        hcollect
      obtain ⟨⟨loc, op, x⟩, -, t, t', ha⟩ := replaceEach_eq_error h
      cases op with
      | callMacro name args =>
          simp only [replaceCall] at ha
          cases hlookup : known.lookup name with
          | none =>
              simp only [hlookup] at ha
              cases ha
              exact hP.located _ _ (hP.raised _ rfl)
          | some m =>
              simp only [hlookup] at ha
              obtain ⟨before, after, heq, -⟩ := List.lookup_eq_some_iff.mp hlookup
              obtain ⟨w, hw, hpair⟩ := hknown (name, m) (heq ▸ List.mem_append_cons_self)
              obtain ⟨rfl, rfl⟩ := Prod.mk.inj hpair
              rcases bind_eq_error.mp ha with hseq | ⟨seq, t₁, -, hrest⟩
              · cases hseq
              rcases bind_eq_error.mp hrest with hexpand | ⟨_, _, -, hnote⟩
              · unfold withIds at hexpand
                split at hexpand
                · cases hexpand
                · rename_i hinstantiate
                  cases hexpand
                  exact instantiate_raises hP (hsound w hw) hinstantiate
              · rcases bind_eq_error.mp hnote with hnote | ⟨_, _, -, hpure⟩
                · cases hnote
                · cases hpure
      | _ => cases ha

end Assembler

namespace Gather

theorem numberLabels_raises {acts : List Action} {known : List (String × Nat)} {ids ids' : Ids}
    {err : Error} (h : numberLabels acts known ids = .error err ids') : P err := by
  induction acts generalizing known ids with
  | nil => cases h
  | cons a rest ih =>
      unfold numberLabels at h
      cases hop : a.op with
      | metaLabel name =>
          simp only [hop] at h
          split at h
          · cases h
            exact hP.located _ _ (hP.raised _ rfl)
          · exact ih h
      | _ =>
          simp only [hop] at h
          exact ih h

omit hP in
theorem isEarly_of_qualify {name parent : String} {err : Error}
    (h : qualify name parent = .error err) : err.isEarly = true := by
  unfold qualify at h
  split at h
  · cases h
  · split at h
    · cases h
      rfl
    · cases h

theorem declareVariable_raises {name parent : String} {e e' : Engine} {err : Error}
    (h : Engine.declareVariable name parent e = .error err e') : P err := by
  unfold Engine.declareVariable at h
  split at h
  · cases h
  · split at h
    · rename_i hq
      cases h
      exact hP.raised _ (isEarly_of_qualify hq)
    · split at h
      · cases h
        exact hP.raised _ rfl
      · split at h <;> cases h

theorem declareLabel_raises {name parent : String} {synthetic : Bool} {e e' : Engine}
    {err : Error} (h : Engine.declareLabel name synthetic parent e = .error err e') :
    P err := by
  unfold Engine.declareLabel at h
  split at h
  · rename_i hq
    cases h
    exact hP.raised _ (isEarly_of_qualify hq)
  · split at h
    · cases h
      exact hP.raised _ rfl
    · split at h
      · cases h
        exact hP.raised _ rfl
      · cases h

theorem declareAll_raises {labels : List (String × Nat)} {parent : String} {acts : List Action}
    {e e' : Engine} {err : Error} (h : declareAll labels parent acts e = .error err e') :
    P err := by
  induction acts generalizing parent e with
  | nil => cases h
  | cons a rest ih =>
      rcases bind_eq_error.mp h with ha | ⟨⟨a', next⟩, e₁, -, hrest⟩
      · unfold declareAction at ha
        split at ha
        · cases ha
        · split at ha
          · cases ha
          · cases ha
            exact hP.located _ _ (hP.raised _ rfl)
        · split at ha
          · cases ha
          · rename_i hdeclare
            cases ha
            exact hP.atAction _ _ (declareVariable_raises hP hdeclare)
        · split at ha
          · cases ha
          · rename_i hdeclare
            cases ha
            exact hP.atAction _ _ (declareLabel_raises hP hdeclare)
        · cases ha
      · rcases bind_eq_error.mp hrest with hrest | ⟨_, _, -, hpure⟩
        · exact ih hrest
        · cases hpure

end Gather

namespace Assembler

theorem gather_raises {asm : Assembler} {acts : List Action} {s s' : Session} {err : Error}
    (h : asm.gather acts s = .error err s') : P err := by
  unfold gather at h
  rcases bind_eq_error.mp h with hlabels | ⟨labels, s₁, -, hdeclare⟩
  · unfold withIds at hlabels
    split at hlabels
    · cases hlabels
    · rename_i hnumber
      cases hlabels
      exact Gather.numberLabels_raises hP hnumber
  · cases hrun : Gather.declareAll labels "" acts { verbose := asm.verbose } with
    | error err' e' =>
        simp only [hrun] at hdeclare
        cases hdeclare
        exact Gather.declareAll_raises hP hrun
    | ok seq e' =>
        simp only [hrun] at hdeclare
        rcases bind_eq_error.mp hdeclare with hnote | ⟨_, _, -, hpure⟩
        · cases hnote
        · cases hpure

end Assembler

end

namespace Assembler

/-- Once all files are included, an assembly fails where one of the stages
after that does, or one of its passes. -/
theorem assemble_eq_error_stages {asm : Assembler} {actions : List Action} {s s' : Session}
    {err : Error} (h : asm.assemble actions s = .error err s') :
    (asm.notePass .includes actions >>= fun _ => asm.resolveIncludes includeDepth actions) s =
        .error err s' ∨
      (∃ included t t' u u', asm.resolveIncludes includeDepth actions t = .ok included t' ∧
        asm.expandMacros included u = .error err u') ∨
      (∃ expanded u u', asm.gather expanded u = .error err u') ∨
      ∃ seq e t, asm.sequence actions s = .ok (seq, e) t ∧
        (Code.ofActions seq = .error err ∨ ∃ code e e', Code.ofActions seq = .ok code ∧
          runPasses asm.verbose code e = .error err e') := by
  rw [assemble_eq, prepare_eq] at h
  rcases bind_eq_error.mp h with hprepare | ⟨⟨code, e⟩, s₁, hprepare, hpasses⟩
  · rcases bind_eq_error.mp hprepare with hsequence | ⟨⟨seq, e⟩, s₁, hsequence, hcode⟩
    · unfold sequence at hsequence
      -- reports never fail, so each stage fails on its own account
      rcases bind_eq_error.mp hsequence with hnote | ⟨_, s₁, hnote, h₁⟩
      · cases hnote
      rcases bind_eq_error.mp h₁ with hincluded | ⟨included, s₂, hincluded, h₂⟩
      · exact .inl (bind_eq_error.mpr (.inr ⟨_, s₁, hnote, hincluded⟩))
      rcases bind_eq_error.mp h₂ with hnote | ⟨_, s₃, hnote, h₃⟩
      · cases hnote
      rcases bind_eq_error.mp h₃ with hexpanded | ⟨expanded, s₄, hexpanded, h₄⟩
      · exact .inr (.inl ⟨included, s₁, s₂, s₃, s', hincluded, hexpanded⟩)
      rcases bind_eq_error.mp h₄ with hnote | ⟨_, s₅, hnote, hgathered⟩
      · cases hnote
      · exact .inr (.inr (.inl ⟨expanded, s₅, s', hgathered⟩))
    · refine .inr (.inr (.inr ⟨seq, e, s₁, hsequence, .inl ?_⟩))
      cases hofActions : Code.ofActions seq with
      | error err' =>
          simp only [hofActions] at hcode
          cases hcode
          rfl
      | ok code =>
          simp only [hofActions] at hcode
          cases hcode
  · obtain ⟨⟨seq, e'⟩, s₂, hsequence, hcode⟩ := bind_eq_ok.mp hprepare
    refine .inr (.inr (.inr ⟨seq, e', s₂, hsequence, .inr ?_⟩))
    cases hofActions : Code.ofActions seq with
    | error err' =>
        simp only [hofActions] at hcode
        exact absurd hcode throw_ne_ok
    | ok code' =>
        simp only [hofActions] at hcode
        obtain ⟨hpair, rfl⟩ := pure_eq_ok.mp hcode
        obtain ⟨rfl, rfl⟩ := Prod.mk.inj hpair
        rcases bind_eq_error.mp hpasses with hengine | ⟨_, _, -, hpure⟩
        · unfold withEngine at hengine
          split at hengine
          · cases hengine
          · rename_i hrun
            cases hengine
            exact ⟨_, _, _, rfl, hrun⟩
        · cases hpure

/-- So an assembly of source text fails while files are included, or has one of
the errors of the stages after that, or one of its passes fails. -/
theorem assemble_raises {P : Error → Prop} (hP : Error.Early P) {asm : Assembler}
    {actions : List Action} (hlowered : Lowered actions)
    (hinc : ∀ inc, asm.includer = some inc → inc.Lowered) {s s' : Session} {err : Error}
    (h : asm.assemble actions s = .error err s') :
    (asm.notePass .includes actions >>= fun _ => asm.resolveIncludes includeDepth actions) s =
        .error err s' ∨
      P err ∨ ∃ seq e t, asm.sequence actions s = .ok (seq, e) t ∧
        (Code.ofActions seq = .error err ∨ ∃ code e e', Code.ofActions seq = .ok code ∧
          runPasses asm.verbose code e = .error err e') := by
  rcases assemble_eq_error_stages h with hincluded | ⟨included, t, t', u, u', hincluded, hexpanded⟩ |
    ⟨expanded, t, t', hgathered⟩ | hpasses
  · exact .inl hincluded
  · have hresolved := resolveIncludes_resolved hinc includeDepth hlowered.written hincluded
    exact .inr (.inl (expandMacros_raises hP (sound_of_resolved hresolved) hexpanded))
  · exact .inr (.inl (gather_raises hP hgathered))
  · exact .inr (.inr hpasses)

/-- Internal errors are unreachable from source text.  If the main file and the
included files are read in one session, then in the sequence that is prepared
for execution no jump has two targets and no counter is set in two places; all
jumps and counters that are used have their target and are set; and targets are
all that is left of meta actions.  So the sequence is turned into code, whose
passes have no internal error on any engine; and an assembly has none that does
not come from the include stage. -/
theorem sources_link (asm : Assembler) (r : Reader) (file : String) (text : List Text.Glyph)
    (actions : List Action) (t t' s : Session) (hmain : r.actions file text t = .ok actions t')
    (hids : t'.ids ≤ s.ids) (hinc : ∀ inc, asm.includer = some inc → inc.InSession) :
    (∀ seq e s', asm.sequence actions s = .ok (seq, e) s' →
      (∀ κ, (given κ seq).Nodup ∧ ∀ n ∈ taken κ seq, n ∈ given κ seq) ∧
        (∀ a ∈ seq, a.op.isMeta = true → a.op.kind = .target) ∧
        ∃ code, Code.ofActions seq = .ok code ∧
          ∀ verbose pass e err e', runPass verbose code pass e = .error err e' →
            err.isInternal = false) ∧
      ∀ err s', asm.assemble actions s = .error err s' →
        (asm.notePass .includes actions >>= fun _ => asm.resolveIncludes includeDepth actions) s =
            .error err s' ∨
          err.isInternal = false := by
  have hlowered : Lowered actions := ⟨r, file, text, t, t', hmain⟩
  have hincluders : ∀ inc, asm.includer = some inc → inc.Lowered :=
    fun inc h => (hinc inc h).lowered
  have hsequence : ∀ seq e s', asm.sequence actions s = .ok (seq, e) s' →
      (∀ κ, (given κ seq).Nodup ∧ ∀ n ∈ taken κ seq, n ∈ given κ seq) ∧
        (∀ a ∈ seq, a.op.isMeta = true → a.op.kind = .target) ∧
        ∃ code, Code.ofActions seq = .ok code ∧
          ∀ verbose pass e err e', runPass verbose code pass e = .error err e' →
            err.isInternal = false := by
    intro seq e s' h
    have hnumbers := sequence_numbers hmain hids hinc h
    have hclauses := sequence_clauses hlowered hincluders h
    have htargets := isTarget_of_clauses hclauses
    obtain ⟨code, hcode⟩ := Code.exists_ofActions htargets
    -- every number that is taken was given, so no pass comes upon an unknown one
    have hcomplete := Code.complete_of_numbers hcode hnumbers (speaks_of_clauses hclauses)
    have hlinked := hnumbers.linked
    exact ⟨fun κ => ⟨hlinked.apart κ, hlinked.taken κ⟩, htargets, code, hcode,
      fun verbose pass e err e' h => hcomplete.runPass_external hcode h⟩
  refine ⟨hsequence, fun err s' h => ?_⟩
  rcases assemble_raises Error.external_early hlowered hincluders h with
    hincluded | hearly | ⟨seq, e, u, hseq, hfails⟩
  · exact .inl hincluded
  · exact .inr hearly
  · right
    obtain ⟨-, -, code, hcode, hpass⟩ := hsequence seq e u hseq
    rcases hfails with hcode' | ⟨code', d, d', hcode', hrun⟩
    · rw [hcode] at hcode'
      cases hcode'
    · obtain rfl := Except.ok.inj (hcode.symm.trans hcode')
      -- one of the passes fails, or the last two disagree
      rcases runPasses_eq_error hrun with ⟨_, hw⟩ | ⟨_, _, -, hf⟩ | ⟨_, _, _, -, -, hn⟩ | rfl
      · exact hpass _ _ _ _ _ hw
      · exact hpass _ _ _ _ _ hf
      · exact hpass _ _ _ _ _ hn
      · rfl

/-- Every included file holds a loop that jumps back on its own. -/
def roundsIncluder : Includer where
  source := fun name _ => ({} : Reader).actions name
    (Text.Glyph.ofString ".REP 2 .DB 1 .ENDREP .LABEL back .IF 0 .GOTO back .ENDIF")
  binary := fun _ _ => pure []

/-- A macro with a loop, called twice around an included file. -/
def roundsSource : List Text.Glyph :=
  Text.Glyph.ofString "@ = $1000 .MACRO m, n .LABEL top .REP n NOP .ENDREP .IF 0 .GOTO top .ENDIF
    .ENDMACRO .CALL m, 2 .INCLUDE \"rounds\" .CALL m, 3"

theorem roundsIncluder_inSession : roundsIncluder.InSession where
  source name _ _ s s' h := ⟨{}, name, _, s, s', le_refl _, h, le_refl _⟩
  binary _ _ _ _ _ h := by
    obtain ⟨-, rfl⟩ := pure_eq_ok.mp h
    exact le_refl _

theorem sources_link_roundsSource :
    ∃ actions t' seq e s', ({} : Reader).actions "main" roundsSource {} = .ok actions t' ∧
      ({ includer := some roundsIncluder } : Assembler).sequence actions t' = .ok (seq, e) s' ∧
      (given .jump seq).length = 15 ∧ (given .counter seq).length = 3 ∧
      (∀ κ, (given κ seq).Nodup ∧ ∀ n ∈ taken κ seq, n ∈ given κ seq) ∧
      (∀ a ∈ seq, a.op.isMeta = true → a.op.kind = .target) ∧
      ∃ code, Code.ofActions seq = .ok code ∧
        ∀ verbose pass e err e', runPass verbose code pass e = .error err e' →
          err.isInternal = false := by
  have hrun : isOkWith (fun actions t' =>
      isOkWith (fun p _ => (given .jump p.1).length == 15 && (given .counter p.1).length == 3)
        (({ includer := some roundsIncluder } : Assembler).sequence actions t'))
      (({} : Reader).actions "main" roundsSource {}) = true := by
    decide +kernel
  obtain ⟨actions, t', hread, hrun⟩ := exists_of_isOkWith hrun
  obtain ⟨⟨seq, e⟩, s', hsequence, hrun⟩ := exists_of_isOkWith hrun
  obtain ⟨hjumps, hcounters⟩ := Bool.and_eq_true_iff.mp hrun
  refine ⟨actions, t', seq, e, s', hread, hsequence, by simpa using hjumps,
    by simpa using hcounters, ?_⟩
  refine (sources_link { includer := some roundsIncluder } {} "main" roundsSource actions {} t' t'
    hread (le_refl _) fun inc h => ?_).1 seq e s' hsequence
  cases h
  exact roundsIncluder_inSession

end Assembler

end Mos6510
