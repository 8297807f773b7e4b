import Mos6510.Proofs.Causes
import Mos6510.Proofs.Linking

/-!
# Which action an error blames

Once macro calls are expanded, an assembly fails because of one action.  The
error gives the location where the cause came up, and names the macro call if
the action was instantiated from a macro (`Error.blaming`), each just once.

* `Gather.Blames`: how gathering symbols fails.  Two kinds of failure, a
  `.LABEL` that stands twice and a `.GOTO` that leads nowhere, are given the
  location only, even where the action was instantiated from a macro;
* `Code.Blames`: how executing an action fails, be it because of itself, of an
  action that a message holds, or of a jump;
* `expanded_failures`: there are no other failures, apart from actions that have
  no place in code and passes that do not converge.
-/

namespace Mos6510

open Outcome

/-- The error that an operation fails with. -/
def Outcome.error? {σ α : Type} : EStateM.Result Error σ α → Option Error
  | .ok _ _ => none
  | .error err _ => some err

theorem Outcome.eq_error_of_error? {σ α : Type} {r : EStateM.Result Error σ α} {err : Error}
    (h : error? r = some err) : ∃ s, r = .error err s := by
  cases r with
  | ok => cases h
  | error err' s =>
      cases h
      exact ⟨s, rfl⟩

/-! ## Errors that blame an action -/

namespace Error

/-- A cause that came up at a location, on account of an action. -/
def blaming (a : Action) (loc : Location) (cause : Error) : Error :=
  match a.expansion with
  | none => .located loc cause
  | some x => .expanding x.name x.call (.located loc cause)

@[simp] theorem isLocated_located (loc : Location) (err : Error) :
    (located loc err).isLocated = true := rfl

@[simp] theorem isExpanding_located (loc : Location) (err : Error) :
    (located loc err).isExpanding = false := rfl

@[simp] theorem isLocated_expanding (name : String) (call : Location) (err : Error) :
    (expanding name call err).isLocated = false := rfl

@[simp] theorem isExpanding_expanding (name : String) (call : Location) (err : Error) :
    (expanding name call err).isExpanding = true := rfl

/-- The chain of an error that blames an action is the macro call, if there is
one, the location, and the cause. -/
theorem chain_blaming {cause : Error} (h : cause.isBare = true) (a : Action) (loc : Location) :
    (blaming a loc cause).chain = (match a.expansion with
      | none => []
      | some x => [.expanding x.name x.call (.located loc cause)]) ++ [.located loc cause, cause] := by
  unfold blaming
  cases a.expansion with
  | none => rw [chain, chain_of_isBare h]; rfl
  | some x => rw [chain, chain, chain_of_isBare h]; rfl

/-- What happens to the error of an action: a location that it has is kept. -/
theorem atAction_located {cause : Error} (h : cause.isBare = true) (a : Action) (loc : Location) :
    (located loc cause).atAction a = blaming a loc cause := by
  have hplain : (located loc cause).chain.any isExpanding = false := by
    rw [chain, chain_of_isBare h]
    simp [(isLocated_of_isBare h).2]
  unfold atAction blaming
  rw [atLocation_located]
  cases a.expansion with
  | none => rfl
  | some x =>
      show (if (located loc cause).chain.any isExpanding = true then _ else _) = _
      rw [hplain]
      rfl

theorem atAction_of_isBare {cause : Error} (h : cause.isBare = true) (a : Action) :
    cause.atAction a = blaming a a.location cause := by
  rw [← atAction_located h]
  unfold atAction
  rw [atLocation_of_isBare h, atLocation_located]

/-- One location in the error, and a macro call just if the action has one. -/
theorem countP_blaming {cause : Error} (h : cause.isBare = true) (a : Action) (loc : Location) :
    (blaming a loc cause).chain.countP isLocated = 1 ∧
      (blaming a loc cause).chain.countP isExpanding = if a.expansion.isSome then 1 else 0 := by
  obtain ⟨hlocated, hexpanding⟩ := isLocated_of_isBare h
  rw [chain_blaming h]
  cases a.expansion with
  | none => simp [List.countP_cons, hlocated, hexpanding]
  | some x => simp [List.countP_cons, hlocated, hexpanding]

end Error

/-! ## Gathering -/

namespace Gather

/-- Gathering fails because of one of the actions. -/
inductive Blames (acts : List Action) : Error → Prop
  /-- A `.LABEL` whose name was used before. -/
  | twice {before after : List Action} {a : Action} {name : String} :
      acts = before ++ a :: after → a.op = .metaLabel name → name ∈ metaLabelNames before →
      Blames acts (.located a.location (.duplicateMetaLabel name))
  /-- A `.GOTO` to a name that no `.LABEL` has. -/
  | nowhere {a : Action} {name : String} : a ∈ acts → a.op = .goto name →
      name ∉ metaLabelNames acts → Blames acts (.located a.location (.unknownMetaLabel name))
  /-- An assignment to a name that cannot be a variable. -/
  | assigned {a : Action} {name parent : String} {e e' : Engine} {cause : Error} : a ∈ acts →
      a.op = .set name → Engine.declareVariable name parent e = .error cause e' →
      cause.isBare = true → Blames acts (.blaming a a.location cause)
  /-- A label whose name cannot be one. -/
  | placed {a : Action} {name parent : String} {synthetic : Bool} {e e' : Engine}
      {cause : Error} : a ∈ acts → a.op = .label name synthetic →
      Engine.declareLabel name synthetic parent e = .error cause e' → cause.isBare = true →
      Blames acts (.blaming a a.location cause)

theorem isBare_of_qualify {name parent : String} {err : Error}
    (h : qualify name parent = .error err) : err.isBare = true :=
  Error.isBare_of_isRuntime (Error.isRuntime_of_isOrdinary (Engine.isOrdinary_of_qualify h))

theorem isBare_of_declareVariable {name parent : String} {e e' : Engine} {err : Error}
    (h : Engine.declareVariable name parent e = .error err e') : err.isBare = true := by
  unfold Engine.declareVariable at h
  split at h
  · cases h
  · split at h
    · rename_i hq
      cases h
      exact isBare_of_qualify hq
    · split at h
      · cases h
        rfl
      · split at h <;> cases h

theorem isBare_of_declareLabel {name parent : String} {synthetic : Bool} {e e' : Engine}
    {err : Error} (h : Engine.declareLabel name synthetic parent e = .error err e') :
    err.isBare = true := by
  unfold Engine.declareLabel at h
  split at h
  · rename_i hq
    cases h
    exact isBare_of_qualify hq
  · split at h
    · cases h
      rfl
    · split at h
      · cases h
        rfl
      · cases h

/-- Numbering `.LABEL`s fails at the first whose name is known already. -/
theorem numberLabels_eq_error {acts : List Action} {known : List (String × Nat)} {ids ids' : Ids}
    {err : Error} (h : numberLabels acts known ids = .error err ids') :
    ∃ before a after name, acts = before ++ a :: after ∧ a.op = .metaLabel name ∧
      ((known.lookup name).isSome = true ∨ name ∈ metaLabelNames before) ∧
      err = .located a.location (.duplicateMetaLabel name) := by
  induction acts generalizing known ids with
  | nil => cases h
  | cons a rest ih =>
      obtain ⟨loc, op, x⟩ := a
      cases op with
      | metaLabel name =>
          simp only [numberLabels] at h
          split at h
          · rename_i hknown
            cases h
            exact ⟨[], _, rest, name, rfl, rfl, .inl hknown, rfl⟩
          · obtain ⟨before, a, after, name', rfl, hop, htwice, rfl⟩ := ih h
            refine ⟨⟨loc, .metaLabel name, x⟩ :: before, a, after, name', rfl, hop, ?_, rfl⟩
            have hnames : metaLabelNames (⟨loc, .metaLabel name, x⟩ :: before) =
                name :: metaLabelNames before := rfl
            rw [hnames]
            rcases htwice with hknown | hbefore
            · by_cases hsame : name' = name
              · exact .inr (hsame ▸ List.mem_cons_self)
              · rw [List.lookup_cons, beq_false_of_ne hsame] at hknown
                exact .inl hknown
            · exact .inr (List.mem_cons_of_mem name hbefore)
      | _ =>
          obtain ⟨before, a, after, name, rfl, hop, htwice, rfl⟩ := ih h
          exact ⟨_ :: before, a, after, name, rfl, hop, htwice, rfl⟩

/-- The name of every `.LABEL` gets a number. -/
theorem lookup_of_numberLabels {acts : List Action} {known labels : List (String × Nat)}
    {ids ids' : Ids} (h : numberLabels acts known ids = .ok labels ids') {name : String}
    (hname : name ∈ metaLabelNames acts) : (labels.lookup name).isSome = true := by
  induction acts generalizing known ids with
  | nil => cases hname
  | cons a rest ih =>
      obtain ⟨loc, op, x⟩ := a
      cases op with
      | metaLabel name' =>
          simp only [numberLabels] at h
          split at h
          · cases h
          · rcases List.mem_cons.mp (show name ∈ name' :: metaLabelNames rest from hname) with
              rfl | hrest
            · rw [(numberLabels_eq_ok h).1 name _ List.lookup_cons_self]
              rfl
            · exact ih h hrest
      | _ => exact ih h hname

/-- Declaring an action fails because of the action. -/
theorem declareAction_eq_error {acts : List Action} {labels : List (String × Nat)}
    (hlabels : ∀ name ∈ metaLabelNames acts, (labels.lookup name).isSome = true) {a : Action}
    (ha : a ∈ acts) {parent : String} {e e' : Engine} {err : Error}
    (h : declareAction labels parent a e = .error err e') : Blames acts err := by
  unfold declareAction at h
  split at h
  · cases h
  · rename_i name hop
    split at h
    · cases h
    · rename_i hnone
      cases h
      refine .nowhere ha hop fun hmem => ?_
      have hsome := hlabels name hmem
      rw [hnone] at hsome
      cases hsome
  · rename_i name hop
    split at h
    · cases h
    · rename_i cause e₁ hdeclare
      cases h
      have hbare := isBare_of_declareVariable hdeclare
      rw [Error.atAction_of_isBare hbare]
      exact .assigned ha hop hdeclare hbare
  · rename_i name synthetic hop
    split at h
    · cases h
    · rename_i cause e₁ hdeclare
      cases h
      have hbare := isBare_of_declareLabel hdeclare
      rw [Error.atAction_of_isBare hbare]
      exact .placed ha hop hdeclare hbare
  · cases h

theorem declareAll_eq_error {all acts : List Action} {labels : List (String × Nat)}
    (hlabels : ∀ name ∈ metaLabelNames all, (labels.lookup name).isSome = true)
    (hsub : acts ⊆ all) {parent : String} {e e' : Engine} {err : Error}
    (h : declareAll labels parent acts e = .error err e') : Blames all err := by
  induction acts generalizing parent e with
  | nil => cases h
  | cons a rest ih =>
      obtain ⟨ha, hrest⟩ := List.cons_subset.mp hsub
      rcases bind_eq_error.mp h with hdeclare | ⟨p, e₁, -, h⟩
      · exact declareAction_eq_error hlabels ha hdeclare
      · rcases bind_eq_error.mp h with hdeclare | ⟨_, _, -, hpure⟩
        · exact ih hrest hdeclare
        · cases hpure

/-- What gathering blames has one location, and at most one macro call. -/
theorem Blames.countP {acts : List Action} {err : Error} (h : Blames acts err) :
    err.chain.countP Error.isLocated = 1 ∧ err.chain.countP Error.isExpanding ≤ 1 := by
  have hle : ∀ (a : Action), (if a.expansion.isSome then 1 else 0) ≤ 1 := by
    intro a
    split <;> omega
  cases h with
  | twice => exact ⟨rfl, Nat.zero_le 1⟩
  | nowhere => exact ⟨rfl, Nat.zero_le 1⟩
  | @assigned a _ _ _ _ cause _ _ _ hbare =>
      obtain ⟨hlocated, hexpanding⟩ := Error.countP_blaming hbare a a.location
      exact ⟨hlocated, hexpanding ▸ hle a⟩
  | @placed a _ _ _ _ _ cause _ _ _ hbare =>
      obtain ⟨hlocated, hexpanding⟩ := Error.countP_blaming hbare a a.location
      exact ⟨hlocated, hexpanding ▸ hle a⟩

end Gather

/-! ## Execution -/

namespace Code

/-- A pass fails because of an action that it comes to: at the action, or at one
that it holds. -/
inductive Blames (code : Code) : Error → Prop
  | intro {pass : Pass} {e d : Engine} {m : Nat} {a b : Action} {k : List Action} {cause : Error} :
      code.Arrives jumpLimit code.actions (code.start pass e) m (a :: k) d → a.Holds b →
      cause.isBare = true → code.FailsAt a d (.blaming a b.location cause) →
      Blames code (.blaming a b.location cause)

/-- How execution fails at an action, the error blames it. -/
theorem FailsAt.eq_blaming {code : Code} {a : Action} {d : Engine} {err : Error}
    (h : code.FailsAt a d err) :
    ∃ b cause, a.Holds b ∧ cause.isBare = true ∧ err = .blaming a b.location cause := by
  cases h with
  | run ha =>
      obtain ⟨cause, hcause, hwhere⟩ := Action.run_cause a ha
      have hbare := Error.isBare_of_isRuntime hcause
      rcases hwhere with rfl | ⟨c, hc, b, hb, rfl⟩
      · exact ⟨a, _, .self a, hbare, Error.atAction_of_isBare hbare a⟩
      · obtain rfl := List.mem_singleton.mp hc
        exact ⟨b, cause, hb, hbare, Error.atAction_located hbare c b.location⟩
  | jump => exact ⟨a, _, .self a, rfl, Error.atAction_of_isBare rfl a⟩
  | limit => exact ⟨a, _, .self a, rfl, Error.atAction_of_isBare rfl a⟩

theorem Blames.of_runPass {verbose : Bool} {code : Code} {pass : Pass} {e e' : Engine}
    {err : Error} (h : Assembler.runPass verbose code pass e = .error err e') :
    code.Blames err := by
  obtain ⟨m, a, k, d, harrive, hfails⟩ := runFrom_eq_error (Assembler.runPass_eq_error h)
  obtain ⟨b, cause, hb, hbare, rfl⟩ := hfails.eq_blaming
  exact .intro harrive hb hbare hfails

/-- What a pass blames has one location, and at most one macro call. -/
theorem Blames.countP {code : Code} {err : Error} (h : code.Blames err) :
    err.chain.countP Error.isLocated = 1 ∧ err.chain.countP Error.isExpanding ≤ 1 := by
  cases h with
  | @intro pass e d m a b k cause _ _ hbare _ =>
      obtain ⟨hlocated, hexpanding⟩ := Error.countP_blaming hbare a b.location
      refine ⟨hlocated, ?_⟩
      rw [hexpanding]
      split <;> omega

end Code

/-! ## Assemblies -/

namespace Assembler

/-- The actions with all files included and all macro calls expanded. -/
def expanded (asm : Assembler) (actions : List Action) : SessionM (List Action) := do
  asm.notePass .includes actions
  let seq ← asm.resolveIncludes includeDepth actions
  asm.notePass .macros seq
  let seq ← asm.expandMacros seq
  asm.notePass .gather seq
  pure seq

theorem assemble_eq_expanded (asm : Assembler) (actions : List Action) :
    asm.assemble actions = asm.expanded actions >>= fun seq => asm.gather seq >>= fun p =>
      match Code.ofActions p.1 with
      | .error err => throw err
      | .ok code => withEngine p.2 (runPasses asm.verbose code) >>= fun e => pure ⟨code, e⟩ := by
  unfold expanded
  simp only [bind_assoc, pure_bind]
  rfl

/-- Gathering fails because of an action. -/
theorem gather_eq_error {asm : Assembler} {acts : List Action} {s s' : Session} {err : Error}
    (h : asm.gather acts s = .error err s') : Gather.Blames acts err := by
  unfold gather at h
  rcases bind_eq_error.mp h with hlabels | ⟨labels, s₁, hlabels, hdeclare⟩
  · unfold withIds at hlabels
    split at hlabels
    · cases hlabels
    · rename_i hnumber
      cases hlabels
      obtain ⟨before, a, after, name, rfl, hop, htwice, rfl⟩ := Gather.numberLabels_eq_error hnumber
      exact .twice rfl hop (htwice.resolve_left (by simp))
  · unfold withIds at hlabels
    split at hlabels
    · rename_i hnumber
      cases hlabels
      cases hrun : Gather.declareAll labels "" acts { verbose := asm.verbose } with
      | error err' e' =>
          simp only [hrun] at hdeclare
          cases hdeclare
          exact Gather.declareAll_eq_error
            (fun name hname => Gather.lookup_of_numberLabels hnumber hname) (List.Subset.refl _) hrun
      | ok seq e' =>
          simp only [hrun] at hdeclare
          rcases bind_eq_error.mp hdeclare with hnote | ⟨_, _, -, hpure⟩
          · cases hnote
          · cases hpure
    · cases hlabels

/-- How an assembly fails once its actions are expanded. -/
inductive Failure (asm : Assembler) (seq : List Action) (s : Session) : Error → Prop
  /-- Gathering the symbols fails. -/
  | gathering {err : Error} : Gather.Blames seq err → Failure asm seq s err
  /-- An action has no place in code. -/
  | coding {gathered : List Action} {e : Engine} {s' : Session} {err : Error} :
      asm.gather seq s = .ok (gathered, e) s' → Code.ofActions gathered = .error err →
      Failure asm seq s err
  /-- A pass fails. -/
  | running {gathered : List Action} {e : Engine} {s' : Session} {code : Code} {err : Error} :
      asm.gather seq s = .ok (gathered, e) s' → Code.ofActions gathered = .ok code →
      code.Blames err → Failure asm seq s err
  /-- The passes do not converge. -/
  | unsettled : Failure asm seq s .notConverged

/-- Once its actions are expanded, an assembly has no other failures. -/
theorem Failure.of_assemble {asm : Assembler} {actions seq : List Action} {s s₁ s' : Session}
    {err : Error} (hexpanded : asm.expanded actions s = .ok seq s₁)
    (h : asm.assemble actions s = .error err s') : asm.Failure seq s₁ err := by
  rw [assemble_eq_expanded, bind_of_ok hexpanded] at h
  rcases bind_eq_error.mp h with hgather | ⟨⟨gathered, e⟩, s₂, hgather, h⟩
  · exact .gathering (gather_eq_error hgather)
  cases hcode : Code.ofActions gathered with
  | error err' =>
      simp only [hcode] at h
      cases h
      exact .coding hgather hcode
  | ok code =>
      simp only [hcode] at h
      rcases bind_eq_error.mp h with hengine | ⟨_, _, -, hpure⟩
      · unfold withEngine at hengine
        split at hengine
        · cases hengine
        · rename_i hpasses
          cases hengine
          rcases runPasses_eq_error hpasses with ⟨_, hw⟩ | ⟨_, _, -, hf⟩ | ⟨_, _, _, -, -, hn⟩ | rfl
          · exact .running hgather hcode (.of_runPass hw)
          · exact .running hgather hcode (.of_runPass hf)
          · exact .running hgather hcode (.of_runPass hn)
          · exact .unsettled
      · cases hpure

/-- A failure has at most one location, and at most one macro call. -/
theorem Failure.countP {asm : Assembler} {seq : List Action} {s : Session} {err : Error}
    (h : asm.Failure seq s err) :
    err.chain.countP Error.isLocated ≤ 1 ∧ err.chain.countP Error.isExpanding ≤ 1 := by
  cases h with
  | gathering h => exact ⟨Nat.le_of_eq h.countP.1, h.countP.2⟩
  | running _ _ h => exact ⟨Nat.le_of_eq h.countP.1, h.countP.2⟩
  | coding _ hcode =>
      unfold Code.ofActions at hcode
      split at hcode
      · cases hcode
        exact ⟨Nat.le_refl 1, Nat.zero_le 1⟩
      · cases hcode
  | unsettled => exact ⟨Nat.zero_le 1, Nat.zero_le 1⟩

/-- The errors of an assembly whose macro calls are expanded.  What fails in
gathering or in a pass is blamed on one action: the error gives its location and,
if it was instantiated from a macro, names the call, except for a `.LABEL` that
stands twice and a `.GOTO` that leads nowhere, whose macro call is left out.  No
error has a second location or a second macro call. -/
theorem expanded_failures (asm : Assembler) (actions seq : List Action) (s s₁ s' : Session)
    (err : Error) (hexpanded : asm.expanded actions s = .ok seq s₁)
    (h : asm.assemble actions s = .error err s') :
    asm.Failure seq s₁ err ∧ err.chain.countP Error.isLocated ≤ 1 ∧
      err.chain.countP Error.isExpanding ≤ 1 := by
  have hfailure := Failure.of_assemble hexpanded h
  exact ⟨hfailure, hfailure.countP⟩

/-- A macro that reads a name which nothing defines, called on line 5. -/
def unknownSource : List Text.Glyph :=
  Text.Glyph.ofString ".MACRO M\nX = Y\n.ENDMACRO\n@ = $1000\n.CALL M\n"

/-- The read is blamed on its line and on the call. -/
theorem expanded_failures_unknownSource :
    ∃ actions t seq s₁ err s', ({} : Reader).actions "main.s" unknownSource {} = .ok actions t ∧
      ({} : Assembler).expanded actions t = .ok seq s₁ ∧
      ({} : Assembler).assemble actions t = .error err s' ∧
      err = .expanding "M" ⟨"main.s", 5⟩ (.located ⟨"main.s", 2⟩ (.undefinedSymbol "Y")) ∧
      ({} : Assembler).Failure seq s₁ err ∧ err.chain.countP Error.isLocated ≤ 1 ∧
      err.chain.countP Error.isExpanding ≤ 1 := by
  have hrun : isOkWith (fun actions t =>
      isOkWith (fun _ _ => error? (({} : Assembler).assemble actions t) ==
          some (.expanding "M" ⟨"main.s", 5⟩ (.located ⟨"main.s", 2⟩ (.undefinedSymbol "Y"))))
        (({} : Assembler).expanded actions t))
      (({} : Reader).actions "main.s" unknownSource {}) = true := by
    decide +kernel
  obtain ⟨actions, t, hread, hrun⟩ := exists_of_isOkWith hrun
  obtain ⟨seq, s₁, hexpanded, hrun⟩ := exists_of_isOkWith hrun
  obtain ⟨s', hassemble⟩ := eq_error_of_error? (eq_of_beq hrun)
  exact ⟨actions, t, seq, s₁, _, s', hread, hexpanded, hassemble, rfl,
    expanded_failures {} actions seq t s₁ s' _ hexpanded hassemble⟩

/-- A macro whose `.GOTO` leads nowhere, called on line 5. -/
def straySource : List Text.Glyph :=
  Text.Glyph.ofString ".MACRO M\n.GOTO NOWHERE\n.ENDMACRO\n@ = $1000\n.CALL M\n"

/-- The `.GOTO` was instantiated from the macro, but the error does not name the
call. -/
theorem stray_goto_call_left_out :
    ∃ actions t seq s₁ s', ({} : Reader).actions "main.s" straySource {} = .ok actions t ∧
      ({} : Assembler).expanded actions t = .ok seq s₁ ∧
      (∃ a ∈ seq, a.location = ⟨"main.s", 2⟩ ∧ a.op.kind = .goto ∧
        a.expansion = some ⟨"M", ⟨"main.s", 5⟩, 1⟩) ∧
      ({} : Assembler).assemble actions t =
        .error (.located ⟨"main.s", 2⟩ (.unknownMetaLabel "NOWHERE")) s' := by
  have hrun : isOkWith (fun actions t =>
      isOkWith (fun seq _ => (seq.any fun a => a.location == ⟨"main.s", 2⟩ &&
            a.op.kind == .goto && a.expansion == some ⟨"M", ⟨"main.s", 5⟩, 1⟩) &&
          error? (({} : Assembler).assemble actions t) ==
            some (.located ⟨"main.s", 2⟩ (.unknownMetaLabel "NOWHERE")))
        (({} : Assembler).expanded actions t))
      (({} : Reader).actions "main.s" straySource {}) = true := by
    decide +kernel
  obtain ⟨actions, t, hread, hrun⟩ := exists_of_isOkWith hrun
  obtain ⟨seq, s₁, hexpanded, hrun⟩ := exists_of_isOkWith hrun
  obtain ⟨hgoto, herror⟩ := Bool.and_eq_true_iff.mp hrun
  obtain ⟨s', hassemble⟩ := eq_error_of_error? (eq_of_beq herror)
  obtain ⟨a, ha, hgoto⟩ := List.any_eq_true.mp hgoto
  simp only [Bool.and_eq_true, beq_iff_eq] at hgoto
  exact ⟨actions, t, seq, s₁, s', hread, hexpanded,
    ⟨a, ha, hgoto.1.1, hgoto.1.2, hgoto.2⟩, hassemble⟩

end Assembler

end Mos6510
