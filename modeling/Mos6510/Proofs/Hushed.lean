import Mos6510.Proofs.RelabelledSources

/-!
# Programs with messages taken out

A program may say less and be the same otherwise: `Hushed acts acts'` says that
`acts'` are the actions `acts` without some of their notices, the messages that do
not stop an assembly, be they in the program itself or in the body of a macro.

Nothing that happens to a program before it is executed depends on its notices:
their arguments are texts and expressions, so they define no symbol, and they have
neither jump nor counter.

* `Assembler.resolveIncludes_hushed`, `Assembler.expandMacros_hushed`,
  `Assembler.gather_hushed`: each stage takes a hushed program the way of the full
  one, and fails with the same error;
* `Code.Hushes`: what becomes of the code;
* `Assembler.prepare_hushed`: the code of a hushed program is the hushed code, and its
  symbols are the same.
-/

namespace Mos6510

open Outcome

/-! ## Taking notices out -/

/-- Does the action show a message that does not stop the assembly? -/
def Op.isNotice : Op → Bool
  | .message level _ _ => level != .error
  | _ => false

/-- The second program is the first one without some of its notices, also without
some of those in the bodies of its macros. -/
inductive Hushed : List Action → List Action → Prop
  | nil : Hushed [] []
  | keep (a : Action) {acts acts' : List Action} : Hushed acts acts' →
      Hushed (a :: acts) (a :: acts')
  | drop {a : Action} {acts acts' : List Action} : a.op.isNotice = true → Hushed acts acts' →
      Hushed (a :: acts) acts'
  | body {loc : Location} {name : String} {params : List String} {body body' : List Action}
      {x : Option Expansion} {acts acts' : List Action} : Hushed body body' → Hushed acts acts' →
      Hushed (⟨loc, .defineMacro name params body, x⟩ :: acts)
        (⟨loc, .defineMacro name params body', x⟩ :: acts')

theorem Op.exists_of_isNotice {op : Op} (h : op.isNotice = true) :
    ∃ level formatted args, op = .message level formatted args ∧ level ≠ .error := by
  cases op with
  | message level formatted args => exact ⟨level, formatted, args, rfl, by simpa [isNotice] using h⟩
  | _ => cases h

/-- What is read off actions is read neither off messages nor off bodies of macros. -/
structure Deaf {α : Type} (f : Action → Option α) : Prop where
  message : ∀ loc level formatted args x, f ⟨loc, .message level formatted args, x⟩ = none
  body : ∀ loc name params body body' x,
    f ⟨loc, .defineMacro name params body, x⟩ = f ⟨loc, .defineMacro name params body', x⟩

namespace Hushed

variable {acts acts' bs bs' : List Action}

theorem refl (acts : List Action) : Hushed acts acts := by
  induction acts with
  | nil => exact .nil
  | cons a rest ih => exact .keep a ih

theorem append (h : Hushed acts acts') (hbs : Hushed bs bs') : Hushed (acts ++ bs) (acts' ++ bs') := by
  induction h with
  | nil => exact hbs
  | keep a _ ih => exact .keep a ih
  | drop ha _ ih => exact .drop ha ih
  | body hbody _ _ ih => exact .body hbody ih

/-- What is neither a message nor in the body of a macro is still there. -/
theorem filterMap_eq {α : Type} {f : Action → Option α} (hf : Deaf f) (h : Hushed acts acts') :
    acts.filterMap f = acts'.filterMap f := by
  induction h with
  | nil => rfl
  | keep a _ ih => rw [List.filterMap_cons, List.filterMap_cons, ih]
  | @drop a _ _ ha _ ih =>
      obtain ⟨loc, op, x⟩ := a
      obtain ⟨level, formatted, args, rfl, -⟩ := Op.exists_of_isNotice ha
      rw [List.filterMap_cons, hf.message, ih]
  | @body loc name params body body' x _ _ _ _ _ ih =>
      rw [List.filterMap_cons, List.filterMap_cons, hf.body loc name params body body' x, ih]

/-- A renaming of symbols reads neither notices nor macros in a way that matters. -/
theorem mapSymbols (f : String → String) (h : Hushed acts acts') :
    Hushed (mapSymbolsAll f acts) (mapSymbolsAll f acts') := by
  induction h with
  | nil => exact .nil
  | keep a _ ih => exact .keep _ ih
  | @drop a _ _ ha _ ih =>
      obtain ⟨loc, op, x⟩ := a
      refine .drop ?_ ih
      cases op <;> exact ha
  | body hbody _ _ ih => exact .body hbody ih

end Hushed

mutual

/-- The action without any notice in it. -/
def Action.silenced : Action → Action
  | ⟨loc, op, x⟩ => ⟨loc, op.silenced, x⟩

def Op.silenced : Op → Op
  | .defineMacro name params body => .defineMacro name params (silence body)
  | op => op

/-- The actions without any notice. -/
def silence : List Action → List Action
  | [] => []
  | a :: rest => if a.op.isNotice then silence rest else a.silenced :: silence rest

end

theorem hushed_silence : ∀ acts, Hushed acts (silence acts)
  | [] => by
      rw [silence]
      exact .nil
  | ⟨loc, op, x⟩ :: rest => by
      have hrest := hushed_silence rest
      rw [silence]
      split
      · exact .drop ‹_› hrest
      · rw [Action.silenced]
        cases op with
        | defineMacro name params body =>
            rw [Op.silenced]
            exact .body (hushed_silence body) hrest
        | _ =>
            rw [Op.silenced]
            · exact .keep _ hrest
            · exact fun _ _ _ h => nomatch h

/-- A notice in front of what is related is dropped. -/
theorem InStep.dropping {σ : Type} {E : Error → Error → Prop} {R : σ → σ → Prop} {a : Action}
    {m m' : EStateM Error σ (List Action)} (h : InStep E R m m' (Both Hushed R))
    (ha : a.op.isNotice = true) :
    InStep E R (m >>= fun acts => Pure.pure (a :: acts)) m' (Both Hushed R) := by
  have hpure : InStep E R (m >>= fun acts => Pure.pure (a :: acts)) (m' >>= Pure.pure)
      (Both Hushed R) :=
    h.andThen fun acts acts' hacts => InStep.pure fun _ _ h => ⟨.drop ha hacts, h⟩
  rwa [bind_pure] at hpure

/-! ## Macros -/

theorem definedNamesAll_of_computes {acts : List Action} (h : Computes acts) :
    definedNamesAll acts = [] := by
  induction acts with
  | nil => rfl
  | cons a rest ih =>
      obtain ⟨ha, hrest⟩ := List.forall_mem_cons.mp h
      obtain ⟨loc, op, x⟩ := a
      rw [definedNamesAll, ih hrest]
      cases op <;> first | rfl | cases ha

theorem definedNamesArgs_of_messageArgs {args : List (List Action)}
    (h : ∀ arg ∈ args, IsMessageArg arg) : definedNamesArgs args = [] := by
  induction args with
  | nil => rfl
  | cons arg rest ih =>
      obtain ⟨harg, hrest⟩ := List.forall_mem_cons.mp h
      have hnone : definedNamesAll arg = [] := by
        rcases harg with ⟨loc, s, rfl⟩ | hexpr
        · rfl
        · exact definedNamesAll_of_computes hexpr.computes
      rw [definedNamesArgs, hnone, ih hrest]
      rfl

/-- A message defines no symbol. -/
theorem Op.definedNames_message {level : Level} {formatted : Bool} {args : List (List Action)}
    (h : (Op.message level formatted args).Sound) :
    (Op.message level formatted args).definedNames = [] := by
  cases h with
  | message hargs => exact definedNamesArgs_of_messageArgs hargs
  | flat hflat => cases hflat

theorem Hushed.definedNames_eq {acts acts' : List Action} (h : Hushed acts acts')
    (hsound : AllSound acts) : definedNamesAll acts = definedNamesAll acts' := by
  induction h with
  | nil => rfl
  | keep a _ ih =>
      rw [definedNamesAll, definedNamesAll, ih (List.forall_mem_cons.mp hsound).2]
  | @drop a _ _ ha _ ih =>
      obtain ⟨hhead, hrest⟩ := List.forall_mem_cons.mp hsound
      obtain ⟨loc, op, x⟩ := a
      obtain ⟨level, formatted, args, rfl, -⟩ := Op.exists_of_isNotice ha
      rw [definedNamesAll, Action.definedNames, Op.definedNames_message hhead, ih hrest]
      rfl
  | body _ _ _ ih =>
      rw [definedNamesAll, definedNamesAll, ih (List.forall_mem_cons.mp hsound).2]
      rfl

/-- Two results that `A` relates, or the same error. -/
inductive Outcome.Parallel {α β : Type} (A : α → β → Prop) : Except Error α → Except Error β → Prop
  | ok {a : α} {b : β} : A a b → Parallel A (.ok a) (.ok b)
  | error (err : Error) : Parallel A (.error err) (.error err)

namespace MacroDef

/-- The second macro is the first with a body that is hushed. -/
def Hushes (m m' : MacroDef) : Prop := ∃ body, Hushed m.body body ∧ m' = { m with body := body }

/-- A macro has the same names, jumps and counters without its notices. -/
theorem make_hushes (loc : Location) (name : String) (params : List String) {body body' : List Action}
    (h : Hushed body body') (hsound : AllSound body) :
    (make loc name params body).Hushes (make loc name params body') := by
  unfold make
  rw [← h.definedNames_eq hsound]
  exact ⟨_, h.mapSymbols _, rfl⟩

section

variable {m m' : MacroDef} (h : m.Hushes m')

include h

theorem targets_hushed : m'.targets = m.targets := by
  obtain ⟨body, hbody, rfl⟩ := h
  exact (hbody.filterMap_eq ⟨fun _ _ _ _ _ => rfl, fun _ _ _ _ _ _ => rfl⟩).symm

theorem counters_hushed : m'.counters = m.counters := by
  obtain ⟨body, hbody, rfl⟩ := h
  exact (hbody.filterMap_eq ⟨fun _ _ _ _ _ => rfl, fun _ _ _ _ _ _ => rfl⟩).symm

theorem metaLabels_hushed : m'.metaLabels = m.metaLabels := by
  obtain ⟨body, hbody, rfl⟩ := h
  exact (hbody.filterMap_eq ⟨fun _ _ _ _ _ => rfl, fun _ _ _ _ _ _ => rfl⟩).symm

theorem renumber_hushed (seq : Nat) (jumps counters : List (Int × Nat)) (a : Action) :
    m'.renumber seq jumps counters a = m.renumber seq jumps counters a := by
  have hmeta : ∀ name, m'.bindMetaLabel seq name = m.bindMetaLabel seq name := by
    intro name
    unfold bindMetaLabel
    rw [metaLabels_hushed h]
  unfold renumber
  simp only [hmeta]

theorem bindName_hushed (seq : Nat) : m'.bindName seq = m.bindName seq := by
  obtain ⟨body, -, rfl⟩ := h
  rfl

/-- The body without its notices is bound to what the body is bound to, without them. -/
theorem bindBody_hushed (seq : Nat) (jumps counters : List (Int × Nat)) (x : Expansion)
    {body body' : List Action} (hbody : Hushed body body') :
    Parallel Hushed (m.bindBody seq jumps counters x body) (m'.bindBody seq jumps counters x body') := by
  induction hbody with
  | nil => exact .ok .nil
  | @keep a body body' _ ih =>
      simp only [bindBody, renumber_hushed h, bindName_hushed h]
      cases m.renumber seq jumps counters a with
      | error err => exact .error _
      | ok op =>
          generalize m.bindBody seq jumps counters x body = r at ih ⊢
          generalize m'.bindBody seq jumps counters x body' = r' at ih ⊢
          cases ih with
          | ok hacts => exact .ok (.keep _ hacts)
          | error err => exact .error err
  | @drop a body body' ha _ ih =>
      obtain ⟨loc, op, y⟩ := a
      obtain ⟨level, formatted, args, rfl, -⟩ := Op.exists_of_isNotice ha
      simp only [bindBody, renumber]
      generalize m.bindBody seq jumps counters x body = r at ih ⊢
      generalize m'.bindBody seq jumps counters x body' = r' at ih ⊢
      cases ih with
      | ok hacts => exact .ok (.drop ha hacts)
      | error err => exact .error err
  | @body loc name params inner inner' y body body' hinner _ _ ih =>
      simp only [bindBody, renumber]
      generalize m.bindBody seq jumps counters x body = r at ih ⊢
      generalize m'.bindBody seq jumps counters x body' = r' at ih ⊢
      cases ih with
      | ok hacts => exact .ok (.body hinner hacts)
      | error err => exact .error err

/-- A call of the macro takes the same numbers, and makes the same actions but for
notices. -/
theorem instantiate_hushed (loc : Location) (args : List (List Action)) (seq : Nat) :
    InStep Eq Eq (m.instantiate loc args seq) (m'.instantiate loc args seq) (Both Hushed Eq) := by
  rintro ids _ rfl
  have htargets := targets_hushed h
  have hcounters := counters_hushed h
  have hhead : Hushed m.body m'.body ∧ m'.name = m.name ∧ m'.params = m.params ∧
      m'.anchor seq = m.anchor seq := by
    obtain ⟨body, hbody, rfl⟩ := h
    exact ⟨hbody, rfl, rfl, rfl⟩
  obtain ⟨hbody, hname, hparams, hanchor⟩ := hhead
  unfold instantiate
  simp only [htargets, hcounters, hname, hparams, hanchor]
  split
  · exact .error rfl
  · have hbind := bindBody_hushed h seq (freshNumbers ids.jump m.targets)
      (freshNumbers ids.counter m.counters) { name := m.name, call := loc, seq := seq } hbody
    generalize m.bindBody _ _ _ _ m.body = r at hbind ⊢
    generalize m'.bindBody _ _ _ _ m'.body = r' at hbind ⊢
    cases hbind with
    | ok hacts => exact .ok ⟨.keep _ ((Hushed.refl _).append hacts), rfl⟩
    | error err => exact .error rfl

end

end MacroDef

/-! ## Sessions that report differently -/

/-- Two sessions that have given out the same numbers and know the same includers. -/
structure Session.Beside (s t : Session) : Prop where
  ids : t.ids = s.ids
  includers : t.includers = s.includers

theorem Session.Beside.refl (s : Session) : s.Beside s := ⟨rfl, rfl⟩

section

variable {s t : Session}

theorem Assembler.withIds_beside {α β : Type} {A : α → β → Prop} {m : EStateM Error Ids α}
    {m' : EStateM Error Ids β} (h : InStep Eq Eq m m' (Both A Eq)) :
    InStep Eq Session.Beside (withIds m) (withIds m') (Both A Session.Beside) := by
  intro s t hst
  unfold withIds
  have hagree := h (s := s.ids) (t := t.ids) hst.ids.symm
  cases hm : m s.ids <;> cases hm' : m' t.ids <;> rw [hm, hm'] at hagree <;> cases hagree
  · rename_i h
    exact .ok ⟨h.1, h.2.symm, hst.includers⟩
  · rename_i h
    exact .error h

theorem Assembler.note_beside (asm : Assembler) (entry entry' : String) :
    InStep Eq Session.Beside (asm.note entry) (asm.note entry') (Same Session.Beside) :=
  fun _ _ h => .ok ⟨rfl, h.ids, h.includers⟩

/-- What a session reports has no part in reading a file. -/
theorem Reader.actions_beside (r : Reader) (file : String) (text : List Text.Glyph) :
    InStep Eq Session.Beside (r.actions file text) (r.actions file text) (Same Session.Beside) := by
  unfold actions
  dsimp only
  split
  · exact InStep.throw rfl
  · refine InStep.andThen (A := fun _ _ => True) (R := Session.Beside)
      (fun _ _ h => .ok ⟨trivial, h.ids, h.includers⟩) fun _ _ _ => ?_
    refine Assembler.withIds_beside ?_
    rintro ids _ rfl
    dsimp only
    split
    · exact .error rfl
    · split
      · exact .error rfl
      · split
        · exact .ok ⟨rfl, rfl⟩
        · exact .error rfl

namespace Loader

variable (ld : Loader) (name : String) (loc : Location)

theorem resolve_beside :
    InStep Eq Session.Beside (ld.resolve name loc) (ld.resolve name loc) (Same Session.Beside) :=
  resolve_inStep fun _ _ _ _ h => ⟨h.ids, h.includers⟩

theorem noteReading_beside (file : String) :
    InStep Eq Session.Beside (ld.noteReading loc file) (ld.noteReading loc file)
      (Same Session.Beside) :=
  fun _ _ h => .ok ⟨rfl, h.ids, h.includers⟩

theorem read_beside (file : String) :
    InStep Eq Session.Beside (ld.read loc file) (ld.read loc file) (Same Session.Beside) := by
  unfold read
  refine (ld.noteReading_beside loc file).andThen fun _ _ _ => ?_
  cases ld.library.source file with
  | error err => exact InStep.throw rfl
  | ok bytes => exact ld.reader.actions_beside file _

theorem source_beside :
    InStep Eq Session.Beside (ld.source name loc) (ld.source name loc) (Same Session.Beside) := by
  unfold source
  refine (ld.resolve_beside name loc).andThen fun file _ hfile => ?_
  rw [hfile]
  refine InStep.bind (Q := fun a s b t => a = s ∧ b = t ∧ s.Beside t)
    (fun _ _ h => .ok ⟨rfl, rfl, h⟩) fun s t => ?_
  rintro _ _ ⟨rfl, rfl, hst⟩
  rw [hst.includers]
  split
  · exact .error rfl
  · exact ld.read_beside loc file ⟨hst.ids, congrArg ((file, loc.file) :: ·) hst.includers⟩

theorem binary_beside :
    InStep Eq Session.Beside (ld.binary name loc) (ld.binary name loc) (Same Session.Beside) := by
  unfold binary
  refine (ld.resolve_beside name loc).andThen fun file _ hfile => ?_
  rw [hfile]
  refine (ld.noteReading_beside loc file).andThen fun _ _ _ => ?_
  cases ld.library.binary file with
  | error err => exact InStep.throw rfl
  | ok bytes => exact InStep.pure fun _ _ h => ⟨rfl, h⟩

end Loader

end

/-! ## Includes -/

/-- What is to become of the actions of an included file, by its name and the place
of the include. -/
abbrev Edit : Type := String → Location → List Action → List Action

/-- The edit takes nothing out but notices. -/
def Edit.Hushes (f : Edit) : Prop := ∀ name loc acts, Hushed acts (f name loc acts)

/-- An includer that edits the sources it reads. -/
def Includer.edited (f : Edit) (inc : Includer) : Includer where
  source := fun name loc => do
    let acts ← inc.source name loc
    pure (f name loc acts)
  binary := inc.binary

namespace Assembler

/-- An assembly with included sources edited. -/
def edited (f : Edit) (asm : Assembler) : Assembler where
  verbose := asm.verbose
  includer := asm.includer.map (Includer.edited f)

/-- Where each action is replaced by what it was, without notices, and each notice is
kept, a hushed program is replaced by what the program was, without notices. -/
theorem replaceEach_hushed {f g : Action → SessionM (List Action)}
    (hnotice : ∀ a, a.op.isNotice = true → f a = pure [a])
    (hkeep : ∀ a, InStep Eq Session.Beside (f a) (g a) (Both Hushed Session.Beside))
    (hbody : ∀ loc name params body body' x, Hushed body body' →
      InStep Eq Session.Beside (f ⟨loc, .defineMacro name params body, x⟩)
        (g ⟨loc, .defineMacro name params body', x⟩) (Both Hushed Session.Beside))
    {acts acts' : List Action} (h : Hushed acts acts') :
    InStep Eq Session.Beside (replaceEach f acts) (replaceEach g acts')
      (Both Hushed Session.Beside) := by
  induction h with
  | nil => exact InStep.pure fun _ _ h => ⟨.nil, h⟩
  | keep a _ ih =>
      rw [replaceEach, replaceEach]
      exact (hkeep a).andThen fun as as' has => ih.andThen fun bs bs' hbs =>
        InStep.pure fun _ _ h => ⟨has.append hbs, h⟩
  | @drop a acts acts' ha _ ih =>
      rw [replaceEach, hnotice a ha, pure_bind]
      exact ih.dropping ha
  | body hinner _ _ ih =>
      rw [replaceEach, replaceEach]
      exact (hbody _ _ _ _ _ _ hinner).andThen fun as as' has => ih.andThen fun bs bs' hbs =>
        InStep.pure fun _ _ h => ⟨has.append hbs, h⟩

section

variable {asm : Assembler} {ld : Loader} {f : Edit}

theorem replaceInclude_hushed (hf : f.Hushes)
    (hinc : ∀ inc, asm.includer = some inc → inc = ld.includer)
    {nested nested' : Option (List Action → SessionM (List Action))}
    (hnested : Option.Rel (fun g g' => ∀ acts acts', Hushed acts acts' →
      InStep Eq Session.Beside (g acts) (g' acts') (Both Hushed Session.Beside)) nested nested')
    (a : Action) :
    InStep Eq Session.Beside (asm.replaceInclude nested a) ((asm.edited f).replaceInclude nested' a)
      (Both Hushed Session.Beside) := by
  have hlocated : ∀ (loc : Location) (err err' : Error), err = err' →
      err.atLocation loc = err'.atLocation loc := fun _ _ _ h => h ▸ rfl
  obtain ⟨loc, op, x⟩ := a
  cases op with
  | includeSource name =>
      unfold replaceInclude
      cases hasm : asm.includer with
      | none =>
          simp only [edited, hasm, Option.map_none]
          exact InStep.throw rfl
      | some inc =>
          simp only [edited, hasm, Option.map_some]
          obtain rfl := hinc inc hasm
          cases hnested with
          | none => exact InStep.throw rfl
          | some hg =>
              have hsource : InStep Eq Session.Beside (ld.includer.source name loc)
                  ((Includer.edited f ld.includer).source name loc) (Both Hushed Session.Beside) := by
                -- the loader reads the same actions in both sessions, and the second edits them
                have hpure : InStep Eq Session.Beside (ld.source name loc >>= pure)
                    ((Includer.edited f ld.includer).source name loc)
                    (Both Hushed Session.Beside) := by
                  refine (ld.source_beside name loc).andThen fun acts acts' hacts => ?_
                  rw [hacts]
                  exact InStep.pure fun _ _ h => ⟨hf name loc acts, h⟩
                rwa [bind_pure] at hpure
              exact (hsource.located (hlocated loc)).andThen fun acts acts' hacts =>
                (note_beside asm _ _).andThen fun _ _ _ => hg acts acts' hacts
  | includeBinary name args =>
      unfold replaceInclude
      cases hasm : asm.includer with
      | none =>
          simp only [edited, hasm, Option.map_none]
          exact InStep.throw rfl
      | some inc =>
          simp only [edited, hasm, Option.map_some]
          obtain rfl := hinc inc hasm
          refine ((ld.binary_beside name loc).located (hlocated loc)).andThen
            fun bytes bytes' hbytes => ?_
          rw [hbytes]
          exact (note_beside asm _ _).andThen fun _ _ _ =>
            InStep.pure fun _ _ h => ⟨.refl _, h⟩
  | _ => exact InStep.pure fun _ _ h => ⟨.refl _, h⟩

/-- Includes are resolved alike, up to notices. -/
theorem resolveIncludes_hushed (hf : f.Hushes)
    (hinc : ∀ inc, asm.includer = some inc → inc = ld.includer) (levels : Nat)
    {acts acts' : List Action} (h : Hushed acts acts') :
    InStep Eq Session.Beside (asm.resolveIncludes levels acts)
      ((asm.edited f).resolveIncludes levels acts') (Both Hushed Session.Beside) := by
  have hnotice : ∀ nested a, a.op.isNotice = true → asm.replaceInclude nested a = pure [a] := by
    rintro nested ⟨loc, op, x⟩ ha
    obtain ⟨level, formatted, args, rfl, -⟩ := Op.exists_of_isNotice ha
    rfl
  induction levels generalizing acts acts' with
  | zero =>
      rw [resolveIncludes, resolveIncludes]
      refine replaceEach_hushed (hnotice _) (replaceInclude_hushed hf hinc .none) ?_ h
      exact fun _ _ _ _ _ _ hbody => InStep.pure fun _ _ h => ⟨.body hbody .nil, h⟩
  | succ levels ih =>
      rw [resolveIncludes, resolveIncludes]
      refine replaceEach_hushed (hnotice _)
        (replaceInclude_hushed hf hinc (.some fun _ _ h => ih h)) ?_ h
      exact fun _ _ _ _ _ _ hbody => InStep.pure fun _ _ h => ⟨.body hbody .nil, h⟩

end

end Assembler

/-! ## Macros and symbols -/

/-- Two tables of the same macros, up to notices. -/
def MacrosHush : List (String × MacroDef) → List (String × MacroDef) → Prop :=
  List.Forall₂ fun p p' => p.1 = p'.1 ∧ p.2.Hushes p'.2

theorem MacrosHush.lookup {known known' : List (String × MacroDef)} (h : MacrosHush known known')
    (name : String) : Option.Rel MacroDef.Hushes (known.lookup name) (known'.lookup name) := by
  induction h with
  | nil => exact .none
  | @cons p p' _ _ hp _ ih =>
      obtain ⟨n, m⟩ := p
      obtain ⟨n', m'⟩ := p'
      obtain ⟨rfl, hm⟩ := hp
      simp only [List.lookup_cons]
      cases name == n with
      | true => exact .some hm
      | false => exact ih

namespace Assembler

theorem collectMacros_define_hushed {loc : Location} {name : String} {params : List String}
    {body body' : List Action} {x : Option Expansion} {acts acts' : List Action}
    (hbody : Hushed body body') (hsound : AllSound body)
    (hrest : ∀ {known known'}, MacrosHush known known' →
      Parallel MacrosHush (collectMacros acts known) (collectMacros acts' known'))
    {known known' : List (String × MacroDef)} (hknown : MacrosHush known known') :
    Parallel MacrosHush (collectMacros (⟨loc, .defineMacro name params body, x⟩ :: acts) known)
      (collectMacros (⟨loc, .defineMacro name params body', x⟩ :: acts') known') := by
  have hlookup := hknown.lookup name
  simp only [collectMacros]
  generalize known.lookup name = r at hlookup ⊢
  generalize known'.lookup name = r' at hlookup ⊢
  cases hlookup with
  | none => exact hrest (.cons ⟨rfl, MacroDef.make_hushes loc name params hbody hsound⟩ hknown)
  | some => exact .error _

/-- A hushed program defines the same macros, or the same one twice. -/
theorem collectMacros_hushed {acts acts' : List Action} (h : Hushed acts acts')
    (hsound : AllSound acts) {known known' : List (String × MacroDef)}
    (hknown : MacrosHush known known') :
    Parallel MacrosHush (collectMacros acts known) (collectMacros acts' known') := by
  -- the body of a definition is sound with the action that holds it
  have hinner : ∀ {name params body}, (Op.defineMacro name params body).Sound → AllSound body := by
    intro name params body h
    cases h with
    | defineMacro hbody => exact hbody
    | flat hflat => cases hflat
  induction h generalizing known known' with
  | nil => exact .ok hknown
  | @keep a acts acts' _ ih =>
      obtain ⟨ha, hrest⟩ := List.forall_mem_cons.mp hsound
      obtain ⟨loc, op, x⟩ := a
      cases op with
      | defineMacro name params body =>
          exact collectMacros_define_hushed (.refl body) (hinner ha) (ih hrest) hknown
      | _ => exact ih hrest hknown
  | @drop a acts acts' ha _ ih =>
      obtain ⟨-, hrest⟩ := List.forall_mem_cons.mp hsound
      obtain ⟨loc, op, x⟩ := a
      obtain ⟨level, formatted, args, rfl, -⟩ := Op.exists_of_isNotice ha
      exact ih hrest hknown
  | body hbody _ _ ih =>
      obtain ⟨ha, hrest⟩ := List.forall_mem_cons.mp hsound
      exact collectMacros_define_hushed hbody (hinner ha) (ih hrest) hknown

theorem nextSeq_beside : InStep Eq Session.Beside nextSeq nextSeq (Same Session.Beside) := by
  intro s t h
  refine .ok ⟨by rw [h.ids], ⟨?_, h.includers⟩⟩
  show Ids.mk t.ids.jump t.ids.counter (t.ids.seq + 1) = _
  rw [h.ids]

section

variable (asm asm' : Assembler)

theorem replaceCall_hushed {known known' : List (String × MacroDef)}
    (hknown : MacrosHush known known') (a : Action) :
    InStep Eq Session.Beside (asm.replaceCall known a) (asm'.replaceCall known' a)
      (Both Hushed Session.Beside) := by
  obtain ⟨loc, op, x⟩ := a
  cases op with
  | defineMacro => exact InStep.pure fun _ _ h => ⟨.nil, h⟩
  | callMacro name args =>
      -- a name finds a macro in both tables or in neither
      have hlookup := hknown.lookup name
      simp only [replaceCall]
      generalize known.lookup name = r at hlookup ⊢
      generalize known'.lookup name = r' at hlookup ⊢
      cases hlookup with
      | none => exact InStep.throw rfl
      | some hhushes =>
        dsimp only
        refine nextSeq_beside.andThen fun seq seq' hseq => ?_
        rw [hseq]
        refine (withIds_beside (MacroDef.instantiate_hushed hhushes loc args seq)).andThen
          fun acts acts' hacts => ?_
        exact InStep.andThen (A := fun _ _ => True) (R := Session.Beside)
          (fun _ _ h => .ok ⟨trivial, h.ids, h.includers⟩)
          fun _ _ _ => InStep.pure fun _ _ h => ⟨hacts, h⟩
  | _ => exact InStep.pure fun _ _ h => ⟨.refl _, h⟩

/-- Macros are expanded alike, up to notices. -/
theorem expandMacros_hushed {acts acts' : List Action} (h : Hushed acts acts')
    (hsound : AllSound acts) :
    InStep Eq Session.Beside (asm.expandMacros acts) (asm'.expandMacros acts')
      (Both Hushed Session.Beside) := by
  unfold expandMacros
  have hcollect := collectMacros_hushed h hsound .nil
  generalize collectMacros acts [] = r at hcollect ⊢
  generalize collectMacros acts' [] = r' at hcollect ⊢
  cases hcollect with
  | error err => exact InStep.throw rfl
  | ok hknown =>
      refine replaceEach_hushed ?_ (replaceCall_hushed asm asm' hknown) ?_ h
      · rintro ⟨loc, op, x⟩ ha
        obtain ⟨level, formatted, args, rfl, -⟩ := Op.exists_of_isNotice ha
        rfl
      · exact fun _ _ _ _ _ _ _ => InStep.pure fun _ _ h => ⟨.nil, h⟩

end

end Assembler

namespace Gather

theorem numberLabels_hushed {acts acts' : List Action} (h : Hushed acts acts')
    (known : List (String × Nat)) : numberLabels acts known = numberLabels acts' known := by
  induction h generalizing known with
  | nil => rfl
  | @keep a _ _ _ ih =>
      obtain ⟨loc, op, x⟩ := a
      simp only [numberLabels, ih]
  | @drop a _ _ ha _ ih =>
      obtain ⟨loc, op, x⟩ := a
      obtain ⟨level, formatted, args, rfl, -⟩ := Op.exists_of_isNotice ha
      exact ih known
  | body _ _ _ ih => exact ih known

/-- A hushed program declares the same symbols. -/
theorem declareAll_hushed (labels : List (String × Nat)) {acts acts' : List Action}
    (h : Hushed acts acts') (parent : String) :
    InStep Eq Eq (declareAll labels parent acts) (declareAll labels parent acts')
      (Both Hushed Eq) := by
  induction h generalizing parent with
  | nil => exact InStep.pure fun _ _ h => ⟨.nil, h⟩
  | @keep a acts acts' _ ih =>
      rw [declareAll, declareAll]
      have hsame : InStep Eq Eq (declareAction labels parent a) (declareAction labels parent a)
          (Same Eq) := by
        rintro e _ rfl
        cases declareAction labels parent a e with
        | ok r e' => exact .ok ⟨rfl, rfl⟩
        | error err e' => exact .error rfl
      refine hsame.andThen fun r _ hr => ?_
      rw [hr]
      exact (ih r.2).andThen fun as as' has => InStep.pure fun _ _ h => ⟨.keep _ has, h⟩
  | @drop a acts acts' ha _ ih =>
      obtain ⟨loc, op, x⟩ := a
      obtain ⟨level, formatted, args, rfl, -⟩ := Op.exists_of_isNotice ha
      exact (ih parent).dropping ha
  | @body loc name params body body' x acts acts' hbody _ _ ih =>
      have hcons : ∀ body acts, declareAll labels parent (⟨loc, .defineMacro name params body, x⟩ :: acts) =
          declareAll labels parent acts >>= fun rest =>
            pure (⟨loc, .defineMacro name params body, x⟩ :: rest) := fun _ _ => rfl
      rw [hcons, hcons]
      exact (ih parent).andThen fun as as' has => InStep.pure fun _ _ h => ⟨.body hbody has, h⟩

end Gather

/-- Symbols are gathered alike. -/
theorem Assembler.gather_hushed (asm : Assembler) (f : Edit) {acts acts' : List Action}
    (h : Hushed acts acts') :
    InStep Eq Session.Beside (asm.gather acts) ((asm.edited f).gather acts')
      (Both (fun p p' => Hushed p.1 p'.1 ∧ p.2 = p'.2) Session.Beside) := by
  unfold gather
  have hlabels : InStep Eq Eq (Gather.numberLabels acts []) (Gather.numberLabels acts' [])
      (Same Eq) := by
    rw [Gather.numberLabels_hushed h]
    rintro ids _ rfl
    cases Gather.numberLabels acts' [] ids with
    | ok labels ids' => exact .ok ⟨rfl, rfl⟩
    | error err ids' => exact .error rfl
  refine (withIds_beside hlabels).andThen fun labels _ hsame => ?_
  rw [hsame]
  have hengine : ({ verbose := asm.verbose } : Engine) = { verbose := (asm.edited f).verbose } := rfl
  have hdeclare := Gather.declareAll_hushed labels h "" hengine
  generalize Gather.declareAll labels "" acts { verbose := asm.verbose } = r at hdeclare ⊢
  generalize Gather.declareAll labels "" acts' { verbose := (asm.edited f).verbose } = r' at hdeclare ⊢
  cases hdeclare with
  | error herr => exact InStep.throw herr
  | ok hboth =>
      exact InStep.andThen (A := fun _ _ => True) (R := Session.Beside)
        (fun _ _ h => .ok ⟨trivial, h.ids, h.includers⟩)
        fun _ _ _ => InStep.pure fun _ _ h => ⟨hboth, h⟩

/-! ## Code -/

/-- The second code is the first one without some of its notices. -/
structure Code.Hushes (code code' : Code) : Prop where
  actions : Hushed code.actions code'.actions
  targets : ∀ j k, code.target? j = some k → ∃ k', code'.target? j = some k' ∧ Hushed k k'
  counters : code'.counters = code.counters

namespace Code

section

variable {seq seq' : List Action} (h : Hushed seq seq')

include h

theorem strip_hushed : Hushed (strip seq) (strip seq') := by
  induction h with
  | nil => exact .nil
  | @keep a _ _ _ ih =>
      obtain ⟨loc, op, x⟩ := a
      cases op with
      | target j => exact ih
      | _ => exact .keep _ ih
  | @drop a _ _ ha _ ih =>
      obtain ⟨loc, op, x⟩ := a
      obtain ⟨level, formatted, args, rfl, -⟩ := Op.exists_of_isNotice ha
      exact .drop ha ih
  | body hbody _ _ ih => exact .body hbody ih

/-- Each target stays, in front of what is left of the actions behind it. -/
theorem targetMarks_hushed :
    List.Forall₂ (fun m m' => m'.1 = m.1 ∧ Hushed m.2 m'.2) (targetMarks seq)
      (targetMarks seq') := by
  induction h with
  | nil => exact .nil
  | @keep a _ _ hrest ih =>
      obtain ⟨loc, op, x⟩ := a
      cases op with
      | target j => exact .cons ⟨rfl, strip_hushed hrest⟩ ih
      | _ => exact ih
  | @drop a _ _ ha _ ih =>
      obtain ⟨loc, op, x⟩ := a
      obtain ⟨level, formatted, args, rfl, -⟩ := Op.exists_of_isNotice ha
      exact ih
  | body _ _ _ ih => exact ih

theorem counters_hushed (n : Nat) :
    seq'.foldl (fun n a => max n (counterBound a)) n =
      seq.foldl (fun n a => max n (counterBound a)) n := by
  induction h generalizing n with
  | nil => rfl
  | keep a _ ih => exact ih _
  | @drop a _ _ ha _ ih =>
      obtain ⟨loc, op, x⟩ := a
      obtain ⟨level, formatted, args, rfl, -⟩ := Op.exists_of_isNotice ha
      rw [List.foldl_cons, ih, show counterBound _ = 0 from rfl, Nat.max_zero]
  | body _ _ _ ih => exact ih _

end

/-- The second table leads to what the first does, without some notices. -/
def TableHushes (t t' : Array (Option (List Action))) : Prop :=
  t'.size = t.size ∧ ∀ (i : Nat) k, t[i]? = some (some k) → ∃ k', t'[i]? = some (some k') ∧ Hushed k k'

theorem fill_hushed {marks marks' : List (Int × List Action)}
    (h : List.Forall₂ (fun m m' => m'.1 = m.1 ∧ Hushed m.2 m'.2) marks marks')
    {t t' : Array (Option (List Action))} (ht : TableHushes t t') :
    TableHushes (fill t marks) (fill t' marks') := by
  unfold fill
  induction h generalizing t t' with
  | nil => exact ht
  | @cons m m' _ _ hm _ ih =>
      obtain ⟨hnumber, hhushed⟩ := hm
      obtain ⟨hsize, hentries⟩ := ht
      refine ih ⟨by simp [hsize], fun i k hk => ?_⟩
      rw [Array.getElem?_setIfInBounds] at hk ⊢
      rw [hnumber, hsize]
      split at hk
      · rename_i hi
        rw [if_pos hi]
        split at hk
        · rename_i hlt
          cases hk
          exact ⟨m'.2, if_pos hlt, hhushed⟩
        · cases hk
      · rename_i hi
        rw [if_neg hi]
        exact hentries i k hk

theorem targetTable_hushed {marks marks' : List (Int × List Action)}
    (h : List.Forall₂ (fun m m' => m'.1 = m.1 ∧ Hushed m.2 m'.2) marks marks') :
    TableHushes (targetTable marks) (targetTable marks') := by
  have hsize : ∀ n, marks'.foldl (fun n m => max n (m.1 + 1).toNat) n =
      marks.foldl (fun n m => max n (m.1 + 1).toNat) n := by
    induction h with
    | nil => exact fun _ => rfl
    | cons hm _ ih =>
        intro n
        rw [List.foldl_cons, List.foldl_cons, hm.1, ih]
  unfold targetTable
  rw [hsize]
  refine fill_hushed h ⟨rfl, fun i k hk => ?_⟩
  rw [Array.getElem?_replicate] at hk
  split at hk <;> cases hk

/-- The code of a hushed program is the hushed code. -/
theorem ofActions_hushed {seq seq' : List Action} {code : Code} (h : Hushed seq seq')
    (hcode : ofActions seq = .ok code) : ∃ code', ofActions seq' = .ok code' ∧ code.Hushes code' := by
  obtain ⟨hmeta, hactions, htargets, hcounters⟩ := ofActions_eq_ok hcode
  have hmeta' : ∀ a ∈ seq', a.op.isMeta = true → isTarget a = true := by
    clear hcode hactions htargets hcounters
    induction h with
    | nil => exact fun _ h => absurd h List.not_mem_nil
    | keep a _ ih =>
        obtain ⟨ha, hrest⟩ := List.forall_mem_cons.mp hmeta
        exact List.forall_mem_cons.mpr ⟨ha, ih hrest⟩
    | drop _ _ ih => exact ih (List.forall_mem_cons.mp hmeta).2
    | body _ _ _ ih =>
        have hnever := hmeta _ List.mem_cons_self rfl
        cases hnever
  obtain ⟨code', hcode'⟩ := exists_ofActions fun a ha hm => beq_iff_eq.mp (hmeta' a ha hm)
  obtain ⟨-, hactions', htargets', hcounters'⟩ := ofActions_eq_ok hcode'
  refine ⟨code', hcode', ?_, fun j k hk => ?_, ?_⟩
  · rw [hactions, hactions']
    exact strip_hushed h
  · obtain ⟨hpos, hk⟩ := target?_eq_getElem?.mp hk
    rw [htargets] at hk
    obtain ⟨k', hk', hhushed⟩ := (targetTable_hushed (targetMarks_hushed h)).2 _ _ hk
    rw [← htargets'] at hk'
    exact ⟨k', target?_eq_getElem?.mpr ⟨hpos, hk'⟩, hhushed⟩
  · rw [hcounters, hcounters']
    exact counters_hushed h 0

end Code

/-! ## All stages -/

namespace Assembler

variable {asm : Assembler} {ld : Loader} {f : Edit} {acts acts' : List Action}

theorem sequence_hushed (hf : f.Hushes) (hinc : ∀ inc, asm.includer = some inc → inc = ld.includer)
    (h : Hushed acts acts') (hsound : AllSound acts) :
    InStep Eq Session.Beside (asm.sequence acts) ((asm.edited f).sequence acts')
      (Both (fun p p' => Hushed p.1 p'.1 ∧ p.2 = p'.2) Session.Beside) := by
  have hlowered : ∀ inc, asm.includer = some inc → inc.Lowered := by
    intro inc hasm
    rw [hinc inc hasm]
    exact ld.includer_lowered
  unfold sequence notePass
  refine (note_beside asm _ _).andThen fun _ _ _ => ?_
  have hincluded := (resolveIncludes_hushed hf hinc includeDepth h).ensuring (F := AllSound)
    fun s r s' hr => resolveIncludes_sound hlowered includeDepth hsound ⟨s, s', hr⟩
  refine hincluded.andThen fun included included' ⟨hhushed, hsound⟩ => ?_
  refine (note_beside asm _ _).andThen fun _ _ _ => ?_
  refine (expandMacros_hushed asm (asm.edited f) hhushed hsound).andThen fun seq seq' hseq => ?_
  exact (note_beside asm _ _).andThen fun _ _ _ => asm.gather_hushed f hseq

/-- A hushed program is prepared to the hushed code, with the same symbols. -/
theorem prepare_hushed (hf : f.Hushes) (hinc : ∀ inc, asm.includer = some inc → inc = ld.includer)
    (h : Hushed acts acts') (hsound : AllSound acts) {s s₁ : Session} {code : Code} {e : Engine}
    (hprepare : asm.prepare acts s = .ok (code, e) s₁) :
    ∃ code' s₁', (asm.edited f).prepare acts' s = .ok (code', e) s₁' ∧ code.Hushes code' := by
  rw [prepare_eq] at hprepare ⊢
  obtain ⟨⟨seq, e'⟩, s₂, hsequence, hcode⟩ := bind_eq_ok.mp hprepare
  have hagree := sequence_hushed hf hinc h hsound (Session.Beside.refl s)
  rw [hsequence] at hagree
  generalize hsequence' : (asm.edited f).sequence acts' s = r at hagree
  cases hagree with
  | @ok _ _ p' s₂' hboth =>
      obtain ⟨⟨hseq, hengine⟩, -⟩ := hboth
      obtain ⟨seq', e''⟩ := p'
      dsimp only at hseq hengine hcode
      cases hofActions : Code.ofActions seq with
      | error err =>
          rw [hofActions] at hcode
          exact absurd hcode throw_ne_ok
      | ok code₁ =>
          rw [hofActions] at hcode
          obtain ⟨heq, rfl⟩ := pure_eq_ok.mp hcode
          obtain ⟨rfl, rfl⟩ := Prod.mk.inj heq
          obtain ⟨code', hcode', hhushes⟩ := Code.ofActions_hushed hseq hofActions
          refine ⟨code', s₂', ?_, hhushes⟩
          rw [bind_of_ok hsequence', hengine]
          simp only [hcode']
          rfl

end Assembler

end Mos6510
