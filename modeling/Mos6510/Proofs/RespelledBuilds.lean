import Mos6510.Proofs.Independence
import Mos6510.Proofs.RespelledSources
import Mos6510.Proofs.Respelling

/-!
# Builds under other macro names

The names of macros have no bearing on what source text is assembled to.  They show in the
names that macro calls make and nowhere else (`Assembler.macro_names_immaterial`).

The other text is in a library of its own, which has the same files (`Loader.Retells`).  All
source text that a main file leads to (`Loader.Reaches`) has the other names there, and the
binary files that it includes are the same.

Scopes go by the first character of a name, and the name of a macro is in front of the names
that its calls make.  So a local name cannot stand for one that is not local
(`Assembler.local_macro_name_refused`).
-/

namespace Mos6510

open Outcome
open Text (Glyph)

/-! ## Includes and their lines -/

/-- Each include among the actions is what a line of the file is lowered to. -/
def IncludesFrom (lines : List Line) (acts : List Action) : Prop :=
  ∀ a ∈ acts, a.op.isInclude = true →
    ∃ stmt : Statement, ⟨a.location, stmt⟩ ∈ lines ∧ stmt.Lowers a.location [] a.op

theorem Computes.isInclude {acts : List Action} (h : Computes acts) {a : Action} (ha : a ∈ acts) :
    a.op.isInclude = false := by
  have hop := h a ha
  obtain ⟨loc, op, x⟩ := a
  cases op <;> first | rfl | cases hop

namespace Statement.Lowers

variable {loc : Location} {stmt : Statement} {e : List Action} {name : String}

theorem nil_of_isInclude {op : Op} (h : stmt.Lowers loc e op) (hop : op.isInclude = true) : e = [] := by
  cases h with
  | includeSource | includeBinary => rfl
  | instruction _ hencodes => cases hencodes <;> cases hop
  | _ => cases hop

theorem includeSource_eq (h : stmt.Lowers loc e (.includeSource name)) : stmt = .includeSource name := by
  cases h with
  | includeSource => rfl
  | instruction _ hencodes => cases hencodes

theorem includeBinary_eq {args : List (List Action)} (h : stmt.Lowers loc e (.includeBinary name args)) :
    ∃ skip length, stmt = .includeBinary name skip length := by
  cases h with
  | includeBinary => exact ⟨_, _, rfl⟩
  | instruction _ hencodes => cases hencodes

end Statement.Lowers

namespace Builder

variable {loc : Location} {stmt : Statement}

/-- An include that a statement adds is all that it adds. -/
theorem Adds.lowers_include {ids ids' : Ids} {acts : List Action} {blocks blocks' : List Block}
    (h : Adds loc ids stmt blocks acts ids' blocks') (hstmt : stmt.Computes) {a : Action} (ha : a ∈ acts)
    (hop : a.op.isInclude = true) : a.location = loc ∧ stmt.Lowers loc [] a.op := by
  have hfold : ∀ {expr e : List Action}, expr ∈ stmt.exprs → foldAt loc expr = .ok e →
      ∀ a ∈ e, a.op.isInclude = false :=
    fun hexpr he _ ha => ((hstmt _ hexpr).foldConstant (foldAt_eq_ok he)).isInclude ha
  have hplain : ∀ ops : List Op, (∀ op ∈ ops, op.isInclude = false) →
      ∀ a ∈ ops.map (Action.plain loc), a.op.isInclude = false :=
    fun ops h => List.forall_mem_map.mpr h
  -- a statement whose actions hold no include contradicts the one given
  have hnone : (∀ a ∈ acts, a.op.isInclude = false) → a.location = loc ∧ stmt.Lowers loc [] a.op := by
    intro h
    rw [h a ha] at hop
    cases hop
  cases h with
  | simple h =>
      rcases List.mem_append.mp ha with ha | ha
      · rw [(h.computes hstmt).isInclude ha] at hop
        cases hop
      · obtain rfl := List.mem_singleton.mp ha
        obtain rfl := h.nil_of_isInclude hop
        exact ⟨rfl, h⟩
  | openIf h =>
      exact hnone (List.forall_mem_append.mpr
        ⟨hfold List.mem_cons_self h, hplain [_] (by simp [Op.isInclude])⟩)
  | elseIf h =>
      refine hnone (List.forall_mem_append.mpr
        ⟨List.forall_mem_append.mpr ⟨?_, hfold List.mem_cons_self h⟩, ?_⟩)
      · exact hplain [_, _] (by simp [Op.isInclude])
      · exact hplain [_] (by simp [Op.isInclude])
  | openRepeat h =>
      exact hnone (List.forall_mem_append.mpr
        ⟨hfold List.mem_cons_self h, hplain [_, _, _] (by simp [Op.isInclude])⟩)
  | openWhile h =>
      refine hnone (List.forall_mem_append.mpr ⟨List.forall_mem_cons.mpr ⟨rfl, ?_⟩, ?_⟩)
      · exact hfold List.mem_cons_self h
      · exact hplain [_] (by simp [Op.isInclude])
  | otherwise | closeRepeat | closeWhile => exact hnone (hplain [_, _] (by simp [Op.isInclude]))
  | @closeIf _ _ next _ =>
      cases next with
      | none => exact hnone (hplain [_] (by simp [Op.isInclude]))
      | some next => exact hnone (hplain [_, _] (by simp [Op.isInclude]))

end Builder

/-- The includes of a source file are from its lines. -/
theorem Reader.actions_includesFrom {r : Reader} {file : String} {text : List Glyph} {acts : List Action}
    {s s' : Session} (h : r.actions file text s = .ok acts s') :
    ∃ lines, r.Reads file text lines ∧ IncludesFrom lines acts := by
  obtain ⟨lines, b, hreads, hissue, -, rfl, -⟩ := reads_of_actions h
  let P : Action → Prop := fun a => a.op.isInclude = true →
    ∃ stmt : Statement, ⟨a.location, stmt⟩ ∈ lines ∧ stmt.Lowers a.location [] a.op
  have hstart : ({ ids := s.ids } : Builder).Holding P :=
    ⟨fun _ ha => absurd ha List.not_mem_nil, fun _ hblk => absurd hblk List.not_mem_nil⟩
  refine ⟨lines, hreads, (Builder.issueAll_induction (P := Builder.Holding P) ?_ hstart hissue).actions⟩
  intro l hl b b' hb hissued
  refine hissued.holding (fun hadds a ha hop => ?_) (fun _ _ _ _ hop => by cases hop) hb
  obtain ⟨hloc, hlowers⟩ := hadds.lowers_include (hreads.sound l hl).computes ha hop
  exact ⟨l.statement, hloc ▸ hl, hloc ▸ hlowers⟩

/-! ## Libraries under other names -/

namespace Loader

/-- The file is the main file, or source text that such a file includes. -/
inductive Reaches (ld : Loader) (main : String) : String → Prop
  | main {file : String} : ld.find main {} = some file → ld.Reaches main file
  | source {file inner name : String} {bytes : List UInt8} {lines : List Line} {loc : Location} :
      ld.Reaches main file → ld.library.source file = .ok bytes →
        ld.reader.Reads file (Glyph.ofBytes bytes) lines → ⟨loc, .includeSource name⟩ ∈ lines →
          ld.find name loc = some inner → ld.Reaches main inner

/-- A library has the same files as that of the loader, with other names for macros in all
source text that a main file leads to.  Binary files that it includes are the same. -/
structure Retells (ld : Loader) (f : String → String) (main : String) (lib : Library) : Prop where
  has : ∀ name, lib.has name = ld.library.has name
  source : ∀ {file bytes}, ld.Reaches main file → ld.library.source file = .ok bytes →
    ∃ bytes', lib.source file = .ok bytes' ∧
      ld.reader.Retells f (Glyph.ofBytes bytes) (Glyph.ofBytes bytes')
  binary : ∀ {file bytes lines loc name skip length found}, ld.Reaches main file →
    ld.library.source file = .ok bytes → ld.reader.Reads file (Glyph.ofBytes bytes) lines →
      ⟨loc, .includeBinary name skip length⟩ ∈ lines → ld.find name loc = some found →
        lib.binary found = ld.library.binary found

/-- The loader with files from another library. -/
def withLibrary (ld : Loader) (lib : Library) : Loader := { ld with library := lib }

variable {ld : Loader} {f : String → String} {main : String} {lib : Library}

/-- The actions have the includes of a file that is reached. -/
def ReadsAs (ld : Loader) (file : String) (acts : List Action) : Prop :=
  ∃ bytes lines, ld.library.source file = .ok bytes ∧
    ld.reader.Reads file (Glyph.ofBytes bytes) lines ∧ IncludesFrom lines acts

/-- The same files are found. -/
theorem Retells.resolve_eq (h : ld.Retells f main lib) (name : String) (loc : Location) :
    (ld.withLibrary lib).resolve name loc = ld.resolve name loc := by
  have hpick : ∀ cs, (ld.withLibrary lib).pick cs = ld.pick cs := by
    intro cs
    induction cs with
    | nil => rfl
    | cons c cs ih =>
        rw [pick, pick, ih]
        rw [show (ld.withLibrary lib).library.has c = ld.library.has c from h.has c]
  funext s
  unfold resolve
  dsimp only
  rw [hpick]
  rfl

section

variable {θ : Relabelling} (h : ld.Retells θ.call main lib)

theorem noteReading_keepsUp (loc : Location) (file : String) :
    KeepsUp θ.Beside (ld.noteReading loc file) ((ld.withLibrary lib).noteReading loc file)
      (Same θ.Beside) := by
  refine KeepsUp.of_inStep (E := Eq) fun _ _ h => ?_
  exact .ok ⟨rfl, h.ahead, h.includers⟩

include h

theorem resolve_keepsUp (name : String) (loc : Location) :
    KeepsUp θ.Beside (ld.resolve name loc) ((ld.withLibrary lib).resolve name loc)
      (Both (fun found found' => found' = found ∧ ld.find name loc = some found) θ.Beside) := by
  rw [h.resolve_eq]
  intro s t hst found s' hrun
  have hagree : InStep Eq θ.Beside (ld.resolve name loc) (ld.resolve name loc) (Same θ.Beside) :=
    resolve_inStep fun _ _ _ _ h => ⟨h.ahead, h.includers⟩
  obtain ⟨_, t', hrun', rfl, hend⟩ := KeepsUp.of_inStep hagree hst hrun
  exact ⟨_, t', hrun', ⟨rfl, find_of_resolve hrun⟩, hend⟩

theorem read_keepsUp {file : String} (hfile : ld.Reaches main file) (loc : Location) :
    KeepsUp θ.Beside (ld.read loc file) ((ld.withLibrary lib).read loc file)
      (Both (fun acts acts' => θ.Tells acts acts' ∧ ld.ReadsAs file acts) θ.Beside) := by
  unfold read
  refine (noteReading_keepsUp loc file).andThen fun _ _ _ => ?_
  cases hbytes : ld.library.source file with
  | error err => exact KeepsUp.throw
  | ok bytes =>
      obtain ⟨bytes', hbytes', hretells⟩ := h.source hfile hbytes
      rw [show (ld.withLibrary lib).library.source file = .ok bytes' from hbytes']
      intro s t hst acts s' hrun
      obtain ⟨acts', t', hrun', htells, hend⟩ := Reader.actions_retold hretells hst hrun
      obtain ⟨lines, hreads, hfrom⟩ := Reader.actions_includesFrom hrun
      exact ⟨acts', t', hrun', ⟨htells, bytes, lines, hbytes, hreads, hfrom⟩, hend⟩

/-- Source text is read alike, and refused alike as a cycle. -/
theorem source_keepsUp {name : String} {loc : Location}
    (hname : ∀ file, ld.find name loc = some file → ld.Reaches main file) :
    KeepsUp θ.Beside (ld.source name loc) ((ld.withLibrary lib).source name loc)
      (Both (fun acts acts' => θ.Tells acts acts' ∧
        ∃ file, ld.Reaches main file ∧ ld.ReadsAs file acts) θ.Beside) := by
  unfold source
  refine (resolve_keepsUp h name loc).andThen fun file _ hfile => ?_
  obtain ⟨hfound, hfind⟩ := hfile
  rw [hfound]
  refine KeepsUp.bind (Q := fun a s b t => a = s ∧ b = t ∧ θ.Beside s t) ?_ fun s t => ?_
  · rintro s t hst _ _ hget
    cases hget
    exact ⟨t, t, rfl, rfl, rfl, hst⟩
  · rintro _ _ ⟨rfl, rfl, hst⟩ acts s' hrun
    rw [hst.includers]
    split at hrun
    · cases hrun
    · rename_i hcycle
      rw [if_neg hcycle]
      obtain ⟨acts', t', hrun', ⟨htells, hreads⟩, hend⟩ := read_keepsUp h (hname _ hfind) loc
        (s := { s with includers := (file, loc.file) :: s.includers })
        (t := { t with includers := (file, loc.file) :: t.includers })
        ⟨hst.ahead, congrArg ((file, loc.file) :: ·) hst.includers⟩ hrun
      exact ⟨acts', t', hrun', ⟨htells, file, hname _ hfind, hreads⟩, hend⟩

/-- A binary file that source text includes is the same. -/
theorem binary_keepsUp {name : String} {loc : Location}
    (hname : ∀ file, ld.find name loc = some file → lib.binary file = ld.library.binary file) :
    KeepsUp θ.Beside (ld.binary name loc) ((ld.withLibrary lib).binary name loc)
      (Same θ.Beside) := by
  unfold binary
  refine (resolve_keepsUp h name loc).andThen fun file _ hfile => ?_
  obtain ⟨hfound, hfind⟩ := hfile
  rw [hfound]
  refine (noteReading_keepsUp loc file).andThen fun _ _ _ => ?_
  rw [show (ld.withLibrary lib).library.binary file = ld.library.binary file from hname _ hfind]
  cases ld.library.binary file with
  | error err => exact KeepsUp.throw
  | ok bytes => exact KeepsUp.pure fun _ _ h => ⟨rfl, h⟩

end

end Loader

/-! ## Including files -/

namespace Assembler

variable {asm : Assembler} {ld : Loader} {main : String} {lib : Library} {θ : Relabelling}

/-- The assembler with included files from another loader. -/
def withLoader (asm : Assembler) (ld : Loader) : Assembler :=
  { asm with includer := asm.includer.map fun _ => ld.includer }

theorem locating_keepsUp {α β : Type} {P : Session → Session → Prop} {m : SessionM α} {m' : SessionM β}
    {Q : α → Session → β → Session → Prop} (h : KeepsUp P m m' Q) (loc : Location) :
    KeepsUp P (locating loc m) (locating loc m') Q := by
  intro s t hst a s' hrun
  obtain ⟨b, t', hrun', hQ⟩ := h hst (locating_eq_ok.mp hrun)
  exact ⟨b, t', locating_eq_ok.mpr hrun', hQ⟩

theorem note_keepsUp (asm asm' : Assembler) (entry entry' : String) :
    KeepsUp θ.Beside (asm.note entry) (asm'.note entry') (Same θ.Beside) := by
  refine KeepsUp.of_inStep (E := Eq) fun _ _ h => ?_
  exact .ok ⟨rfl, h.ahead, h.includers⟩

/-- Where each action is replaced alike, so are all. -/
theorem replaceEach_keepsUp {f g : Action → SessionM (List Action)} {acts : List Action}
    (h : ∀ a ∈ acts, KeepsUp θ.Beside (f a) (g (θ.action a)) (Both θ.Tells θ.Beside)) :
    KeepsUp θ.Beside (replaceEach f acts) (replaceEach g (θ.actions acts)) (Both θ.Tells θ.Beside) := by
  induction acts with
  | nil =>
      rw [θ.actions_nil]
      exact KeepsUp.pure fun _ _ h => ⟨θ.actions_nil.symm, h⟩
  | cons a rest ih =>
      obtain ⟨ha, hrest⟩ := List.forall_mem_cons.mp h
      rw [θ.actions_cons, replaceEach, replaceEach]
      refine ha.andThen fun as as' has => (ih hrest).andThen fun bs bs' hbs => ?_
      refine KeepsUp.pure fun _ _ h => ⟨?_, h⟩
      unfold Relabelling.Tells at has hbs ⊢
      rw [has, hbs, θ.actions_append]

section

variable (h : ld.Retells θ.call main lib) (hinc : ∀ inc, asm.includer = some inc → inc = ld.includer)

include h hinc

theorem replaceInclude_keepsUp {nested nested' : Option (List Action → SessionM (List Action))}
    (hnested : Option.Rel (fun g g' => ∀ file acts, ld.Reaches main file → ld.ReadsAs file acts →
      KeepsUp θ.Beside (g acts) (g' (θ.actions acts)) (Both θ.Tells θ.Beside)) nested nested')
    {file : String} {acts : List Action} (hfile : ld.Reaches main file) (hacts : ld.ReadsAs file acts)
    {a : Action} (ha : a ∈ acts) :
    KeepsUp θ.Beside (asm.replaceInclude nested a)
      ((asm.withLoader (ld.withLibrary lib)).replaceInclude nested' (θ.action a))
      (Both θ.Tells θ.Beside) := by
  obtain ⟨bytes, lines, hbytes, hreads, hfrom⟩ := hacts
  have hline := hfrom a ha
  obtain ⟨loc, op, x⟩ := a
  rw [Relabelling.action]
  cases op with
  | includeSource name =>
      obtain ⟨stmt, hl, hlowers⟩ := hline rfl
      rw [hlowers.includeSource_eq] at hl
      unfold replaceInclude
      cases hasm : asm.includer with
      | none => exact KeepsUp.throw
      | some inc =>
          obtain rfl := hinc inc hasm
          simp only [withLoader, hasm, Option.map_some, Relabelling.op]
          cases hnested with
          | none => exact KeepsUp.throw
          | some hg =>
              refine (locating_keepsUp (Loader.source_keepsUp h fun inner hfind =>
                .source hfile hbytes hreads hl hfind) loc).andThen fun acts acts' hread => ?_
              obtain ⟨htells, inner, hinner, hreads⟩ := hread
              rw [show acts' = θ.actions acts from htells]
              exact (note_keepsUp asm _ _ _).andThen fun _ _ _ => hg inner acts hinner hreads
  | includeBinary name args =>
      obtain ⟨stmt, hl, hlowers⟩ := hline rfl
      obtain ⟨skip, length, rfl⟩ := hlowers.includeBinary_eq
      unfold replaceInclude
      cases hasm : asm.includer with
      | none => exact KeepsUp.throw
      | some inc =>
          obtain rfl := hinc inc hasm
          simp only [withLoader, hasm, Option.map_some, Relabelling.op]
          refine (locating_keepsUp (Loader.binary_keepsUp h fun found hfind =>
            h.binary hfile hbytes hreads hl hfind) loc).andThen fun bytes _ hsame => ?_
          rw [hsame]
          refine (note_keepsUp asm _ _ _).andThen fun _ _ _ => KeepsUp.pure fun _ _ h => ⟨?_, h⟩
          unfold Relabelling.Tells
          rw [θ.actions_append, θ.actions_flatten, θ.actions_cons, θ.actions_nil, θ.action_plain]
          simp only [Relabelling.op]
  | _ =>
      refine KeepsUp.pure fun _ _ h => ⟨?_, h⟩
      unfold Relabelling.Tells
      rw [θ.actions_cons, θ.actions_nil, Relabelling.action]

/-- Includes are resolved alike. -/
theorem resolveIncludes_keepsUp (levels : Nat) {file : String} {acts : List Action}
    (hfile : ld.Reaches main file) (hacts : ld.ReadsAs file acts) :
    KeepsUp θ.Beside (asm.resolveIncludes levels acts)
      ((asm.withLoader (ld.withLibrary lib)).resolveIncludes levels (θ.actions acts))
      (Both θ.Tells θ.Beside) := by
  induction levels generalizing file acts with
  | zero =>
      rw [resolveIncludes, resolveIncludes]
      exact replaceEach_keepsUp fun a ha => replaceInclude_keepsUp h hinc .none hfile hacts ha
  | succ levels ih =>
      rw [resolveIncludes, resolveIncludes]
      exact replaceEach_keepsUp fun a ha =>
        replaceInclude_keepsUp h hinc (.some fun _ _ hfile hacts => ih hfile hacts) hfile hacts ha

/-- A main file is read alike with all that it includes. -/
theorem loaded_keepsUp :
    KeepsUp θ.Beside (asm.loaded ld main)
      ((asm.withLoader (ld.withLibrary lib)).loaded (ld.withLibrary lib) main)
      (Both θ.Tells θ.Beside) := by
  unfold loaded Loader.topLevel
  refine (Loader.source_keepsUp h fun file hfind => .main hfind).andThen fun acts acts' hread => ?_
  obtain ⟨htells, file, hfile, hacts⟩ := hread
  rw [show acts' = θ.actions acts from htells]
  exact (note_keepsUp asm _ _ _).andThen fun _ _ _ =>
    resolveIncludes_keepsUp h hinc includeDepth hfile hacts

/-- With other names for macros, a main file is built alike. -/
theorem build_respelled {s t s' : Session} (hst : θ.Beside s t) {a : Assembly}
    (hbuild : asm.build ld main s = .ok a s') :
    ∃ a' t', (asm.withLoader (ld.withLibrary lib)).build (ld.withLibrary lib) main t = .ok a' t' ∧
      Engine.Relabelled θ a.engine a'.engine := by
  rw [build_eq] at hbuild ⊢
  obtain ⟨seq, s₁, hloaded, hrest⟩ := bind_eq_ok.mp hbuild
  obtain ⟨r, file, text, actions, t₀, t₁, s₀, hread, hle, hspliced⟩ := loaded_eq_ok hloaded
  have hsession : ∀ inc, asm.includer = some inc → inc.InSession := by
    intro inc h
    rw [hinc inc h]
    exact ld.includer_inSession
  obtain ⟨_, t₂, hloaded', rfl, hst⟩ := loaded_keepsUp h hinc hst hloaded
  have hverbose : (asm.withLoader (ld.withLibrary lib)).verbose = asm.verbose := rfl
  -- the texts are retold, so both assemblies run the same stages
  have hagree := assemble_relabel hverbose hread hle hsession hspliced hst.ahead
  rw [hrest] at hagree
  cases hrest' : ((asm.withLoader (ld.withLibrary lib)).gathered (θ.actions seq) >>=
      (asm.withLoader (ld.withLibrary lib)).executed) t₂ with
  | error err t₃ =>
      rw [hrest'] at hagree
      cases hagree
  | ok a' t₃ =>
      rw [hrest'] at hagree
      cases hagree with
      | ok hresult => exact ⟨a', t₃, bind_eq_ok.mpr ⟨_, t₂, hloaded', hrest'⟩, hresult.1⟩

end

end Assembler

/-! ## Programs -/

/-- The second program is the first one under other names. -/
structure Program.Respelled (g : String → String) (p q : Program) : Prop where
  regions : q.regions = p.regions
  source : q.source = p.source
  labels : q.labels.Perm (p.labels.map fun v => (g v.1, v.2))
  vars : q.vars.Perm (p.vars.map fun v => (g v.1, v.2))
  unused : q.unused.Perm (p.unused.map g)

/-- So it is where the second engine is the first one under other names. -/
theorem Program.respelled_of_engine {θ : Relabelling} {e e' : Engine} (h : Engine.Relabelled θ e e') :
    Respelled θ.name (ofEngine e) (ofEngine e') := by
  obtain ⟨counters, log, rfl, -⟩ := h
  exact ⟨rfl, rfl, sortByName_rename θ.name e.labels, sortByName_rename θ.name e.vars,
    unused_rename θ.name rfl⟩

namespace Assembler

variable {asm : Assembler} {ld : Loader} {main : String} {lib : Library}

/-- Two macros can exchange their names, if both names are local or none is. -/
theorem macro_names_exchangeable {old new : String} (hold : IsIdentifier old) (hnew : IsIdentifier new)
    (hlocal : isLocalName old = isLocalName new) (h : ld.Retells (Equiv.swap old new) main lib)
    (hinc : ∀ inc, asm.includer = some inc → inc = ld.includer) {s s' : Session} {a : Assembly}
    (hbuild : asm.build ld main s = .ok a s') :
    ∃ a' t', (asm.withLoader (ld.withLibrary lib)).build (ld.withLibrary lib) main s = .ok a' t' ∧
      Program.Respelled (exchangeCalls old new) a.program a'.program := by
  obtain ⟨a', t', hbuild', he⟩ :=
    build_respelled (θ := .exchange hold hnew hlocal) h hinc ⟨rfl, rfl⟩ hbuild
  exact ⟨a', t', hbuild', Program.respelled_of_engine he⟩

/-- The names of macros are immaterial, as long as they keep their scope.  Take a main file
that is built, and a macro of the source text that it leads to.  In all this text, let the
macro have a name that no other macro has, in its definition and in its calls; the new name is
local just if the old one is.  The new text is built too, to the same regions and source
locations, and to the same labels and variables but for the name of the macro in front of the
number of each call. -/
theorem macro_names_immaterial {old new : String} (hlocal : isLocalName old = isLocalName new)
    {file : String} {bytes : List UInt8} (hfile : ld.Reaches main file)
    (hbytes : ld.library.source file = .ok bytes)
    (hnamed : old ∈ macroNames false (Lexer.scan ld.reader.defines (Glyph.ofBytes bytes)).tokens)
    (h : ld.Retells (Function.update id old new) main lib)
    (hfresh : ∀ file bytes, ld.Reaches main file → ld.library.source file = .ok bytes →
      new ∉ macroNames false (Lexer.scan ld.reader.defines (Glyph.ofBytes bytes)).tokens)
    (hinc : ∀ inc, asm.includer = some inc → inc = ld.includer) {s s' : Session} {a : Assembly}
    (hbuild : asm.build ld main s = .ok a s') :
    ∃ a' t', (asm.withLoader (ld.withLibrary lib)).build (ld.withLibrary lib) main s = .ok a' t' ∧
      Program.Respelled (exchangeCalls old new) a.program a'.program := by
  have hold : IsIdentifier old := (Lexer.scan_identifiers _ _).macroNames false _ hnamed
  have hnew : IsIdentifier new := by
    obtain ⟨bytes', -, -, htokens⟩ := h.source hfile hbytes
    refine (Lexer.scan_identifiers ld.reader.defines (Glyph.ofBytes bytes')).macroNames false _ ?_
    rw [htokens, macroNames_renameMacros]
    exact List.mem_map.mpr ⟨old, hnamed, Function.update_self old new id⟩
  refine macro_names_exchangeable hold hnew hlocal ⟨h.has, fun hfile hbytes => ?_, h.binary⟩ hinc hbuild
  obtain ⟨bytes', hbytes', hscan, htokens⟩ := h.source hfile hbytes
  refine ⟨bytes', hbytes', hscan, htokens.trans (renameMacros_congr _ fun name hname => ?_)⟩
  -- no text holds the new name, so exchanging and replacing the old one agree
  have hne : name ≠ new := fun heq => hfresh _ _ hfile hbytes (heq ▸ hname)
  rw [Function.update_apply, Equiv.swap_apply_def, if_neg hne]
  rfl

/-! ### One file -/

/-- Does a line include a binary file? -/
def includesBinary (l : Line) : Bool :=
  match l.statement with
  | .includeBinary _ _ _ => true
  | _ => false

theorem isBelow_main : Path.isBelow "m" = true := by cbv

theorem lookIn_main (bytes : List UInt8) (name : String) :
    Library.lookIn [("m", bytes)] name =
      if name = "m" then some (.file bytes)
      else if Path.isBelow name && (name == "." || Library.liesIn name "m") then some .folder
      else none := by
  unfold Library.lookIn
  by_cases hname : name = "m"
  · rw [hname, if_pos rfl, isBelow_main]
    rfl
  · have hlookup : List.lookup name [("m", bytes)] = none := by
      rw [List.lookup_cons, beq_eq_false_iff_ne.mpr hname]
      rfl
    rw [if_neg hname, hlookup]
    cases Path.isBelow name <;> simp

theorem mainLoader_source {bytes bytes' : List UInt8} {file : String}
    (h : (mainLoader bytes).library.source file = .ok bytes') : file = "m" ∧ bytes' = bytes := by
  change Library.readIn [("m", bytes)] file = _ at h
  unfold Library.readIn at h
  rw [lookIn_main] at h
  split_ifs at h with hname
  cases h
  exact ⟨hname, rfl⟩

/-- A library of one file without binary files. -/
theorem mainLoader_retells {f : String → String} {bytes bytes' : List UInt8}
    (h : ({} : Reader).Retells f (Glyph.ofBytes bytes) (Glyph.ofBytes bytes'))
    (hbinary : (linesOf "m" (Lexer.scan [] (Glyph.ofBytes bytes)).tokens).1.any includesBinary = false) :
    (mainLoader bytes).Retells f "m" (mainLoader bytes').library := by
  refine ⟨fun name => ?_, fun {file found} _ hfound => ?_, fun {file} => ?_⟩
  · show (Library.lookIn [("m", bytes')] name).isSome = (Library.lookIn [("m", bytes)] name).isSome
    rw [lookIn_main, lookIn_main]
    split_ifs <;> rfl
  · obtain ⟨rfl, rfl⟩ := mainLoader_source hfound
    exact ⟨bytes', Library.source_ofFiles isBelow_main rfl, h⟩
  · intro bytes₁ lines loc name skip length found _ hfound hreads hl _
    obtain ⟨rfl, rfl⟩ := mainLoader_source hfound
    rw [show linesOf "m" (Lexer.scan [] (Glyph.ofBytes _)).tokens = (lines, none) from hreads.lines,
      List.any_eq_false] at hbinary
    exact absurd rfl (hbinary _ hl)

/-- The bytes of a file that calls the macro `n` where `callBytes` calls `m`. -/
def otherCallBytes : List UInt8 :=
  "@ = $0 .MACRO n _top: .DW _top .ENDMACRO .CALL n".toList.map fun c => UInt8.ofNat c.toNat

theorem callLoader_retells :
    callLoader.Retells (Function.update id "M" "N") "m" (mainLoader otherCallBytes).library := by
  have heval : ((Lexer.scan [] (Glyph.ofBytes otherCallBytes)).error = none ∧
      (Lexer.scan [] (Glyph.ofBytes otherCallBytes)).tokens =
        renameMacros (Function.update id "M" "N") false
          (Lexer.scan [] (Glyph.ofBytes callBytes)).tokens) ∧
      (linesOf "m" (Lexer.scan [] (Glyph.ofBytes callBytes)).tokens).1.any includesBinary =
        false := by
    decide +kernel
  exact mainLoader_retells ⟨heval.1.1, heval.1.2⟩ heval.2

theorem build_mainLoader (asm : Assembler) (bytes : List UInt8) :
    asm.build (mainLoader bytes) "m" {} =
      (({} : Reader).actions "m" (Glyph.ofBytes bytes) >>= asm.assemble)
        { includers := [("m", "")] } := by
  show EStateM.bind ((mainLoader bytes).topLevel "m") _ {} = EStateM.bind _ _ _
  unfold EStateM.bind
  rw [mainLoader_topLevel]

/-- The macro is called once, and the names that the call makes are other ones. -/
theorem macro_names_immaterial_call :
    ∃ a s a' t, callAssembler.build callLoader "m" {} = .ok a s ∧
      (callAssembler.withLoader (mainLoader otherCallBytes)).build (mainLoader otherCallBytes) "m" {} =
        .ok a' t ∧
      a.engine.labels.values.map (·.1) = ["M$1$$_TOP", "M$1"] ∧
      a'.engine.labels.values.map (·.1) = ["N$1$$_TOP", "N$1"] ∧
      Program.Respelled (exchangeCalls "M" "N") a.program a'.program := by
  have hfile : callLoader.Reaches "m" "m" := .main (by cbv)
  have hbytes : callLoader.library.source "m" = .ok callBytes := Library.source_ofFiles isBelow_main rfl
  have hfresh : ∀ file bytes, callLoader.Reaches "m" file → callLoader.library.source file = .ok bytes →
      "N" ∉ macroNames false (Lexer.scan callLoader.reader.defines (Glyph.ofBytes bytes)).tokens := by
    intro file bytes _ hbytes
    obtain ⟨-, rfl⟩ := mainLoader_source hbytes
    decide +kernel
  have hrun : isOkWith (fun a _ => a.engine.labels.values.map (·.1) == ["M$1$$_TOP", "M$1"])
      (callAssembler.build callLoader "m" {}) = true := by
    unfold callLoader
    rw [build_mainLoader]
    decide +kernel
  have hrun' : isOkWith (fun a _ => a.engine.labels.values.map (·.1) == ["N$1$$_TOP", "N$1"])
      ((callAssembler.withLoader (mainLoader otherCallBytes)).build (mainLoader otherCallBytes) "m" {}) =
        true := by
    rw [build_mainLoader]
    decide +kernel
  obtain ⟨a, s, ha, hlabels⟩ := exists_of_isOkWith hrun
  obtain ⟨a', t, ha', hlabels'⟩ := exists_of_isOkWith hrun'
  have hlocal : isLocalName "M" = isLocalName "N" := rfl
  have hnamed : "M" ∈ macroNames false (Lexer.scan [] (Glyph.ofBytes callBytes)).tokens := by
    decide +kernel
  obtain ⟨b, t', hb, hrespelled⟩ := macro_names_immaterial hlocal hfile hbytes hnamed callLoader_retells
    hfresh (fun inc h => (Option.some.inj h).symm) ha
  obtain ⟨hsame, -⟩ := ok_eq_ok.mp (ha'.symm.trans hb)
  rw [hsame] at hrespelled
  exact ⟨a, s, a', t, ha, ha', beq_iff_eq.mp hlabels, beq_iff_eq.mp hlabels', hrespelled⟩

/-- The bytes of a file with a macro `m`, and of one with `_m` instead. -/
def noteBytes : List UInt8 :=
  "@ = $1000 .MACRO m NOP .ENDMACRO .CALL m".toList.map fun c => UInt8.ofNat c.toNat

def localNoteBytes : List UInt8 :=
  "@ = $1000 .MACRO _m NOP .ENDMACRO .CALL _m".toList.map fun c => UInt8.ofNat c.toNat

/-- A local name is not as good as another one.  The anchor of a call starts with the name of
the macro, and so a call of `_m` before the first label makes a local label that has no parent. -/
theorem local_macro_name_refused :
    IsIdentifier "M" ∧ IsIdentifier "_M" ∧
      (mainLoader noteBytes).Retells (Function.update id "M" "_M") "m"
        (mainLoader localNoteBytes).library ∧
      (∃ a s, ({} : Assembler).build (mainLoader noteBytes) "m" {} = .ok a s ∧
        a.engine.labels.values = [("M$1", 0x1000)]) ∧
      ∃ s, ({} : Assembler).build (mainLoader localNoteBytes) "m" {} =
        .error (.expanding "_M" ⟨"m", 1⟩ (.located ⟨"m", 1⟩ (.localWithoutParent "_M$1"))) s := by
  -- one evaluation for all, since each has to scan the two texts
  have heval : ((Lexer.scan [] (Glyph.ofBytes localNoteBytes)).error = none ∧
      (Lexer.scan [] (Glyph.ofBytes localNoteBytes)).tokens =
        renameMacros (Function.update id "M" "_M") false
          (Lexer.scan [] (Glyph.ofBytes noteBytes)).tokens) ∧
      (linesOf "m" (Lexer.scan [] (Glyph.ofBytes noteBytes)).tokens).1.any includesBinary = false ∧
      isOkWith (fun a _ => a.engine.labels.values == [("M$1", 0x1000)])
        (({} : Assembler).build (mainLoader noteBytes) "m" {}) = true ∧
      error? (({} : Assembler).build (mainLoader localNoteBytes) "m" {}) =
        some (.expanding "_M" ⟨"m", 1⟩ (.located ⟨"m", 1⟩ (.localWithoutParent "_M$1"))) := by
    rw [build_mainLoader, build_mainLoader]
    decide +kernel
  obtain ⟨⟨hscan, htokens⟩, hbinary, hrun, hlocal⟩ := heval
  have hretells : (mainLoader noteBytes).Retells (Function.update id "M" "_M") "m"
      (mainLoader localNoteBytes).library :=
    mainLoader_retells ⟨hscan, htokens⟩ hbinary
  obtain ⟨a, s, ha, hlabels⟩ := exists_of_isOkWith hrun
  exact ⟨⟨by decide +kernel, 'M', rfl, rfl⟩, ⟨by decide +kernel, '_', rfl, rfl⟩, hretells,
    ⟨a, s, ha, beq_iff_eq.mp hlabels⟩, eq_error_of_error? hlocal⟩

end Assembler

end Mos6510
