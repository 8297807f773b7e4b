import Mathlib
import Mos6510.Loader
import Mos6510.Proofs.Clauses
import Mos6510.Proofs.Placed

/-!
# The files that led to including a file

A loader remembers for each file the one that included it last.  However it is
used, the chain of includers of a file is finite (`Loader.Used.acyclic`), so
that the search for a cycle ends, and finds all files of the chain
(`leadsTo_eq`).

While an assembly resolves its includes, that chain is the stack of the files
that are being included (`Calls.chain`): a file goes to the stack when it is
read, and as it was not on it, the chains of those below stay as they were.
So an include is refused just if its file is on the stack
(`source_cycle_iff`), and a file that is included from several places is not.
-/

namespace Mos6510

open Outcome

/-! ## Chains of includers -/

/-- The file that included a file last, empty if none did. -/
def includerOf (includers : List (String × String)) (file : String) : String :=
  (includers.lookup file).getD ""

/-- A file, its includer, and so on up to one that was not included. -/
inductive Chain (includers : List (String × String)) : String → List String → Prop
  | top : Chain includers "" []
  | link {file : String} {chain : List String} : file ≠ "" →
      Chain includers (includerOf includers file) chain → Chain includers file (file :: chain)

namespace Chain

variable {includers : List (String × String)} {file other : String} {chain : List String}

theorem unique {chain' : List String} (h : Chain includers file chain)
    (h' : Chain includers file chain') : chain = chain' := by
  induction h generalizing chain' with
  | top =>
      cases h' with
      | top => rfl
      | link hne _ => exact absurd rfl hne
  | link hne _ ih =>
      cases h' with
      | top => exact absurd rfl hne
      | link _ hrest => rw [ih hrest]

/-- The chain goes on from each of its files as the chain of that file. -/
theorem from_mem (h : Chain includers file chain) (hmem : other ∈ chain) :
    ∃ rest, Chain includers other rest ∧ rest.length ≤ chain.length := by
  induction h with
  | top => exact absurd hmem List.not_mem_nil
  | link hne hrest ih =>
      rcases List.mem_cons.mp hmem with rfl | hmem
      · exact ⟨_, .link hne hrest, Nat.le_refl _⟩
      · obtain ⟨rest, hother, hle⟩ := ih hmem
        exact ⟨rest, hother, Nat.le_succ_of_le hle⟩

/-- No file is among its own includers: its chain would go on forever. -/
theorem nodup (h : Chain includers file chain) : chain.Nodup := by
  induction h with
  | top => exact List.nodup_nil
  | link hne hrest ih =>
      refine List.nodup_cons.mpr ⟨fun hmem => ?_, ih⟩
      obtain ⟨rest, hother, hle⟩ := hrest.from_mem hmem
      rw [hother.unique (.link hne hrest), List.length_cons] at hle
      omega

theorem head_eq {rest : List String} (h : Chain includers file (other :: rest)) :
    file = other ∧ other ≠ "" ∧ Chain includers (includerOf includers other) rest := by
  cases h with
  | link hne hrest => exact ⟨rfl, hne, hrest⟩

/-- A chain is of one file only. -/
theorem file_eq {includers' : List (String × String)} (h : Chain includers file chain)
    (h' : Chain includers' other chain) : other = file := by
  cases h with
  | top =>
      cases h'
      rfl
  | link _ _ => exact h'.head_eq.1

/-- All files of a chain but the last are known to have been included. -/
theorem length_le (h : Chain includers file chain) : chain.length ≤ includers.length + 1 := by
  -- every file of the chain but the last has an entry, and no file comes twice
  have hknown : ∀ {file : String} {chain : List String}, Chain includers file chain →
      ∀ x ∈ chain.dropLast, x ∈ includers.map Prod.fst := by
    intro file chain h
    induction h with
    | top => exact fun _ hx => absurd hx List.not_mem_nil
    | @link file chain _ hrest ih =>
        cases chain with
        | nil => exact fun _ hx => absurd hx List.not_mem_nil
        | cons next rest =>
            refine List.forall_mem_cons.mpr ⟨?_, ih⟩
            obtain ⟨hincluder, hnext, -⟩ := hrest.head_eq
            unfold includerOf at hincluder
            cases hlookup : includers.lookup file with
            | none =>
                rw [hlookup] at hincluder
                exact absurd hincluder.symm hnext
            | some parent =>
                obtain ⟨before, after, rfl, -⟩ := List.lookup_eq_some_iff.mp hlookup
                simp
  have hdrop := (h.nodup.sublist (List.dropLast_sublist _)).subperm (hknown h)
  have hle := hdrop.length_le
  rw [List.length_dropLast, List.length_map] at hle
  omega

/-- A new includer of a file does not change the chains without that file. -/
theorem insert {parent : String} (h : Chain includers file chain) (hnot : other ∉ chain) :
    Chain ((other, parent) :: includers) file chain := by
  induction h with
  | top => exact .top
  | @link file chain hne _ ih =>
      obtain ⟨hfile, hrest⟩ := not_or.mp (List.mem_cons.not.mp hnot)
      refine .link hne ?_
      have hlookup : includerOf ((other, parent) :: includers) file = includerOf includers file := by
        unfold includerOf
        rw [List.lookup_cons, beq_eq_false_iff_ne.mpr (Ne.symm hfile)]
      rw [hlookup]
      exact ih hrest

/-- A file that is included from the end of a chain comes in front of it. -/
theorem push (h : Chain includers file chain) (hnot : other ∉ chain) (hne : other ≠ "") :
    Chain ((other, file) :: includers) other (other :: chain) := by
  refine .link hne ?_
  have hlookup : includerOf ((other, file) :: includers) other = file := by
    unfold includerOf
    rw [List.lookup_cons_self]
    rfl
  rw [hlookup]
  exact h.insert hnot

end Chain

/-- Every file has a chain of includers: no file is among its own. -/
def Acyclic (includers : List (String × String)) : Prop :=
  ∀ file, ∃ chain, Chain includers file chain

theorem Acyclic.empty : Acyclic [] := by
  intro file
  by_cases hfile : file = ""
  · exact ⟨[], hfile ▸ .top⟩
  · exact ⟨[file], .link hfile .top⟩

/-- An include that closes no cycle leaves none behind. -/
theorem Acyclic.insert {includers : List (String × String)} {file other : String}
    {chain : List String} (h : Acyclic includers) (hchain : Chain includers file chain)
    (hnot : other ∉ chain) (hne : other ≠ "") : Acyclic ((other, file) :: includers) := by
  intro x
  obtain ⟨xs, hx⟩ := h x
  induction hx with
  | top => exact ⟨[], .top⟩
  | @link x xs hxne hrest ih =>
      -- the entry added leads to a chain without the file, so it closes no ring
      by_cases hxo : x = other
      · subst hxo
        exact ⟨_, hchain.push hnot hne⟩
      · obtain ⟨ys, hys⟩ := ih
        refine ⟨x :: ys, .link hxne ?_⟩
        have hlookup : includerOf ((other, file) :: includers) x = includerOf includers x := by
          unfold includerOf
          rw [List.lookup_cons, beq_eq_false_iff_ne.mpr hxo]
        rw [hlookup]
        exact hys

namespace Loader

/-- With enough steps the search finds just the files of the chain. -/
theorem leadsTo_of_chain {includers : List (String × String)} {file current : String}
    {chain : List String} (h : Chain includers current chain) {fuel : Nat}
    (hfuel : chain.length ≤ fuel) : leadsTo includers file fuel current = decide (file ∈ chain) := by
  induction h generalizing fuel with
  | top => cases fuel <;> rfl
  | @link current chain hne hrest ih =>
      cases fuel with
      | zero => cases hfuel
      | succ fuel =>
          have hempty : current.isEmpty = false := by
            rw [String.isEmpty_eq_false_iff]
            exact hne
          -- the search follows the chain link by link and has fuel for its length
          have hrest := ih (Nat.le_of_succ_le_succ hfuel)
          unfold includerOf at hrest
          rw [leadsTo, hempty, if_neg Bool.false_ne_true, hrest]
          simp only [List.mem_cons, Bool.decide_or, Bool.beq_eq_decide_eq, eq_comm (a := current)]

/-- The search of a loader is long enough. -/
theorem leadsTo_eq {includers : List (String × String)} {file current : String}
    {chain : List String} (h : Chain includers current chain) :
    leadsTo includers file (includers.length + 1) current = decide (file ∈ chain) :=
  leadsTo_of_chain h h.length_le

end Loader

/-! ## Operations of a session -/

/-- The state after an operation, successful or not. -/
def Outcome.state {σ α : Type} : EStateM.Result Error σ α → σ
  | .ok _ s => s
  | .error _ s => s

/-- The operation keeps a property of the session, also where it fails. -/
def Maintains {α : Type} (P : Session → Prop) (m : SessionM α) : Prop :=
  ∀ s, P s → P (state (m s))

namespace Maintains

variable {α β : Type} {P : Session → Prop} {m : SessionM α} {f : α → SessionM β}

theorem pure (a : α) : Maintains P (pure a : SessionM α) := fun _ h => h

theorem throw (err : Error) : Maintains P (throw err : SessionM α) := fun _ h => h

theorem bind (hm : Maintains P m) (hf : ∀ a, Maintains P (f a)) : Maintains P (m >>= f) := by
  intro s h
  have hs := hm s h
  show P (state (EStateM.bind m f s))
  unfold EStateM.bind
  cases hms : m s with
  | ok a s' =>
      rw [hms] at hs
      exact hf a s' hs
  | error err s' =>
      rw [hms] at hs
      exact hs

theorem locating (loc : Location) (hm : Maintains P m) : Maintains P (Assembler.locating loc m) := by
  intro s h
  have hs := hm s h
  show P (state (EStateM.tryCatch m _ s))
  unfold EStateM.tryCatch
  cases hms : m s with
  | ok a s' =>
      rw [hms] at hs
      exact hs
  | error err s' =>
      rw [hms] at hs
      exact hs

/-- What comes out of a successful operation has the property. -/
theorem of_eq_ok (hm : Maintains P m) {s s' : Session} {a : α} (h : m s = .ok a s') (hs : P s) :
    P s' := by
  have := hm s hs
  rwa [h] at this

end Maintains

/-- The property is one of the includers alone. -/
def AboutIncluders (P : Session → Prop) : Prop :=
  ∀ s s' : Session, s'.includers = s.includers → P s → P s'

/-- The property sees neither the numbers given out nor the files that were missed,
and no report, as far as reports are wanted. -/
structure Unmoved (verbose : Bool) (P : Session → Prop) : Prop where
  ids : ∀ (s : Session) ids, P s → P { s with ids := ids }
  missed : ∀ (s : Session) missed, P s → P { s with missed := missed }
  log : ∀ (s : Session) entry, P s → P { s with log := s.log.addIf verbose entry }

theorem AboutIncluders.unmoved {P : Session → Prop} (hP : AboutIncluders P) (verbose : Bool) :
    Unmoved verbose P where
  ids := fun s _ h => hP s _ rfl h
  missed := fun s _ h => hP s _ rfl h
  log := fun s _ h => hP s _ rfl h

/-- Where no report is wanted the log stays. -/
theorem unmoved_log (l : Log) : Unmoved false fun s => s.log = l :=
  ⟨fun _ _ h => h, fun _ _ h => h, fun _ _ h => h⟩

section

variable {P : Session → Prop}

theorem withIds_maintains {α : Type} (hids : ∀ (s : Session) ids, P s → P { s with ids := ids })
    (m : EStateM Error Ids α) : Maintains P (Assembler.withIds m) := by
  intro s h
  unfold Assembler.withIds
  cases m s.ids <;> exact hids s _ h

theorem note_maintains {asm : Assembler} (hP : Unmoved asm.verbose P) (entry : String) :
    Maintains P (asm.note entry) :=
  fun s h => hP.log s entry h

theorem Reader.actions_maintains {r : Reader} (hP : Unmoved r.verbose P) (file : String)
    (text : List Text.Glyph) : Maintains P (r.actions file text) := by
  unfold Reader.actions
  dsimp only
  split
  · exact .throw _
  · exact .bind (fun s h => hP.log s _ h) fun _ => withIds_maintains hP.ids _

namespace Loader

variable {ld : Loader}

theorem resolve_maintains (hP : Unmoved ld.verbose P) (name : String) (loc : Location) :
    Maintains P (ld.resolve name loc) := by
  intro s h
  unfold resolve
  dsimp only
  split <;> exact hP.missed s _ h

theorem noteReading_maintains (hP : Unmoved ld.verbose P) (loc : Location) (file : String) :
    Maintains P (ld.noteReading loc file) :=
  fun s h => hP.log s _ h

theorem binary_maintains (hP : Unmoved ld.verbose P) (name : String) (loc : Location) :
    Maintains P (ld.binary name loc) := by
  refine (resolve_maintains hP name loc).bind fun file =>
    (noteReading_maintains hP loc file).bind fun _ => ?_
  split
  · exact .throw _
  · exact .pure _

end Loader

end

/-! ## Reading a source file -/

namespace Loader

variable {ld : Loader} {name : String} {loc : Location} {s s₁ : Session}

theorem exists_of_pick {ld : Loader} {names : List String} {file : String}
    (h : (ld.pick names).2 = some file) : file ∈ names := by
  induction names with
  | nil => cases h
  | cons c rest ih =>
      rw [pick] at h
      split at h
      · cases h
        exact List.mem_cons_self
      · exact List.mem_cons_of_mem _ (ih h)

/-- The file that a name stands for has a name, and finding it changes no includer. -/
theorem resolve_eq_ok {file : String} (h : ld.resolve name loc s = .ok file s₁) :
    file ≠ "" ∧ s₁.includers = s.includers := by
  unfold resolve at h
  dsimp only at h
  split at h
  · rename_i hpick
    cases h
    refine ⟨?_, rfl⟩
    rintro rfl
    have hbelow := (List.mem_filter.mp (exists_of_pick hpick)).2
    have hempty : Path.isBelow "" = false := by cbv
    rw [hempty] at hbelow
    cases hbelow
  · cases h

/-- Read a file that was found. -/
def read (ld : Loader) (loc : Location) (file : String) : SessionM (List Action) := do
  ld.noteReading loc file
  match ld.library.source file with
  | .error err => throw err
  | .ok bytes => ld.reader.actions file (Text.Glyph.ofBytes bytes)

/-- A file that is in the chain of the one that includes it is refused; any
other is read, after it was noted who included it. -/
theorem source_eq {file : String} {chain : List String} (hchain : Chain s.includers loc.file chain)
    (hfile : ld.resolve name loc s = .ok file s₁) :
    ld.source name loc s =
      if file ∈ chain then .error (.includeCycle file) s₁
      else ld.read loc file { s₁ with includers := (file, loc.file) :: s₁.includers } := by
  have hsame := (resolve_eq_ok hfile).2
  unfold source
  rw [bind_of_ok hfile]
  show (if leadsTo s₁.includers file (s₁.includers.length + 1) loc.file then _ else _ : SessionM _) s₁ =
    _
  rw [hsame, leadsTo_eq hchain]
  -- the search for a cycle finds exactly the files of the chain
  by_cases hmem : file ∈ chain
  · rw [if_pos (decide_eq_true hmem), if_pos hmem]
    rfl
  · rw [if_neg (by simpa using hmem), if_neg hmem]
    rw [← hsame]
    rfl

theorem read_maintains {P : Session → Prop} (hP : Unmoved ld.verbose P)
    (hreader : Unmoved ld.reader.verbose P) (file : String) : Maintains P (ld.read loc file) := by
  refine (noteReading_maintains hP loc file).bind fun _ => ?_
  split
  · exact .throw _
  · exact Reader.actions_maintains hreader _ _

/-- What does not depend on the includers either is maintained by reading a source. -/
theorem source_maintains {P : Session → Prop} (hP : Unmoved ld.verbose P)
    (hreader : Unmoved ld.reader.verbose P)
    (hincluders : ∀ (s : Session) incs, P s → P { s with includers := incs }) (name : String)
    (loc : Location) : Maintains P (ld.source name loc) := by
  refine (resolve_maintains hP name loc).bind fun file => .bind (fun s h => h) fun s => ?_
  split
  · exact .throw _
  · exact .bind (fun s h => hincluders s _ h) fun _ => read_maintains hP hreader file

/-! ## Any use of a loader -/

/-- The session of a loader that was used in any way before: sources were read
from it from any locations, whether that failed or not, and between that all
may have happened that does not change the includers. -/
inductive Used (ld : Loader) : Session → Prop
  | fresh {s : Session} : s.includers = [] → Used ld s
  | source {s : Session} (name : String) (loc : Location) : Used ld s →
      Used ld (state (ld.source name loc s))
  | other {s s' : Session} : Used ld s → s'.includers = s.includers → Used ld s'

theorem Used.aboutIncluders : AboutIncluders ld.Used := fun _ _ heq h => h.other heq

theorem source_acyclic {s : Session} (name : String) (loc : Location) (h : Acyclic s.includers) :
    Acyclic (state (ld.source name loc s)).includers := by
  have hP : ∀ l, AboutIncluders fun s' => s'.includers = l := fun l s s' heq h => heq.trans h
  obtain ⟨chain, hchain⟩ := h loc.file
  cases hfile : ld.resolve name loc s with
  | error err s₁ =>
      -- a name that is not resolved is not noted
      have hsame : (state (ld.resolve name loc s)).includers = s.includers :=
        resolve_maintains ((hP _).unmoved _) name loc s rfl
      have hsource : ld.source name loc s = .error err s₁ := bind_eq_error.mpr (.inl hfile)
      rw [hfile] at hsame
      rw [hsource]
      exact hsame ▸ h
  | ok file s₁ =>
      obtain ⟨hne, hsame⟩ := resolve_eq_ok hfile
      rw [source_eq hchain hfile]
      split
      · exact hsame ▸ h
      · rename_i hnot
        rw [read_maintains ((hP _).unmoved _) ((hP _).unmoved _) file _ rfl, hsame]
        exact h.insert hchain hnot hne

/-- However a loader is used, no file comes to be among its own includers. -/
theorem Used.acyclic {s : Session} (h : ld.Used s) : Acyclic s.includers := by
  induction h with
  | fresh hnone => exact hnone ▸ .empty
  | source name loc _ ih => exact source_acyclic name loc ih
  | other _ heq ih => exact heq ▸ ih

end Loader

/-! ## Where an include stands -/

namespace Statement

variable {file : String} {ts : List Token}

/-- All lines are in the file. -/
def Reading.In (file : String) {ts : List Token} (r : Reading ts) : Prop :=
  ∀ l ∈ r.lines, l.location.file = file

theorem dataItem_in {word : Bool} {l : Line} {rest : Tail ts}
    (h : dataItem word file ts = .ok (l, rest)) : l.location.file = file := by
  obtain ⟨loc, more, last, hloc, hitem, -⟩ := Parse.bind_eq_ok h
  have hfile : loc.file = file := by
    cases hloc
    cases ts <;> rfl
  obtain ⟨lexeme, _, _, -, hitem, -⟩ := Parse.bind_eq_ok hitem
  split at hitem
  · obtain ⟨_, _, _, -, hitem, -⟩ := Parse.bind_eq_ok hitem
    cases hitem
    exact hfile
  · obtain ⟨_, _, _, -, hitem, -⟩ := Parse.bind_eq_ok hitem
    cases hitem
    exact hfile

theorem dataItems_in (word : Bool) (file : String) (ts : List Token) :
    (dataItems word file ts).In file := by
  fun_induction dataItems word file ts with
  | case1 => exact fun _ hl => absurd hl List.not_mem_nil
  | case2 ts item line rest h hitem _ more ih =>
      exact List.forall_mem_cons.mpr ⟨dataItem_in hitem, ih⟩
  | case3 ts item rest hne hitem =>
      exact List.forall_mem_cons.mpr ⟨dataItem_in hitem, fun _ hl => absurd hl List.not_mem_nil⟩

theorem single_in {loc : Location} (hloc : loc.file = file)
    (r : Except Error (Statement × Tail ts)) : (Reading.single loc r).In file := by
  cases r with
  | ok r => exact List.forall_mem_cons.mpr ⟨hloc, fun _ hl => absurd hl List.not_mem_nil⟩
  | error => exact fun _ hl => absurd hl List.not_mem_nil

theorem repeatedItems_in (word : Bool) {loc : Location} (hloc : loc.file = file)
    (ts : List Token) : (repeatedItems word loc file ts).In file := by
  unfold repeatedItems
  split
  · exact fun _ hl => absurd hl List.not_mem_nil
  · rename_i count more _
    have hopened : ∀ l ∈ (⟨loc, .openRepeat count⟩ :: (dataItems word file more.val).lines :
        List Line), l.location.file = file :=
      List.forall_mem_cons.mpr ⟨hloc, dataItems_in word file more.val⟩
    dsimp only
    split
    · exact hopened
    · exact List.forall_mem_append.mpr ⟨hopened, fun l hl => by rwa [List.mem_singleton.mp hl]⟩

theorem linesAfter_in (t : Token) (file : String) (rest : List Token) :
    (linesAfter t file rest).In file := by
  have hnone : ∀ l ∈ ([] : List Line), l.location.file = file :=
    fun _ hl => absurd hl List.not_mem_nil
  unfold linesAfter
  dsimp only
  split
  · unfold directiveLines
    split
    · exact dataItems_in false file rest
    · exact dataItems_in true file rest
    · exact repeatedItems_in false rfl rest
    · exact repeatedItems_in true rfl rest
    · exact single_in rfl _
  · exact List.forall_mem_cons.mpr ⟨rfl, hnone⟩
  · exact single_in rfl _
  · exact single_in rfl _
  · exact single_in rfl _
  · exact hnone

end Statement

theorem readLines_in {file : String} {done : List Line} {ts : List Token}
    (hdone : ∀ l ∈ done, l.location.file = file) :
    ∀ l ∈ (readLines file done ts).1, l.location.file = file := by
  have hjoin : ∀ {done : List Line} (t : Token) (rest : List Token),
      (∀ l ∈ done, l.location.file = file) →
      ∀ l ∈ (Statement.linesAfter t file rest).lines.reverse ++ done, l.location.file = file :=
    fun t rest hdone => List.forall_mem_append.mpr ⟨fun l hl =>
      Statement.linesAfter_in t file rest l (List.mem_reverse.mp hl), hdone⟩
  fun_induction readLines file done ts with
  | case1 done => exact hdone
  | case2 done t rest hend => exact hdone
  | case3 done t rest hend reading done' err herr => exact hjoin t rest hdone
  | case4 done t rest hend reading done' last hlast ih => exact ih (hjoin t rest hdone)

/-- All lines of a file are in the file. -/
theorem linesOf_in (file : String) (ts : List Token) :
    ∀ l ∈ (linesOf file ts).1, l.location.file = file :=
  fun l hl => readLines_in (fun _ hl => absurd hl List.not_mem_nil) l (List.mem_reverse.mp hl)

/-- The includes among the actions are in the file. -/
def IncludesIn (file : String) (acts : List Action) : Prop :=
  ∀ a ∈ acts, ∀ name, a.op = .includeSource name → a.location.file = file

theorem IncludesIn.of_computes {file : String} {acts : List Action} (h : Computes acts) :
    IncludesIn file acts := by
  intro a ha name hop
  have hcomputes := h a ha
  rw [hop] at hcomputes
  cases hcomputes

theorem IncludesIn.append {file : String} {as bs : List Action} (ha : IncludesIn file as)
    (hb : IncludesIn file bs) : IncludesIn file (as ++ bs) :=
  List.forall_mem_append.mpr ⟨ha, hb⟩

namespace Builder

/-- What holds of the actions of a builder, and of those that it has set aside. -/
structure Holding (P : Action → Prop) (b : Builder) : Prop where
  actions : ∀ a ∈ b.actions.toList, P a
  aside : ∀ blk ∈ b.blocks, ∀ loc name params before, blk = .definition loc name params before →
    ∀ a ∈ before.toList, P a

/-- The includes of a builder, and of what it has set aside, are in the file. -/
structure In (file : String) (b : Builder) : Prop where
  actions : IncludesIn file b.actions.toList
  aside : ∀ blk ∈ b.blocks, ∀ loc name params before, blk = .definition loc name params before →
    IncludesIn file before.toList

theorem Adds.includesIn {loc : Location} {ids ids' : Ids} {stmt : Statement} {acts : List Action}
    {blocks blocks' : List Block} (hstmt : stmt.Computes)
    (h : Adds loc ids stmt blocks acts ids' blocks') : IncludesIn loc.file acts := by
  have hplain : ∀ ops : List Op, IncludesIn loc.file (ops.map (Action.plain loc)) := by
    intro ops a ha name _
    obtain ⟨op, -, rfl⟩ := List.mem_map.mp ha
    rfl
  -- expressions hold no include
  have hfold : ∀ {expr e : List Action}, expr ∈ stmt.exprs → foldAt loc expr = .ok e →
      IncludesIn loc.file e := fun hexpr hfold =>
    .of_computes ((hstmt _ hexpr).foldConstant (foldAt_eq_ok hfold))
  cases h with
  | simple h => exact (IncludesIn.of_computes (h.computes hstmt)).append (hplain [_])
  | openIf h => exact (hfold List.mem_cons_self h).append (hplain [_])
  | elseIf h => exact ((hplain [_, _]).append (hfold List.mem_cons_self h)).append (hplain [_])
  | otherwise => exact hplain [_, _]
  | @closeIf _ _ next _ =>
      cases next with
      | none => exact hplain [_]
      | some next => exact hplain [_, _]
  | openRepeat h => exact (hfold List.mem_cons_self h).append (hplain [_, _, _])
  | closeRepeat => exact hplain [_, _]
  | openWhile h => exact ((hplain [_]).append (hfold List.mem_cons_self h)).append (hplain [_])
  | closeWhile => exact hplain [_, _]

theorem Adds.mem_blocks {loc start : Location} {ids ids' : Ids} {stmt : Statement}
    {acts : List Action} {blocks blocks' : List Block} {name : String} {params : List String}
    {before : Array Action} (h : Adds loc ids stmt blocks acts ids' blocks')
    (hmem : .definition start name params before ∈ blocks') :
    .definition start name params before ∈ blocks := by
  cases h with
  | simple h => exact hmem
  | openIf | openRepeat | openWhile =>
      rcases List.mem_cons.mp hmem with heq | hmem
      · cases heq
      · exact hmem
  | elseIf | otherwise =>
      rcases List.mem_cons.mp hmem with heq | hmem
      · cases heq
      · exact List.mem_cons_of_mem _ hmem
  | closeIf | closeRepeat | closeWhile => exact List.mem_cons_of_mem _ hmem

theorem Issued.holding {P : Action → Prop} {loc : Location} {stmt : Statement} {b b' : Builder}
    (h : Issued loc stmt b b')
    (hadds : ∀ {acts ids blocks}, Adds loc b.ids stmt b.blocks acts ids blocks → ∀ a ∈ acts, P a)
    (hdefine : ∀ start name params body, P (Action.plain start (.defineMacro name params body)))
    (hb : b.Holding P) : b'.Holding P := by
  cases h with
  | adds h _ =>
      refine ⟨?_, fun blk hblk start name params before heq => ?_⟩
      · rw [Array.toList_appendList]
        exact List.forall_mem_append.mpr ⟨hb.actions, hadds h⟩
      · exact hb.aside blk (heq ▸ h.mem_blocks (heq ▸ hblk)) start name params before heq
  | openMacro _ =>
      refine ⟨fun a ha => absurd ha List.not_mem_nil, fun blk hblk start name params before heq => ?_⟩
      rw [List.mem_singleton.mp hblk] at heq
      cases heq
      exact hb.actions
  | closeMacro hblocks =>
      -- what the definition had set aside comes back, with the definition behind it
      have haside := hb.aside
      rw [hblocks] at haside
      refine ⟨?_, fun blk hblk => haside blk (List.mem_cons_of_mem _ hblk)⟩
      rw [Array.toList_appendList]
      refine List.forall_mem_append.mpr ⟨haside _ List.mem_cons_self _ _ _ _ rfl, ?_⟩
      exact List.forall_mem_singleton.mpr (hdefine _ _ _ _)

theorem Issued.in {file : String} {loc : Location} {stmt : Statement} {b b' : Builder}
    (h : Issued loc stmt b b') (hstmt : stmt.Computes) (hloc : loc.file = file) (hb : b.In file) :
    b'.In file := by
  obtain ⟨hactions, haside⟩ := h.holding (fun hadds => hloc ▸ hadds.includesIn hstmt)
    (fun _ _ _ _ name hop => by cases hop) ⟨hb.actions, hb.aside⟩
  exact ⟨hactions, haside⟩

end Builder

/-- The includes of a source file are in that file. -/
theorem Reader.actions_includesIn {r : Reader} {file : String} {text : List Text.Glyph}
    {acts : List Action} {s s' : Session} (h : r.actions file text s = .ok acts s') :
    IncludesIn file acts := by
  obtain ⟨b, hissue, -, rfl, -⟩ := actions_eq_ok h
  have hstart : ({ ids := s.ids } : Builder).In file :=
    ⟨fun _ ha => absurd ha List.not_mem_nil, fun _ hblk => absurd hblk List.not_mem_nil⟩
  refine (Builder.issueAll_induction (P := Builder.In file) ?_ hstart hissue).actions
  intro l hl b b' hb hissued
  exact hissued.in (linesOf_sound file _ l hl).computes (linesOf_in file _ l hl) hb

/-! ## The stack of included files -/

namespace Loader

variable {ld : Loader} {name : String} {loc : Location} {s s' : Session} {acts : List Action}

theorem read_includesIn {file : String} (h : ld.read loc file s = .ok acts s') :
    IncludesIn file acts := by
  obtain ⟨_, s₁, -, h⟩ := bind_eq_ok.mp h
  cases hbytes : ld.library.source file with
  | error err =>
      rw [hbytes] at h
      exact absurd h throw_ne_ok
  | ok bytes =>
      rw [hbytes] at h
      exact Reader.actions_includesIn h

/-- A file that was read is on top of the files that led to it. -/
theorem source_eq_ok {chain : List String} (hchain : Chain s.includers loc.file chain)
    (h : ld.source name loc s = .ok acts s') :
    ∃ file s₁, ld.resolve name loc s = .ok file s₁ ∧ file ∉ chain ∧ IncludesIn file acts ∧
      Chain s'.includers file (file :: chain) := by
  cases hfile : ld.resolve name loc s with
  | error err s₁ =>
      have hsource : ld.source name loc s = .error err s₁ := bind_eq_error.mpr (.inl hfile)
      rw [hsource] at h
      cases h
  | ok file s₁ =>
      obtain ⟨hne, hsame⟩ := resolve_eq_ok hfile
      rw [source_eq hchain hfile] at h
      split at h
      · cases h
      · rename_i hnot
        refine ⟨file, s₁, rfl, hnot, read_includesIn h, ?_⟩
        have hP : AboutIncluders fun s => s.includers = (file, loc.file) :: s₁.includers :=
          fun _ _ heq h => heq.trans h
        -- the new entry is all that reading adds to the includers
        have hread : s'.includers = (file, loc.file) :: s₁.includers :=
          (read_maintains (hP.unmoved _) (hP.unmoved _) file).of_eq_ok h rfl
        rw [hread, hsame]
        exact hchain.push hnot hne

/-- The contents of a file are no reason to refuse it as a cycle. -/
theorem read_ne_cycle (hlib : ∀ file x, ld.library.source file ≠ .error (.includeCycle x))
    {file x : String} : ld.read loc file s ≠ .error (.includeCycle x) s' := by
  intro h
  rcases bind_eq_error.mp h with h | ⟨_, s₁, -, h⟩
  · cases h
  · cases hbytes : ld.library.source file with
    | error err =>
        rw [hbytes] at h
        cases h
        exact hlib file x hbytes
    | ok bytes =>
        rw [hbytes] at h
        cases Reader.actions_placed h

/-- A file is refused as a cycle just if it is in the chain of the one that
includes it. -/
theorem source_cycle_iff (hlib : ∀ file x, ld.library.source file ≠ .error (.includeCycle x))
    {chain : List String} (hchain : Chain s.includers loc.file chain) :
    (∃ y t, ld.source name loc s = .error (.includeCycle y) t) ↔
      ∃ file s₁, ld.resolve name loc s = .ok file s₁ ∧ file ∈ chain := by
  cases hfile : ld.resolve name loc s with
  | error err s₁ =>
      have hsource : ld.source name loc s = .error err s₁ := bind_eq_error.mpr (.inl hfile)
      -- resolving a name reports other errors than a cycle
      have hnot : ∀ y, err ≠ .includeCycle y := by
        rintro y rfl
        unfold resolve at hfile
        dsimp only at hfile
        split at hfile <;> cases hfile
      rw [hsource]
      constructor
      · rintro ⟨y, t, ⟨⟩⟩
        exact absurd rfl (hnot y)
      · rintro ⟨file, s₂, ⟨⟩, -⟩
  | ok file s₁ =>
      rw [source_eq hchain hfile]
      constructor
      · rintro ⟨y, t, h⟩
        split at h
        · exact ⟨file, s₁, rfl, ‹_›⟩
        · exact absurd h (read_ne_cycle hlib)
      · rintro ⟨_, _, ⟨⟩, hmem⟩
        exact ⟨file, s₁, if_pos hmem⟩

end Loader

namespace Assembler

/-- Read what an include stands for. -/
def included (asm : Assembler) (ld : Loader) (name : String) (loc : Location) :
    SessionM (List Action) := do
  let acts ← locating loc (ld.source name loc)
  asm.note (loc.render ++ ": include " ++ name ++ ": " ++ Text.decimal acts.length ++ " actions")
  pure acts

/-- While the includes of some actions are resolved, on a stack of files that
are being included, this include is asked for from the loader: its action, the
stack, and the session at that time. -/
inductive Calls (asm : Assembler) (ld : Loader) :
    Nat → List String → List Action → Session → List String → Action → Session → Prop
  | here {levels : Nat} {stack : List String} {a : Action} {rest : List Action} {s : Session}
      {name : String} : a.op = .includeSource name →
      Calls asm ld (levels + 1) stack (a :: rest) s stack a s
  | inside {levels : Nat} {stack stack' : List String} {a a' : Action} {rest acts : List Action}
      {s s₁ s₂ s' : Session} {name file : String} : a.op = .includeSource name →
      ld.resolve name a.location s = .ok file s₁ →
      asm.included ld name a.location s = .ok acts s₂ →
      Calls asm ld levels (file :: stack) acts s₂ stack' a' s' →
      Calls asm ld (levels + 1) stack (a :: rest) s stack' a' s'
  | later {levels : Nat} {stack stack' : List String} {a a' : Action} {rest acts : List Action}
      {s s₁ s' : Session} :
      asm.replaceInclude (some (asm.resolveIncludes levels)) a s = .ok acts s₁ →
      Calls asm ld (levels + 1) stack rest s₁ stack' a' s' →
      Calls asm ld (levels + 1) stack (a :: rest) s stack' a' s'

variable {asm : Assembler} {ld : Loader}

theorem replaceInclude_source (hinc : asm.includer = some ld.includer)
    (nested : List Action → SessionM (List Action)) {a : Action} {name : String}
    (hop : a.op = .includeSource name) :
    asm.replaceInclude (some nested) a = asm.included ld name a.location >>= nested := by
  unfold replaceInclude included
  rw [hop, hinc]
  simp only [bind_assoc, pure_bind]
  rfl

theorem included_eq_ok {name : String} {loc : Location} {s s' : Session} {acts : List Action}
    {chain : List String} (hchain : Chain s.includers loc.file chain)
    (h : asm.included ld name loc s = .ok acts s') :
    ∃ file s₁, ld.resolve name loc s = .ok file s₁ ∧ IncludesIn file acts ∧
      Chain s'.includers file (file :: chain) := by
  obtain ⟨_, s₂, hsource, h⟩ := bind_eq_ok.mp h
  obtain ⟨_, s₃, hnote, h⟩ := bind_eq_ok.mp h
  obtain ⟨rfl, rfl⟩ := pure_eq_ok.mp h
  cases hnote
  obtain ⟨file, s₁, hfile, -, hin, hpush⟩ := Loader.source_eq_ok hchain (locating_eq_ok.mp hsource)
  exact ⟨file, s₁, hfile, hin, hpush⟩

theorem included_eq_error {name : String} {loc : Location} {s s' : Session} {err : Error}
    (h : ld.source name loc s = .error err s') :
    asm.included ld name loc s = .error (err.atLocation loc) s' := by
  refine bind_eq_error.mpr (.inl ?_)
  show EStateM.tryCatch (ld.source name loc) _ s = _
  unfold EStateM.tryCatch
  rw [h]
  rfl

/-- What is no include of a source file changes no includer. -/
theorem replaceInclude_other {P : Session → Prop} (hP : AboutIncluders P)
    (hinc : asm.includer = some ld.includer)
    {nested : Option (List Action → SessionM (List Action))} {a : Action}
    (hop : ∀ name, a.op ≠ .includeSource name) : Maintains P (asm.replaceInclude nested a) := by
  unfold replaceInclude
  rw [hinc]
  split
  · rename_i hnone
    cases hnone
  · rename_i name _ hname _
    exact absurd hname (hop name)
  · rename_i hnone
    cases hnone
  · rename_i name args inc _ hsome
    cases hsome
    exact ((Loader.binary_maintains (hP.unmoved _) name a.location).locating a.location).bind
      fun bytes => (note_maintains (hP.unmoved _) _).bind fun _ => .pure _
  · exact .pure _

theorem replaceEach_keeps {P : Session → Prop} {f : Action → SessionM (List Action)}
    {acts r : List Action} {s s' : Session}
    (hf : ∀ a ∈ acts, ∀ s s' bs, P s → f a s = .ok bs s' → P s') (hs : P s)
    (h : replaceEach f acts s = .ok r s') : P s' := by
  induction acts generalizing r s with
  | nil =>
      obtain ⟨-, rfl⟩ := pure_eq_ok.mp h
      exact hs
  | cons a rest ih =>
      obtain ⟨ha, hrest⟩ := List.forall_mem_cons.mp hf
      obtain ⟨bs, rest', s₁, hbs, htail, -⟩ := replaceEach_cons_eq_ok h
      exact ih hrest (ha s s₁ bs hs hbs) htail

/-- The chain of the file that an include stands in is kept when the include is
replaced, if what is replaced inside keeps the chain of the included file. -/
theorem replaceInclude_chain (hinc : asm.includer = some ld.includer)
    {nested : Option (List Action → SessionM (List Action))} {file : String} {chain : List String}
    {a : Action} (ha : ∀ name, a.op = .includeSource name → a.location.file = file)
    (hnested : ∀ f, nested = some f → ∀ inner acts r s s', IncludesIn inner acts →
      Chain s.includers inner (inner :: chain) → f acts s = .ok r s' →
      Chain s'.includers inner (inner :: chain))
    {s s' : Session} {bs : List Action} (hchain : Chain s.includers file chain)
    (h : asm.replaceInclude nested a s = .ok bs s') : Chain s'.includers file chain := by
  by_cases hop : ∃ name, a.op = .includeSource name
  · obtain ⟨name, hop⟩ := hop
    obtain rfl := ha name hop
    cases nested with
    | none =>
        unfold replaceInclude at h
        rw [hop, hinc] at h
        exact absurd h throw_ne_ok
    | some f =>
        rw [replaceInclude_source hinc f hop] at h
        obtain ⟨acts, s₁, hincluded, h⟩ := bind_eq_ok.mp h
        obtain ⟨inner, _, -, hin, hpush⟩ := included_eq_ok hchain hincluded
        obtain ⟨-, -, hrest⟩ := (hnested f rfl inner acts bs s₁ s' hin hpush h).head_eq
        rwa [hchain.file_eq hrest] at hrest
  · have hkept : AboutIncluders fun s => Chain s.includers file chain := by
      intro s s' heq h
      rwa [heq]
    exact (replaceInclude_other hkept hinc fun name h => hop ⟨name, h⟩).of_eq_ok h hchain

/-- While a file is read, and all that it includes, its chain stays. -/
theorem resolveIncludes_chain (hinc : asm.includer = some ld.includer) (levels : Nat)
    {file : String} {chain : List String} {acts r : List Action} {s s' : Session}
    (hacts : IncludesIn file acts) (hchain : Chain s.includers file chain)
    (h : asm.resolveIncludes levels acts s = .ok r s') : Chain s'.includers file chain := by
  induction levels generalizing file chain acts r s s' with
  | zero =>
      rw [resolveIncludes] at h
      refine replaceEach_keeps (P := fun s => Chain s.includers file chain) ?_ hchain h
      intro a ha s s' bs hs hbs
      exact replaceInclude_chain hinc (hacts a ha) (fun f hf => by cases hf) hs hbs
  | succ levels ih =>
      rw [resolveIncludes] at h
      refine replaceEach_keeps (P := fun s => Chain s.includers file chain) ?_ hchain h
      intro a ha s s' bs hs hbs
      refine replaceInclude_chain hinc (hacts a ha) (fun f hf inner acts r s s' hin hpush h => ?_)
        hs hbs
      cases hf
      exact ih hin hpush h

/-- Whenever a file is asked for, the chain of the file that the include
stands in is the stack of the files that are being included. -/
theorem Calls.chain (hinc : asm.includer = some ld.includer) {levels : Nat}
    {stack stack' : List String} {acts : List Action} {a : Action} {s s' : Session}
    (h : Calls asm ld levels stack acts s stack' a s') {file : String}
    (hacts : IncludesIn file acts) (hchain : Chain s.includers file stack) :
    Chain s'.includers a.location.file stack' := by
  induction h generalizing file with
  | here hop => rwa [hacts _ List.mem_cons_self _ hop]
  | inside hop hfile hincluded _ ih =>
      rw [← hacts _ List.mem_cons_self _ hop] at hchain
      obtain ⟨inner, _, hinner, hin, hpush⟩ := included_eq_ok hchain hincluded
      rw [hfile] at hinner
      cases hinner
      exact ih hin hpush
  | @later levels _ _ _ _ _ _ _ _ _ hreplace _ ih =>
      refine ih (fun a ha => hacts a (List.mem_cons_of_mem _ ha)) ?_
      refine replaceInclude_chain hinc (hacts _ List.mem_cons_self) ?_ hchain hreplace
      intro f hf inner acts r s s' hin hpush h
      cases hf
      exact resolveIncludes_chain hinc levels hin hpush h

/-- If a file that is asked for cannot be read, the includes cannot be resolved. -/
theorem Calls.fails (hinc : asm.includer = some ld.includer) {levels : Nat}
    {stack stack' : List String} {acts : List Action} {a : Action} {s s' s'' : Session}
    (h : Calls asm ld levels stack acts s stack' a s') {name : String} {err : Error}
    (hop : a.op = .includeSource name) (herr : ld.source name a.location s' = .error err s'') :
    asm.resolveIncludes levels acts s = .error (err.atLocation a.location) s'' := by
  induction h with
  | here _ =>
      rw [resolveIncludes, replaceEach, replaceInclude_source hinc _ hop]
      exact bind_eq_error.mpr (.inl (bind_eq_error.mpr (.inl (included_eq_error herr))))
  | inside hop' _ hincluded _ ih =>
      rw [resolveIncludes, replaceEach, replaceInclude_source hinc _ hop']
      exact bind_eq_error.mpr (.inl (bind_eq_error.mpr (.inr ⟨_, _, hincluded, ih hop herr⟩)))
  | later hreplace _ ih =>
      have ih := ih hop herr
      rw [resolveIncludes] at ih ⊢
      rw [replaceEach]
      refine bind_eq_error.mpr (.inr ⟨_, _, hreplace, bind_eq_error.mpr (.inl ?_)⟩)
      exact ih

section

variable {P : Session → Prop}

theorem replaceEach_maintains {f : Action → SessionM (List Action)} (hf : ∀ a, Maintains P (f a))
    (acts : List Action) : Maintains P (replaceEach f acts) := by
  induction acts with
  | nil => exact .pure _
  | cons a rest ih => exact (hf a).bind fun _ => ih.bind fun _ => .pure _

/-- What reading included files maintains, resolving includes does. -/
theorem resolveIncludes_maintains (hP : Unmoved asm.verbose P)
    (hsource : ∀ inc, asm.includer = some inc → ∀ name loc, Maintains P (inc.source name loc))
    (hbinary : ∀ inc, asm.includer = some inc → ∀ name loc, Maintains P (inc.binary name loc))
    (levels : Nat) (acts : List Action) : Maintains P (asm.resolveIncludes levels acts) := by
  have hreplace : ∀ {nested : Option (List Action → SessionM (List Action))},
      (∀ f, nested = some f → ∀ acts, Maintains P (f acts)) →
      ∀ a, Maintains P (asm.replaceInclude nested a) := by
    intro nested hnested a
    unfold replaceInclude
    split
    · exact .throw _
    · rename_i name inc _ hinc
      cases nested with
      | none => exact .throw _
      | some f =>
          exact ((hsource inc hinc name a.location).locating a.location).bind fun _ =>
            (note_maintains hP _).bind fun _ => hnested f rfl _
    · exact .throw _
    · rename_i name args inc _ hinc
      exact ((hbinary inc hinc name a.location).locating a.location).bind fun _ =>
        (note_maintains hP _).bind fun _ => .pure _
    · exact .pure _
  induction levels generalizing acts with
  | zero =>
      rw [resolveIncludes]
      exact replaceEach_maintains (hreplace fun f hf => by cases hf) acts
  | succ levels ih =>
      rw [resolveIncludes]
      refine replaceEach_maintains (hreplace fun f hf => ?_) acts
      cases hf
      exact ih

/-- What reading included files maintains, preparing code does. -/
theorem prepare_maintains (hP : Unmoved asm.verbose P)
    (hsource : ∀ inc, asm.includer = some inc → ∀ name loc, Maintains P (inc.source name loc))
    (hbinary : ∀ inc, asm.includer = some inc → ∀ name loc, Maintains P (inc.binary name loc))
    (actions : List Action) : Maintains P (asm.prepare actions) := by
  have hnote := note_maintains hP
  have hcall : ∀ known a, Maintains P (asm.replaceCall known a) := by
    intro known a
    unfold replaceCall
    split
    · exact .pure _
    · split
      · exact .throw _
      · exact .bind (fun s h => hP.ids s _ h) fun _ => (withIds_maintains hP.ids _).bind fun _ =>
          (hnote _).bind fun _ => .pure _
    · exact .pure _
  refine (hnote _).bind fun _ => (resolveIncludes_maintains hP hsource hbinary _ _).bind fun seq =>
    (hnote _).bind fun _ => .bind ?_ fun seq => (hnote _).bind fun _ => .bind ?_ fun r => ?_
  · unfold expandMacros
    split
    · exact .throw _
    · exact replaceEach_maintains (hcall _) seq
  · refine (withIds_maintains hP.ids _).bind fun labels => ?_
    split
    · exact .throw _
    · exact (hnote _).bind fun _ => .pure _
  · obtain ⟨seq, e⟩ := r
    dsimp only
    split
    · exact .throw _
    · exact .pure _

end

/-- Assembling is one of the uses of a loader. -/
theorem assemble_used (hinc : asm.includer = some ld.includer) (actions : List Action) :
    Maintains ld.Used (asm.assemble actions) := by
  have hP := @Loader.Used.aboutIncluders ld
  have hloader : ∀ inc, asm.includer = some inc → inc = ld.includer :=
    fun inc h => Option.some.inj (h.symm.trans hinc)
  rw [assemble_eq]
  refine (prepare_maintains (hP.unmoved _) ?_ ?_ actions).bind
    fun p => .bind (fun s h => ?_) fun _ => .pure _
  · intro inc h name loc s hs
    rw [hloader inc h]
    exact .source name loc hs
  · intro inc h name loc
    rw [hloader inc h]
    exact Loader.binary_maintains (hP.unmoved _) name loc
  · unfold withEngine
    split <;> exact hP s _ rfl h

/-- The search for include cycles is exact, and ends.  Whatever a loader was
used for before, every file has a finite chain of includers, and no top level
file is refused.  Whenever a file is asked for in an assembly of that file, the
chain of the file that the include stands in is the stack of the files that are
being included; the include is refused, and the assembly fails, just if it asks
for a file on that stack. -/
theorem includers_are_stack (asm : Assembler) (ld : Loader)
    (hinc : asm.includer = some ld.includer)
    (hlib : ∀ file x, ld.library.source file ≠ .error (.includeCycle x)) (s : Session)
    (hused : ld.Used s) :
    (∀ file, ∃ chain, Chain s.includers file chain ∧ chain.Nodup ∧
        ∀ x, Loader.leadsTo s.includers x (s.includers.length + 1) file = decide (x ∈ chain)) ∧
      (∀ name x s', ld.topLevel name s ≠ .error (.includeCycle x) s') ∧
      ∀ name acts s₁, ld.topLevel name s = .ok acts s₁ →
        ∃ file s₀, ld.resolve name {} s = .ok file s₀ ∧
          ∀ (before : List Action) (s₂ : Session),
            (∀ a ∈ before, ∀ name, a.op ≠ .includeSource name) → s₂.includers = s₁.includers →
            ∀ stack a s', Calls asm ld includeDepth [file] (before ++ acts) s₂ stack a s' →
              Chain s'.includers a.location.file stack ∧
                ∀ name x s'', a.op = .includeSource name →
                  ld.resolve name a.location s' = .ok x s'' →
                  ((∃ y t, ld.source name a.location s' = .error (.includeCycle y) t) ↔
                      x ∈ stack) ∧
                    (x ∈ stack → asm.resolveIncludes includeDepth (before ++ acts) s₂ =
                      .error ((Error.includeCycle x).atLocation a.location) s'') := by
  have htop : Chain s.includers ({} : Location).file [] := .top
  refine ⟨fun file => ?_, fun name x s' h => ?_, fun name acts s₁ h => ?_⟩
  · obtain ⟨chain, hchain⟩ := hused.acyclic file
    exact ⟨chain, hchain, hchain.nodup, fun x => Loader.leadsTo_eq hchain⟩
  · obtain ⟨_, _, -, hmem⟩ := (Loader.source_cycle_iff hlib htop).mp ⟨x, s', h⟩
    exact absurd hmem List.not_mem_nil
  · obtain ⟨file, s₀, hfile, -, hin, hpush⟩ := Loader.source_eq_ok htop h
    refine ⟨file, s₀, hfile, fun before s₂ hbefore hs₂ stack a s' hcalls => ?_⟩
    have hacts : IncludesIn file (before ++ acts) :=
      IncludesIn.append (fun a ha name hop => absurd hop (hbefore a ha name)) hin
    have hchain := hcalls.chain hinc hacts (hs₂ ▸ hpush)
    refine ⟨hchain, fun name x s'' hop hx => ⟨?_, fun hmem => ?_⟩⟩
    · rw [Loader.source_cycle_iff hlib hchain, hx]
      constructor
      · rintro ⟨_, _, ⟨⟩, hmem⟩
        exact hmem
      · exact fun hmem => ⟨x, s'', rfl, hmem⟩
    · refine hcalls.fails hinc hop ?_
      rw [Loader.source_eq hchain hx, if_pos hmem]

/-- Two files that include each other. -/
def ringLoader : Loader :=
  { library := Library.ofFiles
      [("a", [46, 73, 78, 67, 76, 85, 68, 69, 34, 98, 34]),
        ("b", [46, 73, 78, 67, 76, 85, 68, 69, 34, 97, 34])] }

theorem includers_are_stack_ringLoader :
    ∃ s', Calls { includer := some ringLoader.includer } ringLoader includeDepth ["a"]
        [Action.plain ⟨"a", 1⟩ (.includeSource "b")] { includers := [("a", "")] } ["b", "a"]
        (Action.plain ⟨"b", 1⟩ (.includeSource "a")) s' ∧
      Chain s'.includers "b" ["b", "a"] ∧
      ∃ y t, ringLoader.source "a" ⟨"b", 1⟩ s' = .error (.includeCycle y) t := by
  have hlib : ∀ file x, ringLoader.library.source file ≠ .error (.includeCycle x) := by
    intro file x h
    change Library.readIn _ file = _ at h
    unfold Library.readIn at h
    split at h <;> cases h
  have htop : ringLoader.topLevel "a" {} =
      .ok [Action.plain ⟨"a", 1⟩ (.includeSource "b")] { includers := [("a", "")] } := by
    cbv
  have hb : ringLoader.resolve "b" ⟨"a", 1⟩ { includers := [("a", "")] } =
      .ok "b" { includers := [("a", "")] } := by
    cbv
  have hincluded : included { includer := some ringLoader.includer } ringLoader "b" ⟨"a", 1⟩
      { includers := [("a", "")] } = .ok [Action.plain ⟨"b", 1⟩ (.includeSource "a")]
        { includers := [("b", "a"), ("a", "")] } := by
    cbv
  have ha : ringLoader.resolve "a" ⟨"b", 1⟩ { includers := [("b", "a"), ("a", "")] } =
      .ok "a" { includers := [("b", "a"), ("a", "")] } := by
    cbv
  have hfirst : ∃ s₀, ringLoader.resolve "a" {} {} = .ok "a" s₀ := ⟨{}, by cbv⟩
  have hcalls : Calls { includer := some ringLoader.includer } ringLoader includeDepth ["a"]
      [Action.plain ⟨"a", 1⟩ (.includeSource "b")] { includers := [("a", "")] } ["b", "a"]
      (Action.plain ⟨"b", 1⟩ (.includeSource "a")) { includers := [("b", "a"), ("a", "")] } :=
    .inside rfl hb hincluded (.here rfl)
  obtain ⟨-, -, hassembly⟩ := includers_are_stack { includer := some ringLoader.includer } ringLoader
    rfl hlib {} (.fresh rfl)
  obtain ⟨file, s₀, hfile, hstack⟩ := hassembly "a" _ _ htop
  obtain ⟨s₁, hs₁⟩ := hfirst
  rw [hs₁] at hfile
  cases hfile
  obtain ⟨hchain, hrefused⟩ := hstack [] _ (fun _ h => absurd h List.not_mem_nil) rfl _ _ _ hcalls
  have hcycle := (hrefused "a" "a" _ rfl ha).1.mpr (List.mem_cons_of_mem _ List.mem_cons_self)
  exact ⟨_, hcalls, hchain, hcycle⟩

end Assembler

end Mos6510
