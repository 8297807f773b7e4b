import Mos6510.Proofs.RelabelledSources
import Mos6510.Proofs.Renumbering

/-!
# Independent runs

The numbers that a session has given out before have no bearing on what source
text is assembled to.  They show in the names that macro calls make and nowhere
else (`builds_independent`).

A run with some numbers given out is compared with one on a fresh session, of
which it is a relabelling (`Relabelling.raise`); and so any two runs are compared.
-/

namespace Mos6510

open Outcome

/-! ## Up to the numbers of macro calls -/

/-- The error with the number of each macro call in its names raised. -/
def Error.raiseCalls (k : Nat) (err : Error) : Error := (Relabelling.raise { seq := k }).error err

/-- Named values with the number of each macro call in their names raised. -/
def raiseNames {α : Type} (k : Nat) (vs : List (String × α)) : List (String × α) :=
  vs.map fun v => (raiseCalls k v.1, v.2)

/-- Two programs that agree once the macro calls of the first have their numbers
raised by `i`, and those of the second by `j`. -/
structure Program.Agree (i j : Nat) (p q : Program) : Prop where
  regions : p.regions = q.regions
  source : p.source = q.source
  labels : (raiseNames i p.labels).Perm (raiseNames j q.labels)
  vars : (raiseNames i p.vars).Perm (raiseNames j q.vars)
  unused : (p.unused.map (Mos6510.raiseCalls i)).Perm (q.unused.map (Mos6510.raiseCalls j))

namespace Relabelling

variable {θ θ' θ'' : Relabelling}

/-- An error told over twice, where names and numbers come out as if told over once. -/
theorem error_error (hname : ∀ n, θ'.name (θ.name n) = θ''.name n)
    (hcall : ∀ n, θ'.call (θ.call n) = θ''.call n) (hmark : ∀ n, θ'.mark (θ.mark n) = θ''.mark n)
    (hnumber : ∀ κ n, θ'.number κ (θ.number κ n) = θ''.number κ n) (err : Error) :
    θ'.error (θ.error err) = θ''.error err := by
  induction err with
  | undefinedSymbol name => exact congrArg Error.undefinedSymbol (hname name)
  | uninitialized name => exact congrArg Error.uninitialized (hname name)
  | duplicateLabel name => exact congrArg Error.duplicateLabel (hname name)
  | conflict name => exact congrArg Error.conflict (hname name)
  | localWithoutParent name => exact congrArg Error.localWithoutParent (hname name)
  | unknownMetaLabel name => exact congrArg Error.unknownMetaLabel (hmark name)
  | duplicateMetaLabel name => exact congrArg Error.duplicateMetaLabel (hmark name)
  | unknownMacro name => exact congrArg Error.unknownMacro (hcall name)
  | duplicateMacro name => exact congrArg Error.duplicateMacro (hcall name)
  | macroArgs name expected got => exact congrArg (Error.macroArgs · expected got) (hcall name)
  | unknownJump j => exact congrArg Error.unknownJump (hnumber .jump j)
  | unknownCounter c => exact congrArg Error.unknownCounter (hnumber .counter c)
  | located loc _ ih => exact congrArg (Error.located loc) ih
  | expanding name loc _ ih => exact congrArg₂ (Error.expanding · loc) (hcall name) ih
  | inSource loc _ ih => exact congrArg (Error.inSource loc) ih
  | inScript text _ ih => exact congrArg (Error.inScript text) ih
  | running address loc _ ih => exact congrArg (Error.running address loc) ih
  | inFile name _ ih => exact congrArg (Error.inFile name) ih
  | onPath operation path _ ih => exact congrArg (Error.onPath operation path) ih
  | inDefine text _ ih => exact congrArg (Error.inDefine text) ih
  | inNumeral digits _ ih => exact congrArg (Error.inNumeral digits) ih
  | _ => rfl

/-- The numbers of jumps and counters are in internal errors only. -/
theorem error_congr (hname : ∀ n, θ.name n = θ'.name n) (hcall : ∀ n, θ.call n = θ'.call n)
    (hmark : ∀ n, θ.mark n = θ'.mark n) {err : Error} (h : err.isInternal = false) :
    θ.error err = θ'.error err := by
  induction err with
  | undefinedSymbol name => exact congrArg Error.undefinedSymbol (hname name)
  | uninitialized name => exact congrArg Error.uninitialized (hname name)
  | duplicateLabel name => exact congrArg Error.duplicateLabel (hname name)
  | conflict name => exact congrArg Error.conflict (hname name)
  | localWithoutParent name => exact congrArg Error.localWithoutParent (hname name)
  | unknownMetaLabel name => exact congrArg Error.unknownMetaLabel (hmark name)
  | duplicateMetaLabel name => exact congrArg Error.duplicateMetaLabel (hmark name)
  | unknownMacro name => exact congrArg Error.unknownMacro (hcall name)
  | duplicateMacro name => exact congrArg Error.duplicateMacro (hcall name)
  | macroArgs name expected got => exact congrArg (Error.macroArgs · expected got) (hcall name)
  | unknownJump | unknownCounter => cases h
  | located loc _ ih => exact congrArg (Error.located loc) (ih h)
  | expanding name loc _ ih => exact congrArg₂ (Error.expanding · loc) (hcall name) (ih h)
  | inSource loc _ ih => exact congrArg (Error.inSource loc) (ih h)
  | inScript text _ ih => exact congrArg (Error.inScript text) (ih h)
  | running address loc _ ih => exact congrArg (Error.running address loc) (ih h)
  | inFile name _ ih => exact congrArg (Error.inFile name) (ih h)
  | onPath operation path _ ih => exact congrArg (Error.onPath operation path) (ih h)
  | inDefine text _ ih => exact congrArg (Error.inDefine text) (ih h)
  | inNumeral digits _ ih => exact congrArg (Error.inNumeral digits) (ih h)
  | _ => rfl

end Relabelling

namespace Error

theorem raiseCalls_raiseCalls (k j : Nat) (err : Error) :
    (err.raiseCalls k).raiseCalls j = err.raiseCalls (k + j) := by
  have hnumber : ∀ k κ n, (Relabelling.raise { seq := k }).number κ n = n := by
    intro k κ n
    unfold Relabelling.number
    cases κ <;> simp [Relabelling.raise, Ids.next]
  unfold raiseCalls
  refine Relabelling.error_error (fun n => ?_) (fun n => ?_) (fun n => ?_) (fun κ n => ?_) err
  · exact Mos6510.raiseCalls_raiseCalls k j n
  · rfl
  · exact Mos6510.raiseCalls_raiseCalls k j n
  · rw [hnumber, hnumber, hnumber]

/-- Where an error is not internal, all that shows is how macro calls are counted. -/
theorem error_raise {err : Error} (h : err.isInternal = false) (ids : Ids) :
    (Relabelling.raise ids).error err = err.raiseCalls ids.seq := by
  unfold raiseCalls
  refine Relabelling.error_congr (fun n => ?_) (fun n => ?_) (fun n => ?_) h <;> rfl

end Error

theorem raiseNames_raiseNames {α : Type} (k j : Nat) (vs : List (String × α)) :
    raiseNames j (raiseNames k vs) = raiseNames (k + j) vs := by
  unfold raiseNames
  rw [List.map_map]
  exact List.map_congr_left fun v _ => Prod.ext (raiseCalls_raiseCalls k j v.1) rfl

/-! ## Programs -/

/-- What a program says of its names is made of the names of the engine. -/
structure Program.Raises (k : Nat) (p q : Program) : Prop where
  regions : q.regions = p.regions
  source : q.source = p.source
  labels : q.labels.Perm (raiseNames k p.labels)
  vars : q.vars.Perm (raiseNames k p.vars)
  unused : q.unused.Perm (p.unused.map (raiseCalls k))

namespace Program

theorem sortByName_perm {α : Type} (es : List (String × α)) : (sortByName es).Perm es :=
  List.mergeSort_perm _ _

/-- Named values are shown the same under other names, up to their order. -/
theorem sortByName_rename (f : String → String) (t : SymbolTable) :
    (sortByName (t.rename f).values).Perm ((sortByName t.values).map fun v => (f v.1, v.2)) := by
  rw [SymbolTable.values_rename]
  exact (sortByName_perm _).trans ((sortByName_perm t.values).symm.map _)

/-- So are the names of variables that were never read. -/
theorem unused_rename (f : String → String) {e e' : Engine} (h : e'.vars = e.vars.rename f) :
    (ofEngine e').unused.Perm ((ofEngine e).unused.map f) := by
  have hunused : ((e'.vars.entries.filter fun v => !v.2.wasRead).map (·.1)) =
      ((e.vars.entries.filter fun v => !v.2.wasRead).map (·.1)).map f := by
    rw [h]
    show ((e.vars.entries.map _).filter _).map _ = _
    rw [List.filter_map, List.map_map, List.map_map]
    rfl
  unfold ofEngine
  dsimp only
  rw [hunused]
  exact (List.mergeSort_perm _ _).trans ((List.mergeSort_perm _ _).symm.map _)

/-- The program of a relabelled engine has relabelled names. -/
theorem raises_of_relabelled {ids : Ids} {e e' : Engine}
    (h : Engine.Relabelled (Relabelling.raise ids) e e') :
    Raises ids.seq (ofEngine e) (ofEngine e') := by
  obtain ⟨counters, log, rfl, -⟩ := h
  exact ⟨rfl, rfl, sortByName_rename (raiseCalls ids.seq) e.labels,
    sortByName_rename (raiseCalls ids.seq) e.vars, unused_rename (raiseCalls ids.seq) rfl⟩

/-- Two programs that come of one agree up to what that one was raised by. -/
theorem Raises.agree {i j : Nat} {o p q : Program} (hp : Raises i o p) (hq : Raises j o q) :
    Agree j i p q := by
  have hnames : ∀ {vs ws us : List (String × Int64)}, vs.Perm (raiseNames i us) →
      ws.Perm (raiseNames j us) → (raiseNames j vs).Perm (raiseNames i ws) := by
    intro vs ws us hvs hws
    have hleft : (raiseNames j vs).Perm (raiseNames (i + j) us) := by
      rw [← raiseNames_raiseNames]
      exact hvs.map _
    have hright : (raiseNames i ws).Perm (raiseNames (i + j) us) := by
      rw [Nat.add_comm, ← raiseNames_raiseNames]
      exact hws.map _
    exact hleft.trans hright.symm
  refine ⟨hp.regions.trans hq.regions.symm, hp.source.trans hq.source.symm,
    hnames hp.labels hq.labels, hnames hp.vars hq.vars, ?_⟩
  have hleft := hp.unused.map (raiseCalls j)
  have hright := hq.unused.map (raiseCalls i)
  simp only [List.map_map, Function.comp_def, raiseCalls_raiseCalls] at hleft hright
  rw [Nat.add_comm] at hright
  exact hleft.trans hright.symm

end Program

/-! ## Builds -/

namespace Assembler

variable {asm : Assembler} {ld : Loader}

/-- Read a main file and assemble it. -/
def build (asm : Assembler) (ld : Loader) (main : String) : SessionM Assembly := do
  let actions ← ld.topLevel main
  asm.assemble actions

theorem build_eq (asm : Assembler) (ld : Loader) (main : String) :
    asm.build ld main = asm.loaded ld main >>= fun seq => asm.gathered seq >>= asm.executed := by
  unfold build loaded
  rw [bind_assoc]
  congr 1
  funext actions
  exact asm.assemble_eq_spliced actions

/-- What was loaded was source text, of which the rest of the build is a part. -/
theorem loaded_eq_ok {main : String} {seq : List Action} {s s' : Session}
    (h : asm.loaded ld main s = .ok seq s') :
    ∃ (r : Reader) (file : String) (text : List Text.Glyph) (actions : List Action)
      (t₀ t₁ s₁ : Session), r.actions file text t₀ = .ok actions t₁ ∧ t₁.ids ≤ s₁.ids ∧
        asm.spliced actions s₁ = .ok seq s' := by
  obtain ⟨actions, s₁, htop, hspliced⟩ := bind_eq_ok.mp h
  obtain ⟨r, file, text, t₀, t₁, -, hread, hle⟩ := ld.includer_inSession.source htop
  exact ⟨r, file, text, actions, t₀, t₁, s₁, hread, hle, hspliced⟩

section

variable (hinc : ∀ inc, asm.includer = some inc → inc = ld.includer)

include hinc

/-- Once loaded, source text is assembled alike with macro calls counted from
elsewhere, up to the numbers of these. -/
theorem assemble_raise {main : String} {seq : List Action} {s s' t : Session} {ids : Ids}
    (hloaded : asm.loaded ld main s = .ok seq s') (hahead : (Relabelling.raise ids).Ahead s' t) :
    Accord (fun err err' => err' = err.raiseCalls ids.seq)
      (fun a _ b _ => Program.Raises ids.seq a.program b.program)
      ((asm.gathered seq >>= asm.executed) s')
      ((asm.gathered ((Relabelling.raise ids).actions seq) >>= asm.executed) t) := by
  obtain ⟨r, file, text, actions, t₀, t₁, s₁, hread, hle, hspliced⟩ := loaded_eq_ok hloaded
  have hsession : ∀ inc, asm.includer = some inc → inc.InSession := by
    intro inc h
    rw [hinc inc h]
    exact ld.includer_inSession
  have hexternal : ∀ err s₂, (asm.gathered seq >>= asm.executed) s' = .error err s₂ →
      err.isInternal = false := by
    intro err s₂ h
    have hlinks := (sources_link asm r file text actions t₀ t₁ s₁ hread hle hsession).2
    refine (hlinks err s₂ ?_).resolve_left fun h => ?_
    · rw [assemble_eq_spliced, bind_of_ok hspliced]
      exact h
    · change asm.spliced actions s₁ = .error err s₂ at h
      rw [hspliced] at h
      cases h
  refine (assemble_relabel rfl hread hle hsession hspliced hahead).imp (fun err s₂ err' h herr => ?_)
    fun a s₂ b t₂ _ _ h => Program.raises_of_relabelled h.1
  exact Eq.trans herr (Error.error_raise (hexternal err s₂ h) ids)

end

/-- Runs are independent.  Whatever numbers two sessions have given out before, and
whatever else was done in them, a main file is read and assembled in both with the
same error, or to the same regions, source locations, labels and variables, up to
the numbers of macro calls in names: these agree once each run has them raised by
what the other session had counted before. -/
theorem builds_independent (asm : Assembler) (ld : Loader)
    (hinc : ∀ inc, asm.includer = some inc → inc = ld.includer) (main : String) (s t : Session) :
    Accord
      (fun err err' => err = err' ∨ err.raiseCalls t.ids.seq = err'.raiseCalls s.ids.seq)
      (fun a _ b _ => Program.Agree t.ids.seq s.ids.seq a.program b.program)
      (asm.build ld main s) (asm.build ld main t) := by
  have hfresh : ∀ s : Session, (Relabelling.raise s.ids).Ahead {} s := by
    rintro ⟨⟨jump, counter, seq⟩, log, includers, missed⟩
    show Ids.mk jump counter seq = Ids.mk (0 + jump) (0 + counter) (0 + seq)
    simp only [Nat.zero_add]
  have hloaded : Accord
      (fun err err' => err = err' ∨ err.raiseCalls t.ids.seq = err'.raiseCalls s.ids.seq)
      (fun seq₁ s₁ seq₂ t₁ => ∃ seq u, asm.loaded ld main {} = .ok seq u ∧
        Both (Relabelling.raise s.ids).Tells (Relabelling.raise s.ids).Ahead seq u seq₁ s₁ ∧
        Both (Relabelling.raise t.ids).Tells (Relabelling.raise t.ids).Ahead seq u seq₂ t₁)
      (asm.loaded ld main s) (asm.loaded ld main t) := by
    have hs := loaded_inStep (θ := Relabelling.raise s.ids) rfl hinc main (hfresh s)
    have ht := loaded_inStep (θ := Relabelling.raise t.ids) rfl hinc main (hfresh t)
    refine hs.span ht (fun err err₁ err₂ h₁ h₂ => .inl (h₁.symm.trans h₂)) ?_
    exact fun seq u seq₁ s₁ seq₂ t₁ h h₁ h₂ => ⟨seq, u, h, h₁, h₂⟩
  rw [build_eq]
  refine hloaded.bind ?_
  rintro seq₁ s₁ seq₂ t₁ - ⟨seq, u, h, ⟨hseq₁, hs⟩, hseq₂, ht⟩
  rw [show seq₁ = (Relabelling.raise s.ids).actions seq from hseq₁,
    show seq₂ = (Relabelling.raise t.ids).actions seq from hseq₂]
  refine (assemble_raise hinc h hs).span (assemble_raise hinc h ht) (fun err err₁ err₂ h₁ h₂ => ?_)
    fun a s' b₁ s₂ b₂ t₂ _ h₁ h₂ => h₁.agree h₂
  rw [h₁, h₂, Error.raiseCalls_raiseCalls, Error.raiseCalls_raiseCalls, Nat.add_comm]
  exact .inr rfl

/-- The bytes of a file in which a macro is called. -/
def callBytes : List UInt8 :=
  "@ = $0 .MACRO m _top: .DW _top .ENDMACRO .CALL m".toList.map fun c => UInt8.ofNat c.toNat

def mainLoader (bytes : List UInt8) : Loader := { library := Library.ofFiles [("m", bytes)] }

theorem mainLoader_topLevel (bytes : List UInt8) (s : Session) :
    (mainLoader bytes).topLevel "m" s = ({} : Reader).actions "m" (Text.Glyph.ofBytes bytes)
      { s with includers := ("m", "") :: s.includers } := by
  have hpick : (mainLoader bytes).pick (Loader.candidates ((mainLoader bytes).foldersFrom {}) "m") =
      ([], some "m") := by
    cbv
  have hfile : (mainLoader bytes).resolve "m" {} s = .ok "m" s := by
    unfold Loader.resolve
    dsimp only
    rw [hpick]
    rfl
  have hbytes : (mainLoader bytes).library.source "m" = .ok bytes := by
    cbv
  refine (Loader.source_eq .top hfile).trans ?_
  rw [if_neg List.not_mem_nil]
  unfold Loader.read
  rw [hbytes]
  rfl

/-- The loader that finds it, and an assembler for it. -/
def callLoader : Loader := mainLoader callBytes

def callAssembler : Assembler := { includer := some callLoader.includer }

/-- A second run in the session that a first one has left. -/
theorem builds_independent_twice :
    ∃ a s b t, callAssembler.build callLoader "m" {} = .ok a s ∧
      callAssembler.build callLoader "m" s = .ok b t ∧
      a.engine.labels.values.map (·.1) = ["M$1$$_TOP", "M$1"] ∧
      b.engine.labels.values.map (·.1) = ["M$2$$_TOP", "M$2"] ∧
      Program.Agree 1 0 a.program b.program := by
  have hbuild : ∀ s, callAssembler.build callLoader "m" s =
      (({} : Reader).actions "m" (Text.Glyph.ofBytes callBytes) >>= callAssembler.assemble)
        { s with includers := ("m", "") :: s.includers } := by
    intro s
    show EStateM.bind ((mainLoader callBytes).topLevel "m") _ s = EStateM.bind _ _ _
    unfold EStateM.bind
    rw [mainLoader_topLevel]
  have hrun : isOkWith (fun a s => isOkWith (fun b _ => s.ids.seq == 1 &&
        a.engine.labels.values.map (·.1) == ["M$1$$_TOP", "M$1"] &&
        b.engine.labels.values.map (·.1) == ["M$2$$_TOP", "M$2"])
      (callAssembler.build callLoader "m" s)) (callAssembler.build callLoader "m" {}) = true := by
    simp only [hbuild]
    decide +kernel
  obtain ⟨a, s, ha, hrun⟩ := exists_of_isOkWith hrun
  obtain ⟨b, t, hb, hrun⟩ := exists_of_isOkWith hrun
  simp only [Bool.and_eq_true, beq_iff_eq] at hrun
  obtain ⟨⟨hseq, hfirst⟩, hsecond⟩ := hrun
  have hagree := builds_independent callAssembler callLoader (fun inc h => (Option.some.inj h).symm)
    "m" {} s
  rw [ha, hb, hseq] at hagree
  cases hagree with
  | ok h => exact ⟨a, s, b, t, ha, hb, hfirst, hsecond, h⟩

end Assembler

end Mos6510
