import Mos6510.Proofs.HushedLines
import Mos6510.Proofs.HushedRuns
import Mos6510.Proofs.Includes
import Mos6510.Proofs.Locals
import Mos6510.Proofs.Reach
import Mos6510.Proofs.Reference

/-!
# What is left in the log

Unless reports are wanted, an assembly writes nothing to the log but the messages
that its final pass comes to.

* `quietLog`: the log of an engine without reports, which all actions but messages
  leave alone (`Op.run_quiet`);
* `Visit.entry?`: the entry of a message, computed where the message is visited;
* `Code.Runs.entries`: in the final pass each message makes its entry, in the order of
  the visits, and nothing else makes one;
* `Assembler.log_eq_entries`: so the log of an assembly tells its final pass;
* `Assembler.messages_inert`: and that is all that messages do.
-/

namespace Mos6510

open Outcome EngineM

/-! ## Actions that report nothing -/

/-- The log of an engine, unless reports are wanted. -/
def Engine.quietLog (e : Engine) : Option Log := if e.verbose then none else some e.log

theorem quietLog_disregards : Disregards Engine.quietLog where
  stack := fun _ _ => rfl
  jump := fun _ _ => rfl
  counters := fun _ _ => rfl

theorem Engine.quietLog_eq_some {e : Engine} {l : Log} :
    e.quietLog = some l ↔ e.verbose = false ∧ e.log = l := by
  unfold quietLog
  cases e.verbose <;> simp

theorem emit_quiet (kind : RegionKind) (v : Int64) :
    Keeps Engine.quietLog (Engine.emit kind v) := by
  intro e u e' h
  obtain ⟨a, -, -, -, rfl⟩ := Engine.emit_eq_ok.mp h
  rfl

theorem readSymbol_quiet (name : String) : Keeps Engine.quietLog (Engine.readSymbol name) := by
  intro e v e' h
  obtain ⟨full, c, -, -, -, hcase⟩ := Engine.readSymbol_eq_ok.mp h
  obtain ⟨vars, labels, pc, heq, -⟩ := Engine.markRead_eq e full c
  rw [heq] at hcase
  rcases hcase with ⟨-, rfl⟩ | ⟨-, -, rfl⟩ <;> rfl

theorem assign_quiet (name : String) (v : Int64) :
    Keeps Engine.quietLog (Engine.assign name v) := by
  intro e u e' h
  obtain ⟨full, -, ⟨-, rfl⟩ | ⟨-, -, rfl⟩⟩ := Engine.assign_eq_ok.mp h <;> rfl

theorem placeLabel_quiet (name : String) (synthetic : Bool) :
    Keeps Engine.quietLog (Engine.placeLabel name synthetic) := by
  intro e u e' h
  obtain ⟨full, a, -, -, -, rfl⟩ := Engine.placeLabel_eq_ok.mp h
  unfold Engine.quietLog Engine.placed
  cases e.verbose <;> simp [Log.addIf]

/-- Only messages go to the log of an engine without reports. -/
theorem Op.run_quiet (op : Op) (loc : Location) (hmsg : op.isMessage = false) :
    Keeps Engine.quietLog (op.run loc) := by
  have hkeeps := quietLog_disregards
  cases op with
  | load v => exact (startOperand_keeps fun _ _ => rfl).bind fun _ => hkeeps.push v
  | get name =>
      exact (startOperand_keeps fun _ _ => rfl).bind fun _ => (readSymbol_quiet name).bind hkeeps.push
  | set name => exact hkeeps.pop.bind fun v => assign_quiet name v
  | label name synthetic => exact placeLabel_quiet name synthetic
  | instruction code => exact encode_keeps hkeeps.pop (emit_quiet .code) _
  | width mnemonic index => exact encodeWidth_keeps hkeeps.pop (emit_quiet .code) mnemonic index
  | message => cases hmsg
  | _ => exact Op.run_routine hkeeps _ (fun _ => emit_quiet .data) loc rfl

theorem runEach_quiet {acts : List Action} (hacts : ∀ a ∈ acts, a.op.isMessage = false) :
    Keeps Engine.quietLog (runEach acts) := by
  induction acts with
  | nil =>
      rw [runEach]
      exact Keeps.pure _
  | cons a rest ih =>
      obtain ⟨ha, hrest⟩ := List.forall_mem_cons.mp hacts
      obtain ⟨loc, op, x⟩ := a
      rw [runEach]
      refine Keeps.bind (fun e u e' h => ?_) fun _ => ih hrest
      exact op.run_quiet loc ha (locating_eq_ok.mp h)

/-- The arguments of a message are evaluated without a report. -/
theorem argValues_quiet {args : List (List Action)} (hargs : ∀ arg ∈ args, IsMessageArg arg) :
    Keeps Engine.quietLog (argValues args) := by
  induction args with
  | nil =>
      rw [argValues]
      exact Keeps.pure _
  | cons arg rest ih =>
      obtain ⟨harg, hrest⟩ := List.forall_mem_cons.mp hargs
      rcases argValues_cons arg rest with ⟨loc, s, x, -, heq⟩ | ⟨hne, heq⟩
      · rw [heq]
        exact (ih hrest).bind fun _ => Keeps.pure _
      · rcases harg with ⟨loc, s, rfl⟩ | ⟨x, rfl⟩
        · exact absurd rfl (hne loc s none)
        · rw [heq]
          exact (runEach_quiet fun a ha => (x.plain_actions a ha).2).bind fun _ =>
            quietLog_disregards.pop.bind fun _ => (ih hrest).bind fun _ => Keeps.pure _

/-! ## Entries of messages -/

def Visit.isMessage (v : Visit) : Bool := v.action.op.isMessage

/-- The entry that a message makes in the log where it is visited. -/
def Visit.entry? (v : Visit) : Option String :=
  match v.action.op with
  | .message level formatted args =>
    match argValues args v.engine with
    | .ok values _ =>
      match Engine.messageText formatted values with
      | .ok text => some (v.action.location.render ++ ": " ++ level.name ++ ": " ++ text)
      | .error _ => none
    | .error _ _ => none
  | _ => none

/-- The entries are those of the messages among some visits, in their order. -/
def Tells (vs : List Visit) (entries : List String) : Prop :=
  (vs.filter Visit.isMessage).map Visit.entry? = entries.map some

theorem Tells.append {vs ws : List Visit} {entries entries' : List String} (h : Tells vs entries)
    (h' : Tells ws entries') : Tells (vs ++ ws) (entries ++ entries') := by
  unfold Tells at *
  rw [List.filter_append, List.map_append, List.map_append, h, h']

/-- Entries are added to an engine without reports, in order. -/
def Engine.Adds (entries : List String) (e e' : Engine) : Prop :=
  e'.quietLog = e.quietLog.map fun l => ⟨entries.reverse ++ l.entries⟩

theorem Engine.Adds.trans {entries entries' : List String} {e₁ e₂ e₃ : Engine}
    (h : Adds entries e₁ e₂) (h' : Adds entries' e₂ e₃) : Adds (entries ++ entries') e₁ e₃ := by
  unfold Adds at *
  rw [h', h, Option.map_map]
  congr 1
  funext l
  simp

theorem Engine.Adds.of_keeps {e e' : Engine} (h : e'.quietLog = e.quietLog) : Adds [] e e' := by
  unfold Adds
  rw [h]
  exact Option.map_id'.symm

/-- In the final pass a message makes one entry, and any other action none. -/
theorem Action.run_entries {a : Action} (hspeaks : a.Speaks) {e e' : Engine}
    (hfinal : e.isFinal = true) (h : a.run e = .ok () e') :
    ∃ entries, Tells (a.visits e) entries ∧ e.Adds entries e' := by
  obtain ⟨loc, op, x⟩ := a
  cases hmsg : op.isMessage with
  | false =>
      refine ⟨[], ?_, .of_keeps (op.run_quiet loc hmsg h)⟩
      rw [Action.visits_of_not_message _ e hmsg]
      simp [Tells, Visit.isMessage, hmsg]
  | true =>
      cases op with
      | message level formatted args =>
          have hargs := hspeaks level formatted args rfl
          rcases Op.run_message_eq_ok.mp h with ⟨hnot, -⟩ | ⟨-, h⟩
          · rw [hfinal] at hnot
            cases hnot
          obtain ⟨values, e₁, hvalues, hreport⟩ := bind_eq_ok.mp h
          obtain ⟨text, htext, -, rfl⟩ := Engine.report_eq_ok.mp hreport
          refine ⟨[loc.render ++ ": " ++ level.name ++ ": " ++ text], ?_, ?_⟩
          · -- of the visits that a message makes, only itself is one of a message
            have hnested : (argVisits args e).filter Visit.isMessage = [] :=
              List.filter_eq_nil_iff.mpr fun v hv => by
                rw [Visit.isMessage, (argVisits_parent hargs hv).2.2]
                exact Bool.false_ne_true
            rw [Action.visits, Op.nestedVisits, hfinal, if_pos rfl]
            unfold Tells
            rw [List.filter_cons_of_pos rfl, hnested]
            simp only [List.map_cons, List.map_nil, Visit.entry?, hvalues, htext]
          · unfold Engine.Adds
            rw [← argValues_quiet hargs hvalues]
            unfold Engine.quietLog
            cases e₁.verbose <;> rfl
      | _ => cases hmsg

/-- Before the final pass no action makes an entry, not even a message. -/
theorem Action.run_quiet_of_not_final {a : Action} {e e' : Engine} (hfinal : e.isFinal = false)
    (h : a.run e = .ok () e') : e'.quietLog = e.quietLog := by
  rcases Action.run_of_not_final hfinal h with hmsg | rfl
  · obtain ⟨loc, op, x⟩ := a
    exact op.run_quiet loc hmsg h
  · rfl

/-! ## Passes -/

namespace Code

variable {code : Code} (htargets : ∀ j k, code.target? j = some k → ∀ a ∈ k, a.Speaks)

include htargets

/-- A run of the final pass makes one entry for each message that it visits. -/
theorem Runs.entries {n : Nat} {k : List Action} {e e' : Engine} {vs : List Visit}
    (h : code.Runs n k e vs e') (hspeaks : ∀ a ∈ k, a.Speaks) (hfinal : e.isFinal = true) :
    ∃ entries, Tells vs entries ∧ e.Adds entries e' := by
  have hstep : ∀ {a : Action} {e e₁ : Engine}, a.Speaks → e.isFinal = true →
      a.run (e.atAction a) = .ok () e₁ →
      (∃ entries, Tells (a.visits (e.atAction a)) entries ∧ e.Adds entries e₁) ∧
        e₁.isFinal = true := by
    intro a e e₁ ha hfinal hrun
    refine ⟨Action.run_entries ha hfinal hrun, ?_⟩
    unfold Engine.isFinal
    rw [Action.run_pass ha hrun]
    exact hfinal
  induction h with
  | done => exact ⟨[], rfl, .of_keeps rfl⟩
  | next hrun _ _ ih =>
      obtain ⟨ha, hrest⟩ := List.forall_mem_cons.mp hspeaks
      obtain ⟨⟨entries, htells, hadds⟩, hfinal'⟩ := hstep ha hfinal hrun
      obtain ⟨entries', htells', hadds'⟩ := ih hrest hfinal'
      exact ⟨_, htells.append htells', hadds.trans hadds'⟩
  | jump hrun _ ht _ ih =>
      obtain ⟨ha, -⟩ := List.forall_mem_cons.mp hspeaks
      obtain ⟨⟨entries, htells, hadds⟩, hfinal'⟩ := hstep ha hfinal hrun
      obtain ⟨entries', htells', hadds'⟩ := ih (htargets _ _ ht) hfinal'
      exact ⟨_, htells.append htells', hadds.trans hadds'⟩

omit htargets in
/-- A run of any other pass makes none. -/
theorem Runs.quiet {n : Nat} {k : List Action} {e e' : Engine} {vs : List Visit}
    (h : code.Runs n k e vs e') (hfinal : e.isFinal = false) : e'.quietLog = e.quietLog := by
  have hstep : ∀ {a : Action} {e e₁ : Engine}, e.isFinal = false →
      a.run (e.atAction a) = .ok () e₁ → e₁.isFinal = false ∧ e₁.quietLog = e.quietLog := by
    intro a e e₁ hfinal hrun
    refine ⟨?_, Action.run_quiet_of_not_final (e := e.atAction a) hfinal hrun⟩
    unfold Engine.isFinal
    rw [Action.run_pass_of_not_final (e := e.atAction a) hfinal hrun]
    exact hfinal
  induction h with
  | done => rfl
  | next hrun _ _ ih =>
      obtain ⟨hfinal', hquiet⟩ := hstep hfinal hrun
      exact (ih hfinal').trans hquiet
  | jump hrun _ _ _ ih =>
      obtain ⟨hfinal', hquiet⟩ := hstep hfinal hrun
      exact (ih hfinal').trans hquiet

end Code

/-! ## Assemblies -/

theorem Engine.declareVariable_quiet (name parent : String) :
    Keeps quietLog (declareVariable name parent) := by
  intro e u e' h
  unfold declareVariable at h
  split at h
  · obtain rfl := done_eq_ok.mp h
    rfl
  · split at h
    · cases h
    · split at h
      · cases h
      · split at h
        · obtain rfl := done_eq_ok.mp h
          rfl
        · obtain rfl := done_eq_ok.mp h
          rfl

theorem Engine.declareLabel_quiet (name : String) (synthetic : Bool) (parent : String) :
    Keeps quietLog (declareLabel name synthetic parent) := by
  intro e next e' h
  unfold declareLabel at h
  split at h
  · cases h
  · split at h
    · cases h
    · split at h
      · cases h
      · obtain ⟨-, rfl⟩ := ok_eq_ok.mp h
        rfl

theorem Gather.declareAction_quiet (labels : List (String × Nat)) (parent : String) (a : Action) :
    Keeps Engine.quietLog (declareAction labels parent a) := by
  intro e r e' h
  unfold declareAction at h
  split at h
  · obtain ⟨-, rfl⟩ := ok_eq_ok.mp h
    rfl
  · split at h
    · obtain ⟨-, rfl⟩ := ok_eq_ok.mp h
      rfl
    · cases h
  · split at h
    · rename_i hdeclare
      obtain ⟨-, rfl⟩ := ok_eq_ok.mp h
      exact Engine.declareVariable_quiet _ _ hdeclare
    · cases h
  · split at h
    · rename_i hdeclare
      obtain ⟨-, rfl⟩ := ok_eq_ok.mp h
      exact Engine.declareLabel_quiet _ _ _ hdeclare
    · cases h
  · obtain ⟨-, rfl⟩ := ok_eq_ok.mp h
    rfl

theorem Gather.declareAll_quiet (labels : List (String × Nat)) (parent : String)
    (acts : List Action) : Keeps Engine.quietLog (declareAll labels parent acts) := by
  induction acts generalizing parent with
  | nil => exact Keeps.pure _
  | cons a rest ih =>
      exact (declareAction_quiet labels parent a).bind fun r => (ih r.2).bind fun _ => Keeps.pure _

namespace Assembler

variable {code : Code} {e e' : Engine}

/-- A pass before the final one leaves the log of an engine without reports alone. -/
theorem runPass_quiet {pass : Pass} (hpass : pass ≠ .final)
    (h : runPass false code pass e = .ok () e') : e'.quietLog = e.quietLog := by
  obtain ⟨vs, e₁, hpasses, rfl⟩ := runPass_eq_ok_iff.mp h
  exact hpasses.quiet (beq_eq_false_iff_ne.mpr hpass)

/-- Before the passes nothing is reported that is not wanted. -/
theorem prepare_quiet {asm : Assembler} {ld : Loader}
    (hinc : ∀ inc, asm.includer = some inc → inc = ld.includer) (hasm : asm.verbose = false)
    (hld : ld.verbose = false) (hreader : ld.reader.verbose = false) {acts : List Action}
    {s s₁ : Session} (h : asm.prepare acts s = .ok (code, e) s₁) :
    Engine.quietLog { e with log := s₁.log } = some s.log := by
  have hunmoved : ∀ {verbose}, verbose = false → Unmoved verbose fun t => t.log = s.log := by
    rintro _ rfl
    exact unmoved_log s.log
  have hlog : s₁.log = s.log := by
    refine (prepare_maintains (hunmoved hasm) ?_ ?_ acts).of_eq_ok h rfl
    · intro inc hsome name loc
      rw [hinc inc hsome]
      exact Loader.source_maintains (hunmoved hld) (hunmoved hreader) (fun _ _ h => h) name loc
    · intro inc hsome name loc
      rw [hinc inc hsome]
      exact Loader.binary_maintains (hunmoved hld) name loc
  obtain ⟨included, expanded, gathered, -, -, hgather, -⟩ := yields_of_prepare ⟨s, s₁, h⟩
  obtain ⟨labels, hdeclare⟩ := yields_of_gather hgather
  have hquiet : e.quietLog = some {} := by
    rw [Gather.declareAll_quiet labels "" expanded hdeclare, hasm]
    rfl
  exact Engine.quietLog_eq_some.mpr ⟨(Engine.quietLog_eq_some.mp hquiet).1, hlog⟩

/-- Where reports are not wanted, an assembly adds to the log the entries of the
messages that its final pass visits, in their order, and nothing else. -/
theorem log_eq_entries {asm : Assembler} {ld : Loader} {acts : List Action}
    (hlowered : Lowered acts) (hinc : ∀ inc, asm.includer = some inc → inc = ld.includer)
    (hasm : asm.verbose = false) (hld : ld.verbose = false) (hreader : ld.reader.verbose = false)
    {s s' : Session} {a : Assembly} (h : asm.assemble acts s = .ok a s') :
    ∃ entries, s'.log.entries = entries.reverse ++ s.log.entries ∧
      Tells (asm.finalTrace acts s) entries := by
  obtain ⟨e₀, s₁, w, f, hprepare, hstages, -, rfl⟩ := assemble_eq_ok_iff.mp h
  have hread : ∀ inc, asm.includer = some inc → inc.Lowered := fun inc hsome => by
    rw [hinc inc hsome]
    exact ld.includer_lowered
  obtain ⟨hspeaks, htargets⟩ := prepare_speaks hlowered hread ⟨s, s₁, hprepare⟩
  obtain ⟨e, entry, hpasses, hn⟩ := exists_passes_finalTrace hprepare hstages
  obtain ⟨entries, htells, hadds⟩ := hpasses.entries htargets hspeaks rfl
  rw [hasm] at hstages hn
  have hstart : f.quietLog = some s.log := by
    rw [runPass_quiet (by decide) hstages.first, runPass_quiet (by decide) hstages.warmUp,
      prepare_quiet hinc hasm hld hreader hprepare]
  have hend : e.quietLog = some ⟨entries.reverse ++ s.log.entries⟩ := by
    rw [hadds, show (a.code.start .final f).quietLog = f.quietLog from rfl, hstart]
    rfl
  have hlog : a.engine.log = ⟨entries.reverse ++ s.log.entries⟩ := by
    rw [hn]
    exact (Engine.quietLog_eq_some.mp hend).2
  exact ⟨entries, congrArg Log.entries hlog, htells⟩

/-- Messages are inert.  Where a program that was read is assembled, it still is
without any of its notices, and of those in the files that it includes, and to the same
regions, labels, variables and source; the notices may be taken out of the lines of the
source as well.  If no reports are wanted, what is new in the log are the entries of the
messages that the final pass visits, one for each, in the order of execution. -/
theorem messages_inert (asm : Assembler) (ld : Loader) (file : String) (text : List Text.Glyph)
    (s₀ s s' : Session) (acts : List Action) (a : Assembly)
    (hinc : ∀ inc, asm.includer = some inc → inc = ld.includer)
    (hread : ld.reader.actions file text s₀ = .ok acts s)
    (h : asm.assemble acts s = .ok a s') :
    (∀ lines', Trimmed (linesOf file (Lexer.scan ld.reader.defines text).tokens).1 lines' →
      ∃ acts', Reader.lower lines' none { s₀ with log := s.log } = .ok acts' s ∧
        Hushed acts acts') ∧
    (∀ (f : Edit) (acts' : List Action), f.Hushes → Hushed acts acts' →
      ∃ a' s'', (asm.edited f).assemble acts' s = .ok a' s'' ∧
        a'.program.regions = a.program.regions ∧ a'.program.labels = a.program.labels ∧
        a'.program.vars = a.program.vars ∧ a'.program.source = a.program.source) ∧
    (asm.verbose = false → ld.verbose = false → ld.reader.verbose = false →
      ∃ entries : List String, s'.log.entries = entries.reverse ++ s₀.log.entries ∧
        ((asm.finalTrace acts s).filter Visit.isMessage).map Visit.entry? = entries.map some) := by
  have hlowered : Lowered acts := ⟨ld.reader, file, text, s₀, s, hread⟩
  refine ⟨fun lines' h => Reader.actions_trimmed hread h, fun f acts' hf hacts => ?_,
    fun hasm hld hreader => ?_⟩
  · obtain ⟨a', s'', hrun, hout⟩ := assemble_hushed hlowered hinc hf hacts h
    refine ⟨a', s'', hrun, ?_⟩
    simp only [Assembly.program, Program.ofEngine, hout.regions, hout.labels, hout.vars, hout.source,
      and_self]
  -- reading quietly writes no entry, so the log starts as it was
  · have hsame : s.log = s₀.log := by
      have hP : Unmoved ld.reader.verbose fun t => t.log = s₀.log := by
        rw [hreader]
        exact unmoved_log s₀.log
      exact (Reader.actions_maintains hP file text).of_eq_ok hread rfl
    rw [← hsame]
    exact log_eq_entries hlowered hinc hasm hld hreader h

/-- Messages in a macro, a loop and a condition, and one about a label behind it. -/
def chattySource : List Text.Glyph :=
  Text.Glyph.ofString "@ = $1000 .MACRO m, p .INFO \"in \", p .DB p .ENDMACRO .REP 2
    .WARN \"loop\" NOP .ENDREP .IF @ .INFO end .CALL m, 7 .ENDIF end: RTS"

theorem messages_inert_chattySource :
    ∃ acts s a s' a' s'', ({} : Reader).actions "main" chattySource {} = .ok acts s ∧
      ({} : Assembler).assemble acts s = .ok a s' ∧
      ({} : Assembler).assemble (silence acts) s = .ok a' s'' ∧
      a'.program.regions = a.program.regions ∧ a'.program.labels = a.program.labels ∧
      a'.program.vars = a.program.vars ∧ a'.program.source = a.program.source ∧
      s''.log.entries = [] ∧
      s'.log.entries.reverse = ["main:2: warning: loop", "main:2: warning: loop",
        "main:2: info: 4099", "main:1: info: in 7"] ∧
      ((({} : Assembler).finalTrace acts s).filter Visit.isMessage).map Visit.entry? =
        s'.log.entries.reverse.map some := by
  have hrun : isOkWith (fun acts s =>
      isOkWith (fun _ s' => s'.log.entries.reverse == ["main:2: warning: loop",
          "main:2: warning: loop", "main:2: info: 4099", "main:1: info: in 7"])
          (({} : Assembler).assemble acts s) &&
        isOkWith (fun _ s'' => s''.log.entries == []) (({} : Assembler).assemble (silence acts) s))
      (({} : Reader).actions "main" chattySource {}) = true := by
    decide +kernel
  obtain ⟨acts, s, hread, hrun⟩ := exists_of_isOkWith hrun
  obtain ⟨hrun, hsilent⟩ := Bool.and_eq_true_iff.mp hrun
  obtain ⟨a, s', h, hlines⟩ := exists_of_isOkWith hrun
  obtain ⟨a', s'', h', hnone⟩ := exists_of_isOkWith hsilent
  obtain ⟨-, hinert, hlog⟩ := messages_inert {} { library := .ofFiles [] } "main" chattySource {} s s'
    acts a (fun _ hinc => nomatch hinc) hread h
  obtain ⟨b, t, hb, hregions, hlabels, hvars, hsource⟩ :=
    hinert (fun _ _ => silence) (silence acts) (fun _ _ => hushed_silence) (hushed_silence acts)
  obtain ⟨rfl, rfl⟩ := ok_eq_ok.mp (hb.symm.trans h')
  obtain ⟨entries, hentries, htells⟩ := hlog rfl rfl rfl
  have hreverse : s'.log.entries.reverse = entries := by
    rw [hentries]
    simp
  refine ⟨acts, s, a, s', _, _, hread, h, h', hregions, hlabels, hvars, hsource, by simpa using hnone,
    by simpa using hlines, ?_⟩
  rw [hreverse]
  exact htells

end Assembler

end Mos6510
