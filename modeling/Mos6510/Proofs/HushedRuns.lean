import Mos6510.Proofs.Hushed
import Mos6510.Proofs.Rerun

/-!
# Running a program with messages taken out

Before the final pass a message does nothing.  In the final pass it evaluates its
arguments, and leaves nothing behind but marks of symbols that were read.  So a run
of hushed code stays beside the run of the full code, although every target is found
at another place.

* `Code.Runs.hushed`: the run of the hushed code, for any relation of the two engines
  that shown messages keep;
* `Assembler.runPass_hushed`: a pass before the final one leaves the same engine;
* `Assembler.runPass_final_hushed`: the final pass leaves the same output;
* `Assembler.assemble_hushed`: a hushed program is assembled to the same program.
-/

namespace Mos6510

open Outcome EngineM

/-! ## Engines with the same numbers -/

/-- Each number stands for itself. -/
def Pairing.same : Pairing := fun _ n n' => n = n'

/-- The engines differ in their logs at most, and in records of locations. -/
abbrev Engine.Alike : Engine → Engine → Prop := Engine.Mirrors .same

namespace Engine.Alike

variable {e e' : Engine}

theorem jump_eq (h : Alike e e') : e.jump = e'.jump := by
  rcases h.jump with ⟨hj, hj'⟩ | ⟨j, j', rfl, hj, hj'⟩ <;> rw [hj, hj']

theorem counters_eq (h : Alike e e') : e.counters = e'.counters := by
  refine Array.ext_getElem? fun n => ?_
  have hn := h.counters n n rfl
  unfold Engine.counter? at hn
  rwa [if_neg (by omega), if_neg (by omega)] at hn

theorem of_eq (hcore : e.core = e'.core) (hjump : e.jump = e'.jump)
    (hcounters : e.counters = e'.counters) : Alike e e' := by
  refine ⟨hcore, ?_, ?_⟩
  · rw [hjump]
    cases e'.jump with
    | none => exact .inl ⟨rfl, rfl⟩
    | some j => exact .inr ⟨j, j, rfl, rfl, rfl⟩
  · rintro c _ rfl
    unfold Engine.counter?
    rw [hcounters]

end Engine.Alike

theorem requestJump_alike (j : Int) : Respects Engine.Alike (Engine.requestJump j) := by
  intro e e' h u d hrun
  obtain rfl := Engine.requestJump_eq_ok.mp hrun
  exact ⟨_, Engine.requestJump_eq_ok.mpr rfl, .of_eq h.core rfl h.counters_eq⟩

theorem setCounter_alike (c : Int) (v : Int64) :
    Respects Engine.Alike (Engine.setCounter c v) := by
  intro e e' h u d hrun
  obtain rfl := Engine.setCounter_eq_ok.mp hrun
  refine ⟨_, Engine.setCounter_eq_ok.mpr rfl, .of_eq h.core h.jump_eq ?_⟩
  exact congrArg (Array.setIfInBounds · c.toNat v) h.counters_eq

theorem loadCounter_alike (c : Int) : Respects Engine.Alike (Engine.loadCounter c) := by
  intro e e' h u d hrun
  obtain ⟨hsome, hset⟩ := Engine.loadCounter_eq_ok.mp hrun
  obtain ⟨d', hset', h'⟩ := (Respects.bind pop_mimics fun v => setCounter_alike c v) h hset
  rw [h.counters c c rfl] at hsome
  exact ⟨d', Engine.loadCounter_eq_ok.mpr ⟨hsome, hset'⟩, h'⟩

/-- Where the log and the locations are all that differs, nothing else does. -/
theorem Op.run_alike (op : Op) (loc : Location) (hmsg : op.isMessage = false) :
    Respects Engine.Alike (op.run loc) := by
  cases hmeta : op.isMeta with
  | true =>
      rw [Op.run_of_isMeta hmeta]
      exact Respects.throw _
  | false =>
      cases op with
      | bytes name bytes =>
          exact Respects.bind pop_mimics fun length => Respects.bind pop_mimics fun skip =>
            emitBytes_mimics false _
      | jump j => exact requestJump_alike j
      | jumpIfFalse j =>
          refine Respects.bind pop_mimics fun v => ?_
          split
          · exact requestJump_alike j
          · exact Respects.pure _
      | counterSet c => exact loadCounter_alike c
      | counterTest c j =>
          refine Respects.bind (counter_mimics rfl) fun v => ?_
          split
          · exact requestJump_alike j
          · exact Respects.pure _
      | counterStep c j =>
          exact Respects.bind (counter_mimics rfl) fun v => (setCounter_alike c _).bind fun _ =>
            requestJump_alike j
      | message => cases hmsg
      | _ => first | cases hmeta; done | exact Op.run_plain_mimics rfl loc loc

theorem alike_respectful : Respectful Engine.Alike where
  op := Op.run_alike
  pop := pop_mimics
  report := fun loc level formatted args => report_mimics loc loc level formatted args
  isFinal := fun _ _ h => h.of_congr fun _ => rfl

/-! ## Runs -/

namespace Code

/-- Along a run of the full code, the hushed code runs as well: `R` relates the two
engines, and goes on to do so when the first of them shows a notice. -/
theorem Runs.hushed {R : Engine → Engine → Prop} {code code' : Code} (hcode : code.Hushes code')
    (hkeep : ∀ (a : Action) e d e', R e d → a.run (e.atAction a) = .ok () e' →
      ∃ d', a.run (d.atAction a) = .ok () d' ∧ R e' d')
    (hdrop : ∀ (a : Action) e d e', a.op.isNotice = true → a.Speaks → R e d →
      a.run (e.atAction a) = .ok () e' → R e' d)
    (hpending : ∀ e d, R e d → e.jump = d.jump)
    (hjump : ∀ e d, R e d → R e.afterJump d.afterJump)
    (htargets : ∀ j k, code.target? j = some k → ∀ a ∈ k, a.Speaks)
    {n : Nat} {k k' : List Action} {e e' d : Engine} {vs : List Visit}
    (h : code.Runs n k e vs e') (hspeaks : ∀ a ∈ k, a.Speaks) (hk : Hushed k k')
    (hnone : d.jump = none) (hR : R e d) : ∃ ws d', code'.Runs n k' d ws d' ∧ R e' d' := by
  have hmacro : ∀ {loc name params body x} {e e' : Engine},
      (⟨loc, .defineMacro name params body, x⟩ : Action).run e ≠ .ok () e' := by
    intro loc name params body x e e' hrun
    rw [Action.run, Op.run_of_isMeta rfl] at hrun
    exact throw_ne_ok hrun
  induction h generalizing k' d with
  | done =>
      cases hk
      exact ⟨[], d, .done, hR⟩
  | next hrun hj _ ih =>
      obtain ⟨ha, hrest⟩ := List.forall_mem_cons.mp hspeaks
      cases hk with
      | keep _ hk =>
          obtain ⟨d', hrun', hR'⟩ := hkeep _ _ _ _ hR hrun
          have hj' : d'.jump = none := (hpending _ _ hR').symm.trans hj
          obtain ⟨ws, d'', hruns, hend⟩ := ih hrest hk hj' hR'
          exact ⟨_, d'', .next hrun' hj' hruns, hend⟩
      | drop hnotice hk => exact ih hrest hk hnone (hdrop _ _ _ _ hnotice ha hR hrun)
      | body => exact absurd hrun hmacro
  | jump hrun hj ht _ ih =>
      obtain ⟨ha, -⟩ := List.forall_mem_cons.mp hspeaks
      cases hk with
      | keep _ hk =>
          obtain ⟨d', hrun', hR'⟩ := hkeep _ _ _ _ hR hrun
          have hj' := (hpending _ _ hR').symm.trans hj
          obtain ⟨l', ht', hl'⟩ := hcode.targets _ _ ht
          obtain ⟨ws, d'', hruns, hend⟩ := ih (htargets _ _ ht) hl' rfl (hjump _ _ hR')
          exact ⟨_, d'', .jump hrun' hj' ht' hruns, hend⟩
      | drop hnotice hk =>
          -- no jump is pending before a notice, so it cannot ask for one
          have hpending' := hpending _ _ (hdrop _ _ _ _ hnotice ha hR hrun)
          rw [hj, hnone] at hpending'
          cases hpending'
      | body => exact absurd hrun hmacro

end Code

/-! ## Passes -/

/-- What the first engine leaves untouched keeps it repeated. -/
theorem Engine.Repeats.of_untouched {same : Prop} {e e' d : Engine} (h : Repeats same e d)
    (hu : e.Untouched e') (hstack : e'.stack = e.stack) : Repeats same e' d where
  strict₁ := (Engine.strict_of_pass_eq hu.pass).trans h.strict₁
  strict₂ := h.strict₂
  pass := fun hs => hu.pass.trans (h.pass hs)
  vars := hu.vars.flip.comp h.vars fun _ _ _ _ hcb hcd => ⟨hcb.1.symm.trans hcd.1,
    fun hb => hcd.2 (hcb.2.trans hb)⟩
  labels := hu.labels.flip.comp h.labels fun _ _ _ _ hcb hcd => ⟨hcb.1.symm.trans hcd.1,
    fun hb => hcd.2 (hcb.2.trans hb)⟩
  pc := ⟨hu.pc.1.symm.trans h.pc.1, hu.pc.2.symm.trans h.pc.2⟩
  stack := hstack.trans h.stack
  regions := hu.regions.trans h.regions
  parent := hu.parent.trans h.parent
  jump := hu.jump.trans h.jump
  jumps := hu.jumps.trans h.jumps
  counters := hu.counters.trans h.counters
  location := hu.location.trans h.location
  source := fun hs => hu.source.trans (h.source hs)

/-- Before the final pass a message does nothing. -/
theorem Action.run_of_not_final {a : Action} {e e' : Engine} (hf : e.isFinal = false)
    (h : a.run e = .ok () e') : a.op.isMessage = false ∨ e' = e := by
  obtain ⟨loc, op, x⟩ := a
  cases op with
  | message =>
      rcases Op.run_message_eq_ok.mp h with ⟨-, rfl⟩ | ⟨hf', -⟩
      · exact .inr rfl
      · rw [hf] at hf'
        cases hf'
  | _ => exact .inl rfl

theorem Action.run_pass_of_not_final {a : Action} {e e' : Engine} (hf : e.isFinal = false)
    (h : a.run e = .ok () e') : e'.pass = e.pass := by
  rcases Action.run_of_not_final hf h with hmsg | rfl
  · obtain ⟨loc, op, x⟩ := a
    exact (Op.run_symbolStep loc hmsg h).2
  · rfl

namespace Assembler

variable {code code' : Code} {verbose : Bool} (hcode : code.Hushes code')

include hcode

/-- A pass before the final one leaves the same engine without the notices. -/
theorem runPass_hushed (hspeaks : ∀ a ∈ code.actions, a.Speaks)
    (htargets : ∀ j k, code.target? j = some k → ∀ a ∈ k, a.Speaks) {pass : Pass}
    (hpass : pass ≠ .final) {e e' d : Engine} (he : e.core = d.core)
    (hrun : runPass verbose code pass e = .ok () e') :
    ∃ d', runPass verbose code' pass d = .ok () d' ∧ e'.core = d'.core := by
  obtain ⟨vs, e₁, hpasses, rfl⟩ := runPass_eq_ok_iff.mp hrun
  have hstart : Engine.Alike (code.start pass e) (code'.start pass d) := by
    refine .of_eq ?_ rfl ?_
    · rw [Code.core_start, Code.core_start, he]
    · show Array.replicate _ _ = Array.replicate _ _
      rw [hcode.counters]
  obtain ⟨ws, d₁, hpasses', hend⟩ := hpasses.hushed
    (R := fun e d => Engine.Alike e d ∧ e.pass = pass) hcode
    (by
      rintro a e d e' ⟨h, hp⟩ hrun
      have hat : Engine.Alike (e.atAction a) (d.atAction a) := h.of_core h.core rfl rfl
      obtain ⟨d', hrun', h'⟩ := Action.run_respects alike_respectful a hat hrun
      -- outside the final pass no action changes which pass it is
      have hf : (e.atAction a).isFinal = false := by
        show (e.pass == .final) = false
        rw [hp]
        exact beq_eq_false_iff_ne.mpr hpass
      exact ⟨d', hrun', h', (Action.run_pass_of_not_final hf hrun).trans hp⟩)
    (by
      rintro ⟨loc, op, x⟩ e d e' hnotice - ⟨h, hp⟩ hrun
      obtain ⟨level, formatted, args, rfl, -⟩ := Op.exists_of_isNotice hnotice
      rcases Op.run_message_eq_ok.mp hrun with ⟨-, rfl⟩ | ⟨hf, -⟩
      · exact ⟨h.of_core h.core rfl rfl, hp⟩
      · have hf : (e.pass == .final) = true := hf
        rw [hp] at hf
        exact absurd (beq_iff_eq.mp hf) hpass)
    (fun _ _ h => h.1.jump_eq)
    (fun _ _ h => ⟨.of_eq (congrArg (fun c : Engine => { c with jumps := c.jumps + 1 }) h.1.core) rfl
      h.1.counters_eq, h.2⟩)
    htargets hspeaks hcode.actions rfl ⟨hstart, rfl⟩
  exact ⟨_, runPass_eq_ok_iff.mpr ⟨ws, d₁, hpasses', rfl⟩, hend.1.core⟩

/-- The final pass leaves the same output without the notices. -/
theorem runPass_final_hushed (hspeaks : ∀ a ∈ code.actions, a.Speaks)
    (htargets : ∀ j k, code.target? j = some k → ∀ a ∈ k, a.Speaks) {e e' d : Engine}
    (he : e.core = d.core) (hrun : runPass verbose code .final e = .ok () e') :
    ∃ d', runPass verbose code' .final d = .ok () d' ∧ Engine.SameOutput e' d' := by
  obtain ⟨vs, e₁, hpasses, rfl⟩ := runPass_eq_ok_iff.mp hrun
  have hvars : e.vars = d.vars := (congrArg Engine.vars he :)
  have hlabels : e.labels = d.labels := (congrArg Engine.labels he :)
  -- both runs start from one table, so each cell repeats itself
  have hrefl : ∀ t : SymbolTable, SymbolTable.Pointwise (fun _ => Cell.Repeats) t t :=
    .refl fun _ _ => ⟨rfl, id⟩
  have hstart : ∀ a, Engine.Repeats True ((code.start .final e).atAction a)
      ((code'.start .final d).atAction a) := by
    have hsame : code'.start .final d = code.start .final d := by
      unfold Code.start
      rw [hcode.counters]
    rw [hsame]
    exact code.start_repeats rfl rfl (hvars ▸ hrefl _) (hlabels ▸ hrefl _) (fun _ => rfl)
      fun _ => rfl
  obtain ⟨ws, d₁, hpasses', hend⟩ := hpasses.hushed
    (R := fun e d => ∀ a, Engine.Repeats True (e.atAction a) (d.atAction a)) hcode
    (by
      intro a e d e' h hrun
      obtain ⟨d', hrun', h'⟩ := Action.run_respects (repeats_respectful trivial) a (h a) hrun
      exact ⟨d', hrun', fun b => { h' with location := rfl }⟩)
    (by
      rintro ⟨loc, op, x⟩ e d e' hnotice hspeaks h hrun
      obtain ⟨level, formatted, args, rfl, -⟩ := Op.exists_of_isNotice hnotice
      obtain ⟨hu, hstack⟩ := message_untouched (hspeaks level formatted args rfl) hrun
      exact fun b => { (h _).of_untouched hu hstack with location := rfl })
    (fun _ _ h => (h default).jump)
    (fun _ _ h a => { h a with
      jump := rfl
      jumps := congrArg (· + 1) (h a).jumps })
    htargets hspeaks hcode.actions rfl hstart
  obtain ⟨d', hrun', hout⟩ := runPass_of_passes verbose hpasses'
  have hsame : Engine.SameOutput e₁ d₁ := { (hend default).sameOutput with }
  exact ⟨d', hrun', { hsame.trans hout with }⟩

/-- The passes succeed without the notices, and leave the same output. -/
theorem stages_hushed (hspeaks : ∀ a ∈ code.actions, a.Speaks)
    (htargets : ∀ j k, code.target? j = some k → ∀ a ∈ k, a.Speaks) {e w f n d : Engine}
    (he : e.core = d.core) (h : Stages verbose code e w f n) :
    ∃ w' f' n', Stages verbose code' d w' f' n' ∧ f.core = f'.core ∧ Engine.SameOutput n n' := by
  obtain ⟨w', hw', hcore⟩ := runPass_hushed hcode hspeaks htargets (by decide) he h.warmUp
  obtain ⟨f', hf', hcore'⟩ := runPass_hushed hcode hspeaks htargets (by decide) hcore h.first
  obtain ⟨n', hn', hout⟩ := runPass_final_hushed hcode hspeaks htargets hcore' h.final
  exact ⟨w', f', n', ⟨hw', hf', hn'⟩, hcore', hout⟩

omit hcode in
/-- Without some of its notices, and of those in its macros and in the files that it
includes, a program is still assembled, and to the same program. -/
theorem assemble_hushed {asm : Assembler} {ld : Loader} {f : Edit} {acts acts' : List Action}
    (hlowered : Lowered acts) (hinc : ∀ inc, asm.includer = some inc → inc = ld.includer)
    (hf : f.Hushes) (h : Hushed acts acts') {s s₁ : Session} {a : Assembly}
    (hrun : asm.assemble acts s = .ok a s₁) :
    ∃ a' s₁', (asm.edited f).assemble acts' s = .ok a' s₁' ∧
      Engine.SameOutput a.engine a'.engine := by
  obtain ⟨e₀, s₂, w, first, hprepare, hstages, hlayout, -⟩ := assemble_eq_ok_iff.mp hrun
  obtain ⟨code', s₂', hprepare', hcode⟩ := prepare_hushed hf hinc h hlowered.allSound hprepare
  have hread : ∀ inc, asm.includer = some inc → inc.Lowered := fun inc hasm => by
    rw [hinc inc hasm]
    exact ld.includer_lowered
  obtain ⟨hspeaks, htargets⟩ := prepare_speaks hlowered hread ⟨s, s₂, hprepare⟩
  have hcore : Engine.core { e₀ with log := s₂.log } = Engine.core { e₀ with log := s₂'.log } := rfl
  obtain ⟨w', first', n', hstages', hfirst, hout⟩ :=
    stages_hushed hcode hspeaks htargets hcore hstages
  have hlayout' : Layout.ofEngine n' = Layout.ofEngine first' := by
    rw [hout.layout_eq, hlayout, ← Layout.ofEngine_core, hfirst, Layout.ofEngine_core]
  exact ⟨⟨code', n'⟩, _, assemble_eq_ok_iff.mpr
    ⟨e₀, s₂', w', first', hprepare', hstages', hlayout', rfl⟩, hout⟩

end Assembler

end Mos6510
