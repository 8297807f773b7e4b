import Mos6510.Expr
import Mos6510.Proofs.FixedPoint

/-!
# Messages leave nothing behind

Only the final pass shows messages, and to do so it evaluates their
arguments.  As long as these are texts and expressions, evaluation changes
nothing but the notes that symbols were read (`argValues_untouched`).  So the
final pass does what the first pass did, messages or not
(`Assembler.final_output_eq`).
-/

namespace Mos6510

open Outcome EngineM

/-! ## Expressions -/

/-- The actions are those of an expression. -/
def IsExpr (acts : List Action) : Prop := ∃ x : Expr, acts = x.actions

/-- The actions are an argument of a message: a text or an expression. -/
def IsMessageArg (acts : List Action) : Prop :=
  (∃ loc s, acts = [Action.plain loc (.string s)]) ∨ IsExpr acts

/-- The second engine differs from the first at most in its stack, its log and
in which symbols were read. -/
structure Engine.Untouched (e e' : Engine) : Prop where
  pass : e'.pass = e.pass
  vars : SymbolTable.Pointwise (fun _ => Cell.Same) e.vars e'.vars
  labels : SymbolTable.Pointwise (fun _ => Cell.Same) e.labels e'.labels
  pc : e.pc.Same e'.pc
  regions : e'.regions = e.regions
  parent : e'.parent = e.parent
  jump : e'.jump = e.jump
  jumps : e'.jumps = e.jumps
  counters : e'.counters = e.counters
  location : e'.location = e.location
  source : e'.source = e.source

namespace Engine.Untouched

theorem refl (e : Engine) : Untouched e e where
  pass := rfl
  vars := .refl (fun _ => .refl) _
  labels := .refl (fun _ => .refl) _
  pc := .refl _
  regions := rfl
  parent := rfl
  jump := rfl
  jumps := rfl
  counters := rfl
  location := rfl
  source := rfl

theorem trans {e₁ e₂ e₃ : Engine} (h : Untouched e₁ e₂) (h' : Untouched e₂ e₃) :
    Untouched e₁ e₃ := by
  have hcomp : ∀ (n : String) (b c d : Cell), b.Same c → c.Same d → b.Same d :=
    fun _ _ _ _ hbc hcd => ⟨hbc.1.trans hcd.1, hbc.2.trans hcd.2⟩
  exact
    { pass := h'.pass.trans h.pass
      vars := h.vars.comp h'.vars hcomp
      labels := h.labels.comp h'.labels hcomp
      pc := hcomp "" _ _ _ h.pc h'.pc
      regions := h'.regions.trans h.regions
      parent := h'.parent.trans h.parent
      jump := h'.jump.trans h.jump
      jumps := h'.jumps.trans h.jumps
      counters := h'.counters.trans h.counters
      location := h'.location.trans h.location
      source := h'.source.trans h.source }

end Engine.Untouched

/-- A value more on the stack, and all else as it was. -/
def Engine.Pushed (e e' : Engine) : Prop :=
  e.Untouched e' ∧ ∃ v, e'.stack.values = v :: e.stack.values

theorem load_pushed {v : Int64} {loc : Location} {u : Unit} {e e' : Engine}
    (h : (Op.load v).run loc e = .ok u e') : e.Pushed e' := by
  obtain ⟨_, e₁, hstart, hpush⟩ := bind_eq_ok.mp h
  obtain rfl := Engine.startOperand_eq_ok.mp hstart
  obtain ⟨-, rfl⟩ := Engine.push_eq_ok.mp hpush
  exact ⟨{ Engine.Untouched.refl e with }, v, rfl⟩

theorem get_pushed {name : String} {loc : Location} {u : Unit} {e e' : Engine}
    (h : (Op.get name).run loc e = .ok u e') : e.Pushed e' := by
  obtain ⟨_, e₁, hstart, h⟩ := bind_eq_ok.mp h
  obtain ⟨v, e₂, hread, hpush⟩ := bind_eq_ok.mp h
  obtain rfl := Engine.startOperand_eq_ok.mp hstart
  obtain ⟨full, c, -, -, -, hcase⟩ := Engine.readSymbol_eq_ok.mp hread
  obtain ⟨-, rfl⟩ := Engine.push_eq_ok.mp hpush
  obtain ⟨vars, labels, pc, heq, hvars, hlabels, hpc⟩ := Engine.markRead_eq
    { e with unresolved := e.unresolved && !e.stack.values.isEmpty } full c
  have hmarked : e.Untouched { e with vars := vars, labels := labels, pc := pc } :=
    { Engine.Untouched.refl e with vars := hvars, labels := hlabels, pc := hpc }
  rcases hcase with ⟨-, rfl⟩ | ⟨-, -, rfl⟩
  · rw [heq]
    exact ⟨{ hmarked with }, v, rfl⟩
  · rw [heq]
    exact ⟨{ hmarked with }, v, rfl⟩

/-- A prefix operator replaces the value on top. -/
theorem unary_pushed {op : UnaryOp} {loc : Location} {u : Unit} {e e₁ e' : Engine}
    (hx : e.Pushed e₁) (h : (Op.unary op).run loc e₁ = .ok u e') : e.Pushed e' := by
  obtain ⟨v, e₂, hpop, hpush⟩ := bind_eq_ok.mp h
  obtain ⟨rest, hs, rfl⟩ := Engine.pop_eq_ok.mp hpop
  obtain ⟨-, rfl⟩ := Engine.push_eq_ok.mp hpush
  obtain ⟨huntouched, w, hw⟩ := hx
  rw [hs] at hw
  cases hw
  exact ⟨{ huntouched with }, op.apply v, rfl⟩

/-- An infix operator replaces two values by one. -/
theorem binary_pushed {op : BinaryOp} {loc : Location} {u : Unit} {e e₁ e₂ e' : Engine}
    (hx : e.Pushed e₁) (hy : e₁.Pushed e₂) (h : (Op.binary op).run loc e₂ = .ok u e') :
    e.Pushed e' := by
  obtain ⟨a, b, v, rest, hs, -, hpush⟩ := Engine.applyBinary_eq_ok.mp h
  obtain ⟨-, rfl⟩ := Engine.push_eq_ok.mp hpush
  obtain ⟨hux, x, hx⟩ := hx
  obtain ⟨huy, y, hy⟩ := hy
  rw [hs, hx] at hy
  cases hy
  exact ⟨{ hux.trans huy with }, v, rfl⟩

theorem runEach_append {as bs : List Action} {e e' : Engine} {u : Unit}
    (h : runEach (as ++ bs) e = .ok u e') :
    ∃ e₁, runEach as e = .ok () e₁ ∧ runEach bs e₁ = .ok u e' := by
  induction as generalizing e with
  | nil => exact ⟨e, by rw [runEach]; rfl, h⟩
  | cons a rest ih =>
      rw [List.cons_append, runEach] at h
      obtain ⟨_, e₁, ha, hrest⟩ := bind_eq_ok.mp h
      obtain ⟨e₂, hfirst, hlast⟩ := ih hrest
      refine ⟨e₂, ?_, hlast⟩
      rw [runEach]
      exact bind_eq_ok.mpr ⟨(), e₁, ha, hfirst⟩

theorem runEach_single {loc : Location} {op : Op} {e e' : Engine} {u : Unit}
    (h : runEach [Action.plain loc op] e = .ok u e') : op.run loc e = .ok () e' := by
  rw [runEach] at h
  obtain ⟨_, e₁, ha, hrest⟩ := bind_eq_ok.mp h
  rw [runEach] at hrest
  obtain ⟨-, rfl⟩ := pure_eq_ok.mp hrest
  exact locating_eq_ok.mp ha

/-- Evaluating an expression pushes its value. -/
theorem Expr.runEach_pushed (x : Expr) {e e' : Engine} {u : Unit}
    (h : runEach x.actions e = .ok u e') : e.Pushed e' := by
  induction x generalizing e e' u with
  | number loc value => exact load_pushed (runEach_single h)
  | symbol loc name => exact get_pushed (runEach_single h)
  | unary loc op x ih =>
      obtain ⟨e₁, hx, hop⟩ := runEach_append h
      exact unary_pushed (ih hx) (runEach_single hop)
  | binary loc op x y ihx ihy =>
      obtain ⟨e₁, hx, h⟩ := runEach_append h
      obtain ⟨e₂, hy, hop⟩ := runEach_append h
      exact binary_pushed (ihx hx) (ihy hy) (runEach_single hop)

/-- Evaluating the arguments of a message leaves nothing behind. -/
theorem argValues_untouched {args : List (List Action)} (hargs : ∀ arg ∈ args, IsMessageArg arg)
    {e e' : Engine} {values : List Text.Template.Arg} (h : argValues args e = .ok values e') :
    e.Untouched e' ∧ e'.stack = e.stack := by
  induction args generalizing e values with
  | nil =>
      rw [argValues] at h
      obtain ⟨-, rfl⟩ := pure_eq_ok.mp h
      exact ⟨.refl _, rfl⟩
  | cons arg rest ih =>
      obtain ⟨harg, hrest⟩ := List.forall_mem_cons.mp hargs
      -- a string leaves the engine alone; an expression pushes and is popped again
      rcases argValues_cons arg rest with ⟨loc, s, x, -, heq⟩ | ⟨hne, heq⟩
      · rw [heq] at h
        obtain ⟨values', e₁, hvalues, hpure⟩ := bind_eq_ok.mp h
        obtain ⟨-, rfl⟩ := pure_eq_ok.mp hpure
        exact ih hrest hvalues
      · rw [heq] at h
        obtain ⟨_, e₁, hexpr, h⟩ := bind_eq_ok.mp h
        obtain ⟨v, e₂, hpop, h⟩ := bind_eq_ok.mp h
        obtain ⟨values', e₃, hvalues, hpure⟩ := bind_eq_ok.mp h
        obtain ⟨-, rfl⟩ := pure_eq_ok.mp hpure
        rcases harg with ⟨loc, s, rfl⟩ | ⟨x, rfl⟩
        · exact absurd rfl (hne loc s none)
        · obtain ⟨hu, w, hw⟩ := x.runEach_pushed hexpr
          obtain ⟨stack, hs, rfl⟩ := Engine.pop_eq_ok.mp hpop
          rw [hw] at hs
          cases hs
          obtain ⟨hu', hstack⟩ := ih hrest hvalues
          exact ⟨hu.trans { hu' with }, hstack⟩

/-! ## The final pass after the first -/

/-- If the action shows a message, its arguments are texts and expressions. -/
def Action.Speaks (a : Action) : Prop :=
  ∀ level formatted args, a.op = .message level formatted args → ∀ arg ∈ args, IsMessageArg arg

/-- What is left untouched goes on repeating. -/
theorem Engine.Repeats.untouched {e₁ e₂ e₂' : Engine} (h : Repeats False e₁ e₂)
    (hu : e₂.Untouched e₂') (hstack : e₂'.stack = e₂.stack) : Repeats False e₁ e₂' where
  strict₁ := h.strict₁
  strict₂ := (Engine.strict_of_pass_eq hu.pass).trans h.strict₂
  pass := False.elim
  vars := h.vars.comp hu.vars fun _ _ _ _ => Cell.Repeats.of_same
  labels := h.labels.comp hu.labels fun _ _ _ _ => Cell.Repeats.of_same
  pc := ⟨h.pc.1.trans hu.pc.1, h.pc.2.trans hu.pc.2⟩
  stack := h.stack.trans hstack.symm
  regions := h.regions.trans hu.regions.symm
  parent := h.parent.trans hu.parent.symm
  jump := h.jump.trans hu.jump.symm
  jumps := h.jumps.trans hu.jumps.symm
  counters := h.counters.trans hu.counters.symm
  location := h.location.trans hu.location.symm
  source := False.elim

/-- A message leaves the engine untouched, in every pass. -/
theorem message_untouched {level : Level} {formatted : Bool} {args : List (List Action)}
    (hargs : ∀ arg ∈ args, IsMessageArg arg) {loc : Location} {u : Unit} {e e' : Engine}
    (h : (Op.message level formatted args).run loc e = .ok u e') :
    e.Untouched e' ∧ e'.stack = e.stack := by
  rcases Op.run_message_eq_ok.mp h with ⟨-, rfl⟩ | ⟨-, h⟩
  · exact ⟨.refl _, rfl⟩
  · obtain ⟨values, e₁, hvalues, hreport⟩ := bind_eq_ok.mp h
    obtain ⟨hu, hstack⟩ := argValues_untouched hargs hvalues
    obtain ⟨text, -, -, rfl⟩ := Engine.report_eq_ok.mp hreport
    exact ⟨{ hu with }, hstack⟩

/-- An action keeps the pass. -/
theorem Action.run_pass {a : Action} (hspeaks : a.Speaks) {e e' : Engine}
    (h : a.run e = .ok () e') : e'.pass = e.pass := by
  obtain ⟨loc, op, x⟩ := a
  cases hmsg : op.isMessage with
  | false => exact (op.run_symbolStep loc hmsg h).2
  | true =>
      cases op with
      | message level formatted args =>
          exact (message_untouched (hspeaks level formatted args rfl) h).1.pass
      | _ => cases hmsg

/-- The second of two strict passes may show messages that the first does not. -/
theorem Action.run_repeats_of_speaks {a : Action} (hspeaks : a.Speaks) {e₁ e₂ e₁' e₂' : Engine}
    (h : Engine.Repeats False e₁ e₂) (hfirst : e₁.pass = .first) (h₁ : a.run e₁ = .ok () e₁')
    (h₂ : a.run e₂ = .ok () e₂') : Engine.Repeats False e₁' e₂' ∧ e₁'.pass = .first := by
  obtain ⟨loc, op, x⟩ := a
  cases hmsg : op.isMessage with
  | false =>
      obtain ⟨e₂'', h₂'', h'⟩ := Op.run_repeats op loc hmsg h h₁
      obtain ⟨-, rfl⟩ := ok_eq_ok.mp (h₂''.symm.trans h₂)
      exact ⟨h', (Op.run_symbolStep loc hmsg h₁).2.trans hfirst⟩
  | true =>
      cases op with
      | message level formatted args =>
          have hargs := hspeaks level formatted args rfl
          obtain ⟨hu, hstack⟩ := message_untouched hargs h₂
          -- in the first pass the message is silent, in the other it leaves the engine untouched
          rcases Op.run_message_eq_ok.mp h₁ with ⟨-, rfl⟩ | ⟨hf, -⟩
          · exact ⟨h.untouched hu hstack, hfirst⟩
          · unfold Engine.isFinal at hf
            rw [hfirst] at hf
            cases hf
      | _ => cases hmsg

namespace Assembler

/-- If the first pass keeps the values that it starts from, the final pass
after it emits the same bytes at the same places. -/
theorem final_output_eq {verbose : Bool} {code : Code} {w f n : Engine}
    (hfirst : runPass verbose code .first w = .ok () f)
    (hfinal : runPass verbose code .final f = .ok () n)
    (hlayout : Layout.ofEngine w = Layout.ofEngine f) (hacts : ∀ a ∈ code.actions, a.Speaks)
    (htargets : ∀ j k, code.target? j = some k → ∀ a ∈ k, a.Speaks) :
    f.regions = n.regions ∧ Layout.ofEngine f = Layout.ofEngine n := by
  obtain ⟨hgrowsVars, hgrowsLabels⟩ := runPass_grows hfirst
  obtain ⟨vs, e₁, hruns₁, hreport₁⟩ := runPass_eq_ok_iff.mp hfirst
  obtain ⟨ws, e₂, hruns₂, hreport₂⟩ := runPass_eq_ok_iff.mp hfinal
  simp only [Layout.ofEngine, Layout.mk.injEq] at hlayout
  obtain ⟨hlabels, hvars, -⟩ := hlayout
  obtain ⟨_, hrepeats⟩ := hruns₁.lockstep
    (R := fun (_ : Unit) e₁ e₂ =>
      (∀ a, Engine.Repeats False (e₁.atAction a) (e₂.atAction a)) ∧ e₁.pass = .first)
    (C := fun _ _ => True) (S := Action.Speaks)
    (by
      rintro _ a d₁ d₂ d₁' d₂' vs hspeaks ⟨h, hpass⟩ - h₁ h₂
      obtain ⟨h', hpass'⟩ := Action.run_repeats_of_speaks hspeaks (h a) hpass h₁ h₂
      exact ⟨(), ⟨fun b => { h' with location := rfl }, hpass'⟩, trivial⟩)
    (by
      rintro _ d₁ d₂ ⟨-, hpass⟩
      unfold Engine.isFinal
      rw [hpass]
      rfl)
    (fun _ _ _ h => (h.1 default).jump)
    (fun _ _ _ h => ⟨fun a => { h.1 a with
      jump := rfl
      jumps := congrArg (· + 1) (h.1 a).jumps }, h.2⟩)
    htargets hruns₂ hacts (g := ())
    ⟨code.start_repeats rfl rfl (hgrowsVars.repeats hvars) (hgrowsLabels.repeats hlabels)
      False.elim False.elim, rfl⟩ trivial
  -- two runs in lockstep end alike at every location, the default one included
  have hend := hrepeats.1 default
  have hregions : e₁.regions = e₂.regions := hend.regions
  have hlabels' := hend.labels.values_eq fun _ _ _ hcd => hcd.1
  have hvars' := hend.vars.values_eq fun _ _ _ hcd => hcd.1
  rw [hreport₁, hreport₂]
  refine ⟨hregions, ?_⟩
  simp only [Layout.ofEngine, Layout.mk.injEq]
  exact ⟨hlabels', hvars', hend.pc.1, by rw [hregions]⟩

end Assembler

end Mos6510
