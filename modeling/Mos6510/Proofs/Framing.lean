import Mos6510.Proofs.Message

/-!
# The state of control

Of an engine, the pending jump, the number of jumps and the loop counters
steer execution; everything else is what execution works on.  Actions other
than jumps and counters neither read nor change the state of control:

* `Framed m`: `m` does the same whatever the state of control is, and leaves
  it as it was, even when it fails;
* `Action.run_framed`: so does every action after which execution goes
  straight on;
* `runFrom_straight`: such actions are run one after the other.
-/

namespace Mos6510

open Outcome

variable {α β σ : Type}

/-- Change the state that an outcome leaves. -/
def Outcome.mapState (f : σ → σ) : EStateM.Result Error σ α → EStateM.Result Error σ α
  | .ok a e => .ok a (f e)
  | .error err e => .error err (f e)

/-- What steers execution. -/
structure Control where
  jump : Option Int
  jumps : Nat
  counters : Array Int64

namespace Engine

/-- The state of control of an engine. -/
def control (e : Engine) : Control := ⟨e.jump, e.jumps, e.counters⟩

/-- The engine with another state of control. -/
def withControl (c : Control) (e : Engine) : Engine :=
  { e with jump := c.jump, jumps := c.jumps, counters := c.counters }

end Engine

/-- The operation neither reads nor changes the state of control. -/
def Framed (m : EngineM α) : Prop :=
  ∀ (c : Control) (e : Engine), m (e.withControl c) = mapState (·.withControl c) (m e)

namespace Framed

variable {m : EngineM α} {f : α → EngineM β}

theorem pure (a : α) : Framed (pure a : EngineM α) := fun _ _ => rfl

theorem throw (err : Error) : Framed (throw err : EngineM α) := fun _ _ => rfl

theorem bind (hm : Framed m) (hf : ∀ a, Framed (f a)) : Framed (m >>= f) := by
  intro c e
  show EStateM.bind m f _ = mapState _ (EStateM.bind m f e)
  unfold EStateM.bind
  rw [hm c e]
  cases m e with
  | ok a e₁ => exact hf a c e₁
  | error err e₁ => rfl

theorem locating (loc : Location) (hm : Framed m) : Framed (EngineM.locating loc m) := by
  intro c e
  show EStateM.tryCatch m _ _ = mapState _ (EStateM.tryCatch m _ e)
  unfold EStateM.tryCatch
  rw [hm c e]
  cases m e <;> rfl

/-- Such an operation leaves the state of control as it was. -/
theorem control_eq (hm : Framed m) {e e' : Engine} {a : α} (h : m e = .ok a e') :
    e'.control = e.control := by
  have hsame := hm e.control e
  have hself : e.withControl e.control = e := rfl
  rw [hself, h] at hsame
  have heq : e'.withControl e.control = e' := (ok_eq_ok.mp hsame).2
  calc e'.control = (e'.withControl e.control).control := by rw [heq]
    _ = e.control := rfl

end Framed

/-! ## Operations of the engine -/

namespace Engine

theorem push_framed (v : Int64) : Framed (push v) := by
  intro c e
  unfold push
  dsimp only [withControl]
  cases e.stack.push v <;> rfl

theorem pop_framed : Framed pop := by
  intro c e
  unfold pop
  dsimp only [withControl]
  cases e.stack.pop <;> rfl

theorem peek_framed : Framed peek := by
  intro c e
  unfold peek
  dsimp only [withControl]
  cases e.stack.peek <;> rfl

theorem popPair_framed : Framed popPair := by
  intro c e
  unfold popPair
  dsimp only [withControl]
  cases e.stack.popPair <;> rfl

theorem startOperand_framed : Framed startOperand := fun _ _ => rfl

theorem markRead_withControl (full : String) (cell : Cell) (c : Control) (e : Engine) :
    markRead full cell (e.withControl c) = (markRead full cell e).withControl c := by
  unfold markRead updateCell withControl
  split
  · rfl
  · split
    · rfl
    · split <;> rfl

theorem readSymbol_framed (name : String) : Framed (readSymbol name) := by
  intro c e
  unfold readSymbol
  have hparent : (e.withControl c).parent = e.parent := rfl
  have hcell : ∀ full, (e.withControl c).cell? full = e.cell? full := fun _ => rfl
  have hstrict : (e.withControl c).strict = e.strict := rfl
  rw [hparent]
  cases qualify name e.parent with
  | error err => rfl
  | ok full =>
      simp only [hcell, hstrict, markRead_withControl]
      cases e.cell? full with
      | none => rfl
      | some cell =>
          cases hset : cell.isSet <;> cases hs : e.strict <;>
            simp [mapState, withControl, hset]

theorem assign_framed (name : String) (v : Int64) : Framed (assign name v) := by
  intro c e
  unfold assign
  cases hq : qualify name e.parent with
  | error err => simp [withControl, mapState, hq]
  | ok full =>
      by_cases hp : full = pcName
      · simp [withControl, mapState, hq, hp]
      · by_cases hv : e.vars.contains full = true <;> simp [withControl, mapState, hq, hp, hv]

theorem placeLabel_framed (name : String) (synthetic : Bool) :
    Framed (placeLabel name synthetic) := by
  intro c e
  have haddress : (e.withControl c).labelAddress? synthetic = e.labelAddress? synthetic := rfl
  unfold placeLabel
  rw [haddress]
  cases hq : qualify name e.parent with
  | error err => simp [withControl, mapState, hq]
  | ok full =>
      by_cases hl : e.labels.contains full = true
      · cases e.labelAddress? synthetic <;> simp [withControl, mapState, hq, hl, isFinal]
      · simp [withControl, mapState, hq, hl]

theorem emit_framed (kind : RegionKind) (v : Int64) : Framed (emit kind v) := by
  intro c e
  have haddress : (e.withControl c).pcAddress? = e.pcAddress? := rfl
  unfold emit
  rw [haddress]
  cases e.pcAddress? with
  | none => rfl
  | some a =>
      by_cases hroom : noRoom kind a e.regions = true
      · simp [withControl, mapState, hroom]
      · by_cases hfinal : e.pass = .final <;> by_cases hwrap : a + 1 = 0 <;>
          simp [withControl, mapState, isFinal, advancePc, hroom, hfinal, hwrap]

theorem emitSized_framed (kind : RegionKind) (word : Bool) (v : Int64) :
    Framed (emitSized kind word v) := by
  unfold emitSized emitWord
  cases word with
  | false => exact emit_framed kind v
  | true => exact (emit_framed kind v).bind fun _ => emit_framed kind _

theorem emitBytes_framed (word : Bool) (bytes : List UInt8) : Framed (emitBytes word bytes) := by
  induction bytes with
  | nil => exact Framed.pure _
  | cons b rest ih => exact (emitSized_framed .data word _).bind fun _ => ih

theorem pcAddress_framed : Framed pcAddress := by
  intro c e
  unfold pcAddress
  have haddress : (e.withControl c).pcAddress? = e.pcAddress? := rfl
  rw [haddress]
  cases e.pcAddress? <;> rfl

/-- An operation that looks at the engine first. -/
theorem get_framed {f : Engine → EngineM α} (hf : ∀ e, Framed (f e))
    (hsame : ∀ c e, f (e.withControl c) = f e) : Framed (get >>= f) := by
  intro c e
  show f (e.withControl c) (e.withControl c) = mapState _ (f e e)
  rw [hsame c e]
  exact hf e c e

theorem emitBranch_framed (operand : Int64) : Framed (emitBranch operand) := by
  unfold emitBranch
  refine pcAddress_framed.bind fun a => get_framed (fun e => ?_) fun _ _ => rfl
  split
  · dsimp only
    split
    · exact Framed.throw _
    · exact emit_framed .code _
  · exact emit_framed .code 0

theorem encode_framed (op : Opcode) : Framed (encode op) := by
  unfold encode
  split
  · exact emit_framed .code _
  · refine pop_framed.bind fun operand => (emit_framed .code _).bind fun _ => ?_
    split
    · exact emitBranch_framed operand
    · exact emitSized_framed .code _ operand

theorem encodeWidth_framed (mnemonic : String) (index : Index) :
    Framed (encodeWidth mnemonic index) := by
  unfold encodeWidth
  refine peek_framed.bind fun v => ?_
  dsimp only
  split
  · exact encode_framed _
  · exact Framed.throw _

theorem applyBinary_framed (op : BinaryOp) : Framed (applyBinary op) := by
  unfold applyBinary
  refine popPair_framed.bind fun p => ?_
  dsimp only
  split
  · exact push_framed _
  · exact Framed.throw _

theorem report_framed (loc : Location) (level : Level) (formatted : Bool)
    (args : List Text.Template.Arg) : Framed (report loc level formatted args) := by
  intro c e
  unfold report
  cases messageText formatted args with
  | error err => rfl
  | ok text =>
      by_cases hlevel : level = .error <;> simp [withControl, mapState, hlevel]

end Engine

/-! ## Actions -/

/-- Does execution go straight on after the action?  Not after jumps and
counters; and meta actions are not executed. -/
def Op.isStraight : Op → Bool
  | .load _ | .get _ | .set _ | .unary _ | .binary _ | .instruction _ | .width _ _ => true
  | .data _ | .text _ _ | .bytes _ _ | .label _ _ | .message _ _ _ => true
  | _ => false

/-- Actions that are run one after the other, of which messages show texts and
expressions. -/
def Straight (acts : List Action) : Prop :=
  ∀ a ∈ acts, a.op.isStraight = true ∧ a.Speaks

open Engine in
/-- Such actions other than messages leave the state of control alone. -/
theorem Op.run_framed {op : Op} (hstraight : op.isStraight = true) (hmessage : op.isMessage = false)
    (loc : Location) : Framed (op.run loc) := by
  cases op with
  | load v => exact startOperand_framed.bind fun _ => push_framed v
  | get name =>
      refine startOperand_framed.bind fun _ => (readSymbol_framed name).bind fun v => ?_
      exact push_framed v
  | set name => exact pop_framed.bind fun v => assign_framed name v
  | unary op => exact pop_framed.bind fun v => push_framed _
  | binary op => exact applyBinary_framed op
  | instruction code => exact encode_framed _
  | width mnemonic index => exact encodeWidth_framed mnemonic index
  | data word => exact pop_framed.bind fun v => emitSized_framed .data word v
  | text word bytes => exact emitBytes_framed word bytes
  | bytes name bytes =>
      exact pop_framed.bind fun _ => pop_framed.bind fun _ => emitBytes_framed false _
  | label name synthetic => exact placeLabel_framed name synthetic
  | message => cases hmessage
  | _ => cases hstraight

theorem runEach_framed {acts : List Action} (h : ∀ a ∈ acts, Framed a.run) :
    Framed (runEach acts) := by
  induction acts with
  | nil =>
      rw [runEach]
      exact Framed.pure _
  | cons a rest ih =>
      obtain ⟨ha, hrest⟩ := List.forall_mem_cons.mp h
      rw [runEach]
      exact (ha.locating _).bind fun _ => ih hrest

/-- Execution goes straight through an expression, which has no messages. -/
theorem Expr.flat_actions (x : Expr) :
    ∀ a ∈ x.actions, a.op.isStraight = true ∧ a.op.isMessage = false := by
  induction x with
  | number loc value => simp [Expr.actions, Action.load, Action.plain, Op.isStraight, Op.isMessage]
  | symbol loc name => simp [Expr.actions, Action.get, Action.plain, Op.isStraight, Op.isMessage]
  | unary loc op x ih =>
      intro a ha
      rcases List.mem_append.mp ha with ha | ha
      · exact ih a ha
      · rw [List.mem_singleton.mp ha]
        exact ⟨rfl, rfl⟩
  | binary loc op x y ihx ihy =>
      intro a ha
      rcases List.mem_append.mp ha with ha | ha
      · exact ihx a ha
      · rcases List.mem_append.mp ha with ha | ha
        · exact ihy a ha
        · rw [List.mem_singleton.mp ha]
          exact ⟨rfl, rfl⟩

theorem Expr.runEach_framed (x : Expr) : Framed (runEach x.actions) := by
  refine Mos6510.runEach_framed fun a ha => ?_
  obtain ⟨hstraight, hmessage⟩ := x.flat_actions a ha
  obtain ⟨loc, op, _⟩ := a
  exact Op.run_framed hstraight hmessage loc

theorem argValues_framed {args : List (List Action)} (hargs : ∀ arg ∈ args, IsMessageArg arg) :
    Framed (argValues args) := by
  induction args with
  | nil =>
      rw [argValues]
      exact Framed.pure _
  | cons arg rest ih =>
      obtain ⟨harg, hrest⟩ := List.forall_mem_cons.mp hargs
      rcases argValues_cons arg rest with ⟨loc, s, x, -, heq⟩ | ⟨hne, heq⟩
      · rw [heq]
        exact (ih hrest).bind fun _ => Framed.pure _
      · rw [heq]
        rcases harg with ⟨loc, s, rfl⟩ | ⟨x, rfl⟩
        · exact absurd rfl (hne loc s none)
        · refine x.runEach_framed.bind fun _ => Engine.pop_framed.bind fun v => ?_
          exact (ih hrest).bind fun _ => Framed.pure _

/-- Such actions leave the state of control alone. -/
theorem Action.run_framed {a : Action} (hstraight : a.op.isStraight = true) (hspeaks : a.Speaks) :
    Framed a.run := by
  obtain ⟨loc, op, x⟩ := a
  cases hmessage : op.isMessage with
  | false => exact Op.run_framed hstraight hmessage loc
  | true =>
      cases op with
      | message level formatted args =>
          have hargs := argValues_framed (hspeaks level formatted args rfl)
          show Framed ((Op.message level formatted args).run loc)
          rw [Op.run]
          refine Engine.get_framed (fun e => ?_) fun _ _ => rfl
          split
          · exact hargs.bind fun values => Engine.report_framed loc level formatted values
          · exact Framed.pure _
      | _ => cases hmessage

/-! ## Running actions one after the other -/

/-- Run an action at its location.  An error gets the location. -/
def Action.perform (a : Action) : EngineM Unit := fun e =>
  match a.run (e.atAction a) with
  | .ok u e => .ok u e
  | .error err e => .error (err.atAction a) e

/-- Run actions one after the other. -/
def performAll : List Action → EngineM Unit
  | [] => pure ()
  | a :: rest => do
    a.perform
    performAll rest

/-- The engine without its state of control and the location in progress. -/
def Engine.bare (e : Engine) : Engine :=
  { e with location := {}, jump := none, jumps := 0, counters := #[] }

theorem Engine.stack_of_bare {s e : Engine} (h : s.bare = e.bare) : s.stack = e.stack := by
  have hstack : s.bare.stack = e.bare.stack := congrArg Engine.stack h
  exact hstack

/-- Engines that are the same but for control do the same at an action. -/
theorem Engine.atAction_of_bare {s e : Engine} (h : s.bare = e.bare) (a : Action) :
    e.atAction a = (s.atAction a).withControl e.control := by
  obtain ⟨⟩ := s
  obtain ⟨⟩ := e
  simp only [bare, mk.injEq] at h
  simp [atAction, withControl, control, h]

theorem Straight.append {as bs : List Action} (ha : Straight as) (hb : Straight bs) :
    Straight (as ++ bs) := by
  intro a hmem
  rcases List.mem_append.mp hmem with hmem | hmem
  · exact ha a hmem
  · exact hb a hmem

theorem performAll_append (as bs : List Action) :
    performAll (as ++ bs) = (performAll as >>= fun _ => performAll bs) := by
  induction as with
  | nil => rfl
  | cons a rest ih =>
      rw [List.cons_append, performAll, performAll, ih, bind_assoc]

theorem performAll_single (a : Action) : performAll [a] = a.perform := by
  rw [performAll]
  exact bind_pure_unit

section Straight

variable {a : Action} (hstraight : a.op.isStraight = true) (hspeaks : a.Speaks)

include hstraight hspeaks

theorem perform_bare {s e : Engine} (h : s.bare = e.bare) :
    mapState Engine.bare (a.perform s) = mapState Engine.bare (a.perform e) := by
  unfold Action.perform
  -- run on one side and put the other's control back
  rw [Engine.atAction_of_bare h a, Action.run_framed hstraight hspeaks]
  cases a.run (s.atAction a) <;> rfl

theorem perform_control {e e' : Engine} {u : Unit} (h : a.perform e = .ok u e') :
    e'.control = e.control := by
  unfold Action.perform at h
  cases hrun : a.run (e.atAction a) with
  | error err e₁ =>
      rw [hrun] at h
      cases h
  | ok u e₁ =>
      rw [hrun] at h
      cases h
      have hkept := (Action.run_framed hstraight hspeaks).control_eq hrun
      exact hkept.trans rfl

end Straight

/-- Two outcomes that are the same but for control. -/
theorem ok_of_bare_eq {r : EStateM.Result Error Engine α} {a : α} {s : Engine}
    (h : mapState Engine.bare (.ok a s) = mapState Engine.bare r) :
    ∃ e, r = .ok a e ∧ s.bare = e.bare := by
  cases r with
  | ok b e =>
      obtain ⟨rfl, heq⟩ := ok_eq_ok.mp h
      exact ⟨e, rfl, heq.symm⟩
  | error err e => cases h

theorem error_of_bare_eq {r : EStateM.Result Error Engine α} {err : Error} {s : Engine}
    (h : mapState Engine.bare (.error err s) = mapState Engine.bare r) :
    ∃ e, r = .error err e ∧ s.bare = e.bare := by
  cases r with
  | ok b e => cases h
  | error err' e =>
      simp only [mapState, EStateM.Result.error.injEq] at h
      obtain ⟨rfl, heq⟩ := h
      exact ⟨e, rfl, heq⟩

theorem bind_bare {m m' : EngineM α} {f f' : α → EngineM β} {s e : Engine}
    (hm : mapState Engine.bare (m s) = mapState Engine.bare (m' e))
    (hf : ∀ a s' e', m s = .ok a s' → m' e = .ok a e' → s'.bare = e'.bare →
      mapState Engine.bare (f a s') = mapState Engine.bare (f' a e')) :
    mapState Engine.bare ((m >>= f) s) = mapState Engine.bare ((m' >>= f') e) := by
  show mapState _ (EStateM.bind m f s) = mapState _ (EStateM.bind m' f' e)
  unfold EStateM.bind
  cases hs : m s with
  | ok a s' =>
      rw [hs] at hm
      obtain ⟨e', he, hbare⟩ := ok_of_bare_eq hm
      rw [he]
      exact hf a s' e' hs he hbare
  | error err s' =>
      rw [hs] at hm
      obtain ⟨e', he, hbare⟩ := error_of_bare_eq hm
      rw [he]
      exact congrArg (EStateM.Result.error err) hbare

theorem performAll_bare {acts : List Action} (h : Straight acts) {s e : Engine}
    (hbare : s.bare = e.bare) :
    mapState Engine.bare (performAll acts s) = mapState Engine.bare (performAll acts e) := by
  induction acts generalizing s e with
  | nil => exact congrArg (EStateM.Result.ok ()) hbare
  | cons a rest ih =>
      obtain ⟨⟨hstraight, hspeaks⟩, hrest⟩ := List.forall_mem_cons.mp h
      rw [performAll]
      exact bind_bare (perform_bare hstraight hspeaks hbare) fun _ _ _ _ _ hbare' =>
        ih hrest hbare'

theorem performAll_control {acts : List Action} (h : Straight acts) {e e' : Engine} {u : Unit}
    (hrun : performAll acts e = .ok u e') : e'.control = e.control := by
  induction acts generalizing e with
  | nil =>
      obtain ⟨-, rfl⟩ := pure_eq_ok.mp hrun
      rfl
  | cons a rest ih =>
      obtain ⟨⟨hstraight, hspeaks⟩, hrest⟩ := List.forall_mem_cons.mp h
      obtain ⟨_, e₁, ha, hrun⟩ := bind_eq_ok.mp hrun
      rw [ih hrest hrun, perform_control hstraight hspeaks ha]

/-- Execution goes straight through such actions. -/
theorem Code.runFrom_straight {code : Code} {n : Nat} {acts k : List Action} (h : Straight acts)
    {e : Engine} (hj : e.jump = none) :
    code.runFrom n (acts ++ k) e =
      match performAll acts e with
      | .ok _ e' => code.runFrom n k e'
      | .error err e' => .error err e' := by
  induction acts generalizing e with
  | nil => rfl
  | cons a rest ih =>
      obtain ⟨⟨hstraight, hspeaks⟩, hrest⟩ := List.forall_mem_cons.mp h
      rw [List.cons_append, Code.runFrom_cons, performAll]
      simp only [bind, EStateM.bind, Action.perform]
      cases hrun : a.run (e.atAction a) with
      | error err e₁ => rfl
      | ok u e₁ =>
          have hkept := (Action.run_framed hstraight hspeaks).control_eq hrun
          have hj' : e₁.jump = none := (congrArg Control.jump hkept).trans hj
          simp only [hj']
          exact ih hrest hj'

end Mos6510
