import Mos6510.Proofs.Stages

/-!
# The names in the symbol tables

Once symbols are declared, no action adds, drops or moves a name, be it a success or a
failure.

* `Op.run_keepsNames`: no action does;
* `Action.names_of_visits`: so the names are there at all that an action evaluates;
* `Code.Reaches`: the engines that passes come to, one after the other, whether they go
  through or fail; `Code.Reaches.names_eq`: all of them have the same names.
-/

namespace Mos6510

open Outcome

/-- The state after an operation, be it a success or not. -/
def Outcome.last {σ α : Type} : EStateM.Result Error σ α → σ
  | .ok _ s => s
  | .error _ s => s

/-- The names of the variables and those of the labels. -/
def Engine.names (e : Engine) : List String × List String := (e.vars.names, e.labels.names)

/-- The operation keeps the names, be it a success or not. -/
def KeepsNames {α : Type} (m : EngineM α) : Prop := ∀ e, (last (m e)).names = e.names

namespace KeepsNames

variable {α β : Type} {m : EngineM α} {f : α → EngineM β}

theorem pure (a : α) : KeepsNames (Pure.pure a) := fun _ => rfl

theorem throw (err : Error) : KeepsNames (MonadExcept.throw err : EngineM α) := fun _ => rfl

theorem get : KeepsNames (MonadState.get : EngineM Engine) := fun _ => rfl

theorem bind (hm : KeepsNames m) (hf : ∀ a, KeepsNames (f a)) : KeepsNames (m >>= f) := by
  intro e
  have h := hm e
  show (last (EStateM.bind m f e)).names = _
  unfold EStateM.bind
  cases hr : m e with
  | ok a e' =>
      rw [hr] at h
      exact (hf a e').trans h
  | error err e' =>
      rw [hr] at h
      exact h

theorem tryCatch {handler : Error → EngineM α} (hm : KeepsNames m)
    (hh : ∀ err, KeepsNames (handler err)) : KeepsNames (MonadExcept.tryCatch m handler) := by
  intro e
  have h := hm e
  show (last (EStateM.tryCatch m handler e)).names = _
  unfold EStateM.tryCatch
  cases hr : m e with
  | ok a e' =>
      rw [hr] at h
      exact h
  | error err e' =>
      rw [hr] at h
      exact (hh err e').trans h

end KeepsNames

/-! ## Operations of the engine -/

namespace Engine

theorem push_keepsNames (v : Int64) : KeepsNames (push v) := by
  intro e
  unfold push
  split <;> rfl

theorem pop_keepsNames : KeepsNames pop := by
  intro e
  unfold pop
  split <;> rfl

theorem peek_keepsNames : KeepsNames peek := by
  intro e
  unfold peek
  split <;> rfl

theorem popPair_keepsNames : KeepsNames popPair := by
  intro e
  unfold popPair
  split <;> rfl

theorem startOperand_keepsNames : KeepsNames startOperand := fun _ => rfl

theorem names_markRead (e : Engine) (full : String) (c : Cell) :
    (e.markRead full c).names = e.names := by
  obtain ⟨vars, labels, pc, heq, hvars, hlabels, -⟩ := markRead_eq e full c
  rw [heq, names, names, hvars.names_eq, hlabels.names_eq]

theorem readSymbol_keepsNames (name : String) : KeepsNames (readSymbol name) := by
  intro e
  unfold readSymbol
  split
  · rfl
  · split
    · rfl
    · split
      · exact names_markRead e _ _
      · split
        · rfl
        · exact names_markRead e _ _

theorem assign_keepsNames (name : String) (v : Int64) : KeepsNames (assign name v) := by
  intro e
  unfold assign
  split
  · rfl
  · split
    · rfl
    · split
      · rw [last, names, names, SymbolTable.names_update]
      · rfl

theorem placeLabel_keepsNames (name : String) (synthetic : Bool) :
    KeepsNames (placeLabel name synthetic) := by
  intro e
  unfold placeLabel
  split
  · rfl
  · split
    · split
      · rfl
      · rw [last, names, names, SymbolTable.names_update]
    · rfl

theorem pcAddress_keepsNames : KeepsNames pcAddress := by
  intro e
  unfold pcAddress
  split <;> rfl

theorem advancePc_keepsNames (a : UInt16) : KeepsNames (advancePc a) := by
  intro e
  unfold advancePc
  dsimp only
  split <;> rfl

theorem emit_keepsNames (kind : RegionKind) (v : Int64) : KeepsNames (emit kind v) := by
  intro e
  unfold emit
  split
  · rfl
  · split
    · rfl
    · refine (advancePc_keepsNames _ _).trans ?_
      split <;> rfl

theorem emitSized_keepsNames (kind : RegionKind) (word : Bool) (v : Int64) :
    KeepsNames (emitSized kind word v) := by
  cases word with
  | false => exact emit_keepsNames kind v
  | true => exact (emit_keepsNames kind v).bind fun _ => emit_keepsNames kind _

theorem emitBytes_keepsNames (word : Bool) (bytes : List UInt8) :
    KeepsNames (emitBytes word bytes) := by
  induction bytes with
  | nil => exact .pure _
  | cons b rest ih => exact (emitSized_keepsNames _ _ _).bind fun _ => ih

theorem requestJump_keepsNames (j : Int) : KeepsNames (requestJump j) := fun _ => rfl

theorem counter_keepsNames (c : Int) : KeepsNames (counter c) := by
  intro e
  unfold counter
  split <;> rfl

theorem setCounter_keepsNames (c : Int) (v : Int64) : KeepsNames (setCounter c v) := fun _ => rfl

theorem loadCounter_keepsNames (c : Int) : KeepsNames (loadCounter c) :=
  (counter_keepsNames c).bind fun _ =>
    .tryCatch (pop_keepsNames.bind fun _ => setCounter_keepsNames c _) fun err =>
      (setCounter_keepsNames c 0).bind fun _ => .throw err

theorem storeBytes_keepsNames (bytes : List UInt8) : KeepsNames (storeBytes bytes) :=
  pop_keepsNames.bind fun _ => pop_keepsNames.bind fun _ => emitBytes_keepsNames _ _

theorem applyBinary_keepsNames (op : BinaryOp) : KeepsNames (applyBinary op) := by
  refine popPair_keepsNames.bind fun p => ?_
  dsimp only
  split
  · exact push_keepsNames _
  · exact .throw _

theorem emitBranch_keepsNames (operand : Int64) : KeepsNames (emitBranch operand) := by
  refine pcAddress_keepsNames.bind fun a => KeepsNames.get.bind fun e => ?_
  dsimp only
  split
  · split
    · exact .throw _
    · exact emit_keepsNames _ _
  · exact emit_keepsNames _ _

theorem encode_keepsNames (op : Opcode) : KeepsNames (encode op) := by
  unfold encode
  split
  · exact emit_keepsNames _ _
  · refine pop_keepsNames.bind fun v => (emit_keepsNames _ _).bind fun _ => ?_
    split
    · exact emitBranch_keepsNames v
    · exact emitSized_keepsNames _ _ v

theorem encodeWidth_keepsNames (mnemonic : String) (index : Index) :
    KeepsNames (encodeWidth mnemonic index) := by
  refine peek_keepsNames.bind fun v => ?_
  dsimp only
  split
  · exact encode_keepsNames _
  · exact .throw _

theorem report_keepsNames (loc : Location) (level : Level) (formatted : Bool)
    (args : List Text.Template.Arg) : KeepsNames (report loc level formatted args) := by
  intro e
  unfold report
  split
  · rfl
  · split <;> rfl

end Engine

/-! ## Actions -/

open Engine

mutual

theorem Action.run_keepsNames : ∀ a : Action, KeepsNames a.run
  | ⟨loc, op, _⟩ => Op.run_keepsNames op loc

/-- No action changes the names, be it a success or not. -/
theorem Op.run_keepsNames : ∀ (op : Op) (loc : Location), KeepsNames (op.run loc)
  | .load v, _ => startOperand_keepsNames.bind fun _ => push_keepsNames v
  | .get name, _ =>
      startOperand_keepsNames.bind fun _ => (readSymbol_keepsNames name).bind fun v =>
        push_keepsNames v
  | .set name, _ => pop_keepsNames.bind fun v => assign_keepsNames name v
  | .unary op, _ => pop_keepsNames.bind fun v => push_keepsNames _
  | .binary op, _ => applyBinary_keepsNames op
  | .instruction code, _ => encode_keepsNames _
  | .width mnemonic index, _ => encodeWidth_keepsNames mnemonic index
  | .data word, _ => pop_keepsNames.bind fun v => emitSized_keepsNames _ word v
  | .text word bytes, _ => emitBytes_keepsNames word bytes
  | .bytes _ bytes, _ => storeBytes_keepsNames bytes
  | .label name synthetic, _ => placeLabel_keepsNames name synthetic
  | .jump j, _ => requestJump_keepsNames j
  | .jumpIfFalse j, _ => by
      refine pop_keepsNames.bind fun v => ?_
      split
      · exact requestJump_keepsNames j
      · exact .pure _
  | .counterSet c, _ => loadCounter_keepsNames c
  | .counterTest c j, _ => by
      refine (counter_keepsNames c).bind fun v => ?_
      split
      · exact requestJump_keepsNames j
      · exact .pure _
  | .counterStep c j, _ =>
      (counter_keepsNames c).bind fun v => (setCounter_keepsNames c _).bind fun _ =>
        requestJump_keepsNames j
  | .message level formatted args, loc => by
      refine KeepsNames.get.bind fun e => ?_
      split
      · exact (argValues_keepsNames args).bind fun values => report_keepsNames loc level formatted values
      · exact .pure _
  | .target _, _ | .string _, _ | .defineMacro _ _ _, _ | .callMacro _ _, _ | .metaLabel _, _
  | .goto _, _ | .includeSource _, _ | .includeBinary _ _, _ => .throw _

theorem argValues_keepsNames : ∀ args : List (List Action), KeepsNames (argValues args)
  | [] => .pure _
  | expr :: rest => by
      rcases argValues_cons expr rest with ⟨loc, s, x, rfl, heq⟩ | ⟨-, heq⟩
      · rw [heq]
        exact (argValues_keepsNames rest).bind fun _ => .pure _
      · rw [heq]
        exact (runEach_keepsNames expr).bind fun _ => pop_keepsNames.bind fun _ =>
          (argValues_keepsNames rest).bind fun _ => .pure _

theorem runEach_keepsNames : ∀ acts : List Action, KeepsNames (runEach acts)
  | [] => .pure _
  | a :: rest => by
      rw [runEach]
      exact (KeepsNames.tryCatch (Action.run_keepsNames a) fun err => .throw _).bind fun _ =>
        runEach_keepsNames rest

end

theorem Action.names_of_run {a : Action} {e e' : Engine} (h : a.run e = .ok () e') :
    e'.names = e.names := by
  have hkeeps := a.run_keepsNames e
  rw [h] at hkeeps
  exact hkeeps

/-! ## Visits -/

mutual

/-- The names are there at the action and at all that it evaluates. -/
theorem Action.names_of_visits : ∀ (a : Action) (e : Engine) {v : Visit}, v ∈ a.visits e →
    v.engine.names = e.names
  | ⟨loc, op, x⟩, e, v, h => by
      rw [Action.visits] at h
      rcases List.mem_cons.mp h with rfl | h
      · rfl
      · cases op with
        | message level formatted args =>
            rw [Op.nestedVisits] at h
            split at h
            · exact names_of_argVisits args e h
            · exact absurd h List.not_mem_nil
        | _ => exact absurd h List.not_mem_nil

theorem names_of_argVisits : ∀ (args : List (List Action)) (e : Engine) {v : Visit},
    v ∈ argVisits args e → v.engine.names = e.names
  | [], e, v, h => by
      rw [argVisits] at h
      exact absurd h List.not_mem_nil
  | expr :: rest, e, v, h => by
      rcases argValues_cons expr rest with ⟨loc, s, x, rfl, -⟩ | ⟨hne, -⟩
      · rw [argVisits] at h
        exact names_of_argVisits rest e h
      · rw [argVisits] at h
        · rcases List.mem_append.mp h with h | h
          · exact names_of_eachVisits expr e h
          · have hkeeps := (runEach_keepsNames expr).bind (fun _ => pop_keepsNames) e
            split at h
            · rename_i v' e' hrun
              rw [hrun] at hkeeps
              exact (names_of_argVisits rest e' h).trans hkeeps
            · exact absurd h List.not_mem_nil
        · exact fun loc s x heq => hne loc s x heq

theorem names_of_eachVisits : ∀ (acts : List Action) (e : Engine) {v : Visit},
    v ∈ eachVisits acts e → v.engine.names = e.names
  | [], e, v, h => by
      rw [eachVisits] at h
      exact absurd h List.not_mem_nil
  | a :: rest, e, v, h => by
      rw [eachVisits] at h
      rcases List.mem_append.mp h with h | h
      · exact Action.names_of_visits a e h
      · split at h
        · rename_i e' hrun
          exact (names_of_eachVisits rest e' h).trans (Action.names_of_run hrun)
        · exact absurd h List.not_mem_nil

end

/-! ## Passes -/

namespace Code

variable {code : Code} {n m : Nat} {k l : List Action} {e d : Engine}

theorem Arrives.names_eq (h : code.Arrives n k e m l d) : d.names = e.names := by
  induction h with
  | start => rfl
  | next _ ha _ ih => exact (Action.names_of_run ha).trans ih
  | jump _ ha _ _ ih => exact (Action.names_of_run ha).trans ih

/-- Execution keeps the names, be it a success or not. -/
theorem runFrom_keepsNames (code : Code) (n : Nat) (k : List Action) :
    KeepsNames (code.runFrom n k) := by
  intro e
  induction n, k using runFrom_induction generalizing e with
  | nil n =>
      rw [runFrom_nil]
      rfl
  | cons n a k ih ihn =>
      have hkeeps := a.run_keepsNames (e.atAction a)
      rw [runFrom_cons]
      cases ha : a.run (e.atAction a) with
      | error err e₁ =>
          rw [ha] at hkeeps
          exact hkeeps
      | ok u e₁ =>
          rw [ha] at hkeeps
          dsimp only
          split
          · exact (ih e₁).trans hkeeps
          · split
            · exact hkeeps
            · cases n with
              | zero => exact hkeeps
              | succ n => exact (ihn n rfl _ e₁.afterJump).trans hkeeps

/-- The engines that passes over the code come to, one after the other: at each action,
and at the end of each pass, whether it goes through or fails. -/
inductive Reaches (verbose : Bool) (code : Code) (e₀ : Engine) : Engine → Prop
  | start (log : Log) : Reaches verbose code e₀ { e₀ with log := log }
  | visit {pass : Pass} {e : Engine} {v : Visit} :
      Reaches verbose code e₀ e → v ∈ code.passTrace pass e → Reaches verbose code e₀ v.engine
  | pass {pass : Pass} {e : Engine} :
      Reaches verbose code e₀ e →
        Reaches verbose code e₀ (last (Assembler.runPass verbose code pass e))

theorem names_of_passTrace {pass : Pass} {v : Visit} (h : v ∈ code.passTrace pass e) :
    v.engine.names = e.names := by
  obtain ⟨m, a, l, d, harrive, hv⟩ := mem_trace_iff.mp h
  exact (Action.names_of_visits a _ hv).trans harrive.names_eq

end Code

theorem modify_keepsNames {f : Engine → Engine} (hf : ∀ e, (f e).names = e.names) :
    KeepsNames (modify f : EngineM Unit) := fun e => hf e

theorem Code.execute_keepsNames (code : Code) : KeepsNames code.execute := by
  intro e
  unfold execute
  split
  · exact code.runFrom_keepsNames _ _ _
  · dsimp only
    split
    · rfl
    · split
      · rfl
      · exact code.runFrom_keepsNames _ _ _

theorem Assembler.runPass_keepsNames (verbose : Bool) (code : Code) (pass : Pass) :
    KeepsNames (runPass verbose code pass) := by
  unfold runPass
  refine (modify_keepsNames ?_).bind fun _ => code.execute_keepsNames.bind fun _ =>
    modify_keepsNames ?_
  · exact fun _ => rfl
  · exact fun _ => rfl

/-- Assembly comes to no other engines: its passes follow one another. -/
theorem Assembler.reaches_runPasses (verbose : Bool) (code : Code) (e₀ : Engine) (log : Log) :
    code.Reaches verbose e₀ (last (runPasses verbose code { e₀ with log := log })) := by
  have hstart : code.Reaches verbose e₀ { e₀ with log := log } := .start log
  generalize ({ e₀ with log := log } : Engine) = e at hstart
  -- a pass that goes through hands its engine to the next
  have hbind : ∀ {pass : Pass} {f : Unit → EngineM Unit} {e : Engine},
      code.Reaches verbose e₀ e →
      (∀ e', code.Reaches verbose e₀ e' → code.Reaches verbose e₀ (last (f () e'))) →
        code.Reaches verbose e₀ (last ((runPass verbose code pass >>= f) e)) := by
    intro pass f e he hf
    have hpass : code.Reaches verbose e₀ (last (runPass verbose code pass e)) := .pass he
    show code.Reaches verbose e₀ (last (EStateM.bind _ f e))
    unfold EStateM.bind
    cases hrun : runPass verbose code pass e with
    | ok u e' =>
        rw [hrun] at hpass
        exact hf e' hpass
    | error err e' =>
        rw [hrun] at hpass
        exact hpass
  refine hbind hstart fun w hw => hbind hw fun f hf => ?_
  refine hbind (f := fun _ => do
    let e ← get
    if Layout.ofEngine e != Layout.ofEngine f then throw .notConverged) hf fun n hn => ?_
  show code.Reaches verbose e₀ (last ((if _ then _ else _ : EngineM Unit) n))
  split
  · exact hn
  · exact hn

/-- Wherever passes come to, the tables have the names that they began with. -/
theorem Code.Reaches.names_eq {verbose : Bool} {code : Code} {e₀ e : Engine}
    (h : code.Reaches verbose e₀ e) : e.names = e₀.names := by
  induction h with
  | start => rfl
  | visit _ hv ih => exact (names_of_passTrace hv).trans ih
  | pass _ ih => exact (Assembler.runPass_keepsNames verbose code _ _).trans ih

end Mos6510
