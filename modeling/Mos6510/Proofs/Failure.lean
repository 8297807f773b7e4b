import Mos6510.Proofs.Message

/-!
# How actions fail

`Op.Fails op e err` lists all errors that running an action can raise: the
stack holds too few or too many values, a counter is not there, a branch does
not reach, the action has no place in code, or something that has to do with
symbols, addresses and values only (`Error.isOrdinary`).

* `Op.run_fails`: actions other than messages fail in no other way;
* `Op.message_raises`: messages fail as their arguments do, or on their own.
-/

namespace Mos6510

open Outcome EngineM

/-! ## Errors -/

namespace Error

/-- Something in the error, however located, is of a kind. -/
theorem any_chain_atLocation {p : Error → Bool} (hp : ∀ loc err, p (.located loc err) = false)
    (loc : Location) (err : Error) : (err.atLocation loc).chain.any p = err.chain.any p := by
  unfold atLocation
  split
  · rfl
  · simp [chain, hp]

theorem any_chain_atAction {p : Error → Bool} (hp : ∀ loc err, p (.located loc err) = false)
    (hp' : ∀ name call err, p (.expanding name call err) = false) (a : Action) (err : Error) :
    (err.atAction a).chain.any p = err.chain.any p := by
  rw [← any_chain_atLocation hp a.location err]
  unfold atAction
  cases a.expansion with
  | none => rfl
  | some x =>
      dsimp only
      split
      · rfl
      · simp [chain, hp']

/-- Errors that have to do with symbols, addresses and values only. -/
def isOrdinary : Error → Bool
  | divisionByZero | pcUnset | illegalMode | pcWrap | regionOverflow | messageFormat
  | undefinedSymbol _ | uninitialized _ | localWithoutParent _ | user _ => true
  | _ => false

end Error

/-! ## What operations raise -/

/-- All errors of the operation have a property. -/
def Raises {α : Type} (P : Error → Prop) (m : EngineM α) : Prop :=
  ∀ ⦃e err e'⦄, m e = .error err e' → P err

namespace Raises

variable {α β : Type} {P Q : Error → Prop} {m : EngineM α} {f : α → EngineM β}

theorem pure (a : α) : Raises P (pure a : EngineM α) := by
  intro e err e' h
  cases h

theorem bind (hm : Raises P m) (hf : ∀ a, Raises P (f a)) : Raises P (m >>= f) := by
  intro e err e' h
  rcases bind_eq_error.mp h with h | ⟨a, e₁, -, h⟩
  · exact hm h
  · exact hf a h

theorem imp (hm : Raises P m) (h : ∀ err, P err → Q err) : Raises Q m :=
  fun _ _ _ hrun => h _ (hm hrun)

theorem locating (loc : Location) (hloc : ∀ err, P err → P (err.atLocation loc)) (hm : Raises P m) :
    Raises P (EngineM.locating loc m) := by
  intro e err e' h
  change EStateM.tryCatch m _ e = _ at h
  unfold EStateM.tryCatch at h
  cases hrun : m e with
  | ok a e₁ =>
      rw [hrun] at h
      cases h
  | error err₁ e₁ =>
      rw [hrun] at h
      cases h
      exact hloc err₁ (hm hrun)

end Raises

/-- The operation fails for its symbols, addresses and values only. -/
abbrev RaisesOrdinary {α : Type} (m : EngineM α) : Prop := Raises (fun err => err.isOrdinary = true) m

namespace Engine

theorem push_eq_error {v : Int64} {err : Error} {e e' : Engine} (h : push v e = .error err e') :
    err = .stackFull ∧ e.stack.values.length = Stack.limit := by
  unfold push Stack.push at h
  by_cases hfull : e.stack.depth = Stack.limit
  · simp only [hfull, beq_self_eq_true, if_true] at h
    cases h
    exact ⟨rfl, hfull⟩
  · simp [hfull] at h

theorem pop_eq_error {err : Error} {e e' : Engine} (h : pop e = .error err e') :
    err = .stackEmpty ∧ e.stack.values = [] := by
  unfold pop Stack.pop at h
  split at h
  · cases h
  · rename_i err' hs
    split at hs
    · rename_i hnone
      cases hs
      cases h
      exact ⟨rfl, hnone⟩
    · cases hs

theorem peek_eq_error {err : Error} {e e' : Engine} (h : peek e = .error err e') :
    err = .stackEmpty ∧ e.stack.values = [] := by
  unfold peek Stack.peek at h
  split at h
  · cases h
  · rename_i err' hs
    split at hs
    · rename_i hnone
      cases hs
      cases h
      exact ⟨rfl, hnone⟩
    · cases hs

theorem popPair_eq_error {err : Error} {e e' : Engine} (h : popPair e = .error err e') :
    err = .stackEmpty ∧ e.stack.values.length < 2 := by
  unfold popPair Stack.popPair at h
  split at h
  · cases h
  · rename_i err' hs
    split at hs
    · cases hs
    · rename_i hfew
      cases hs
      cases h
      refine ⟨rfl, ?_⟩
      cases hv : e.stack.values with
      | nil => decide
      | cons v rest =>
          cases rest with
          | nil => exact Nat.one_lt_two
          | cons w rest => exact absurd hv (hfew v w rest)

theorem counter_eq_error {c : Int} {err : Error} {e e' : Engine} (h : counter c e = .error err e') :
    err = .unknownCounter c ∧ e.counter? c = none := by
  unfold counter at h
  split at h
  · cases h
  · rename_i hnone
    cases h
    exact ⟨rfl, hnone⟩

theorem isOrdinary_of_qualify {name parent : String} {err : Error}
    (h : qualify name parent = .error err) : err.isOrdinary = true := by
  unfold qualify at h
  split at h
  · cases h
  · split at h
    · cases h
      rfl
    · cases h

theorem readSymbol_raises (name : String) : RaisesOrdinary (readSymbol name) := by
  intro e err e' h
  unfold readSymbol at h
  split at h
  · rename_i err' hq
    cases h
    exact isOrdinary_of_qualify hq
  · split at h
    · cases h
      rfl
    · split at h
      · cases h
      · split at h
        · cases h
          rfl
        · cases h

theorem assign_raises (name : String) (v : Int64) : RaisesOrdinary (assign name v) := by
  intro e err e' h
  unfold assign at h
  split at h
  · rename_i err' hq
    cases h
    exact isOrdinary_of_qualify hq
  · split at h
    · cases h
    · split at h
      · cases h
      · cases h
        rfl

theorem placeLabel_raises (name : String) (synthetic : Bool) :
    RaisesOrdinary (placeLabel name synthetic) := by
  intro e err e' h
  unfold placeLabel at h
  split at h
  · rename_i err' hq
    cases h
    exact isOrdinary_of_qualify hq
  · split at h
    · split at h
      · cases h
        rfl
      · cases h
    · cases h
      rfl

theorem emit_raises (kind : RegionKind) (v : Int64) : RaisesOrdinary (emit kind v) := by
  intro e err e' h
  unfold emit advancePc at h
  split at h
  · cases h
    rfl
  · split at h
    · cases h
      rfl
    · dsimp only at h
      split at h
      · cases h
        rfl
      · cases h

theorem report_raises (loc : Location) (level : Level) (formatted : Bool)
    (args : List Text.Template.Arg) : RaisesOrdinary (report loc level formatted args) := by
  intro e err e' h
  unfold report messageText at h
  split at h
  · rename_i err' ht
    cases h
    split at ht
    · split at ht
      · cases ht
      · cases ht
        rfl
    · cases ht
  · split at h
    · cases h
      rfl
    · cases h

theorem emitSized_raises (kind : RegionKind) (word : Bool) (v : Int64) :
    RaisesOrdinary (emitSized kind word v) := by
  unfold emitSized emitWord
  cases word with
  | false => exact emit_raises kind v
  | true => exact (emit_raises kind v).bind fun _ => emit_raises kind _

theorem emitBytes_raises (word : Bool) (bytes : List UInt8) :
    RaisesOrdinary (emitBytes word bytes) := by
  induction bytes with
  | nil => exact Raises.pure _
  | cons b rest ih => exact (emitSized_raises .data word _).bind fun _ => ih

/-- A branch fails like any instruction, or because it does not reach. -/
theorem emitBranch_raises (operand : Int64) :
    Raises (fun err => err.isOrdinary = true ∨ ∃ d, err = .branchReach d) (emitBranch operand) := by
  intro e err e' h
  unfold emitBranch at h
  rcases bind_eq_error.mp h with hpc | ⟨a, e₁, -, hrest⟩
  · unfold pcAddress at hpc
    split at hpc
    · cases hpc
    · cases hpc
      exact .inl rfl
  · rw [bind_of_ok (get_eq_ok.mpr ⟨rfl, rfl⟩)] at hrest
    split at hrest
    · dsimp only at hrest
      split at hrest
      · cases hrest
        exact .inr ⟨_, rfl⟩
      · exact .inl (emit_raises .code _ hrest)
    · exact .inl (emit_raises .code _ hrest)

/-- An instruction lacks its operand, or does not reach it, or fails for
addresses and values. -/
theorem encode_eq_error {op : Opcode} {err : Error} {e e' : Engine} (h : encode op e = .error err e') :
    err.isOrdinary = true ∨ (err = .stackEmpty ∧ op.mode ≠ .implied ∧ e.stack.values = []) ∨
      ∃ d, err = .branchReach d ∧ op.mode = .relative := by
  unfold encode at h
  split at h
  · exact .inl (emit_raises .code _ h)
  · rename_i himplied
    have himplied : op.mode ≠ .implied := by simpa using himplied
    rcases bind_eq_error.mp h with hpop | ⟨operand, e₁, -, h⟩
    · obtain ⟨rfl, hnone⟩ := pop_eq_error hpop
      exact .inr (.inl ⟨rfl, himplied, hnone⟩)
    rcases bind_eq_error.mp h with hemit | ⟨_, e₂, -, h⟩
    · exact .inl (emit_raises .code _ hemit)
    split at h
    · rename_i hrelative
      rcases emitBranch_raises operand h with hordinary | ⟨d, rfl⟩
      · exact .inl hordinary
      · exact .inr (.inr ⟨d, rfl, by simpa using hrelative⟩)
    · exact .inl (emitSized_raises .code _ operand h)

theorem directMode_ne_relative (index : Index) (small : Bool) :
    directMode index small ≠ .relative := by
  cases index <;> cases small <;> decide

/-- Reading a symbol leaves the stack alone. -/
theorem readSymbol_stack {name : String} {v : Int64} {e e' : Engine}
    (h : readSymbol name e = .ok v e') : e'.stack = e.stack := by
  obtain ⟨full, c, -, -, -, hcase⟩ := readSymbol_eq_ok.mp h
  obtain ⟨vars, labels, pc, heq, -⟩ := markRead_eq e full c
  rcases hcase with ⟨-, rfl⟩ | ⟨-, -, rfl⟩ <;> rw [heq]

/-- Loading a counter fails where there is none, or no value for it. -/
theorem loadCounter_eq_error {c : Int} {err : Error} {e e' : Engine}
    (h : loadCounter c e = .error err e') :
    (err = .unknownCounter c ∧ e.counter? c = none) ∨ (err = .stackEmpty ∧ e.stack.values = []) := by
  unfold loadCounter at h
  rcases bind_eq_error.mp h with h | ⟨v, e₁, hcounter, htry⟩
  · exact .inl (counter_eq_error h)
  · obtain ⟨-, rfl⟩ := counter_eq_ok.mp hcounter
    change EStateM.tryCatch _ _ e₁ = _ at htry
    unfold EStateM.tryCatch at htry
    cases hrun : (pop >>= setCounter c) e₁ with
    | ok u e₂ =>
        rw [hrun] at htry
        cases htry
    | error err₁ e₂ =>
        rw [hrun] at htry
        rcases bind_eq_error.mp hrun with hpop | ⟨v, e₃, -, hset⟩
        · cases htry
          exact .inr (pop_eq_error hpop)
        · cases hset

end Engine

/-! ## Actions -/

def Op.isBranch : Op → Bool
  | .instruction code => (Opcode.ofCode code).mode == .relative
  | _ => false

/-- Does the action compute a value? -/
def Op.computes : Op → Bool
  | .load _ | .get _ | .unary _ | .binary _ => true
  | _ => false

theorem Expr.actions_compute (x : Expr) : ∀ a ∈ x.actions, a.op.computes = true := by
  induction x with
  | number loc value => simp [Expr.actions, Action.load, Action.plain, Op.computes]
  | symbol loc name => simp [Expr.actions, Action.get, Action.plain, Op.computes]
  | unary loc op x ih =>
      refine List.forall_mem_append.mpr ⟨ih, ?_⟩
      simp [Action.plain, Op.computes]
  | binary loc op x y ihx ihy =>
      refine List.forall_mem_append.mpr ⟨ihx, List.forall_mem_append.mpr ⟨ihy, ?_⟩⟩
      simp [Action.plain, Op.computes]

/-- How many values an action that computes none takes off the stack. -/
def Op.operands : Op → Nat
  | .set _ | .data _ | .jumpIfFalse _ | .counterSet _ | .width _ _ => 1
  | .instruction code => if (Opcode.ofCode code).mode = .implied then 0 else 1
  | .bytes _ _ => 2
  | _ => 0

/-- How many values an action takes off the stack. -/
def Op.takes : Op → Nat
  | .unary _ => 1
  | .binary _ => 2
  | op => op.operands

/-- The counter that an action works with. -/
def Op.counter? : Op → Option Int
  | .counterSet c | .counterTest c _ | .counterStep c _ => some c
  | _ => none

/-- The errors that an action can raise on an engine. -/
inductive Op.Fails (op : Op) (e : Engine) : Error → Prop
  | ordinary {err : Error} : err.isOrdinary = true → Op.Fails op e err
  | empty : e.stack.values.length < op.takes → Op.Fails op e .stackEmpty
  | full : op.computes = true → e.stack.values.length = op.takes + Stack.limit →
      Op.Fails op e .stackFull
  | counter {c : Int} : op.counter? = some c → e.counter? c = none →
      Op.Fails op e (.unknownCounter c)
  | reach {d : Int64} : op.isBranch = true → Op.Fails op e (.branchReach d)
  | misplaced : op.isMeta = true → Op.Fails op e (.metaExecuted op.kind)

namespace Op.Fails

variable {op : Op} {e e' : Engine} {err : Error}

/-- An action that pops its operand first. -/
theorem of_pop {f : Int64 → EngineM Unit} (htakes : op.takes = 1) (hf : ∀ v, RaisesOrdinary (f v))
    (h : (Engine.pop >>= f) e = .error err e') : op.Fails e err := by
  rcases bind_eq_error.mp h with hpop | ⟨v, e₁, -, h⟩
  · obtain ⟨rfl, hnone⟩ := Engine.pop_eq_error hpop
    exact .empty (by simp [hnone, htakes])
  · exact .ordinary (hf v h)

theorem of_encode {o : Opcode} (htakes : o.mode ≠ .implied → op.takes = 1)
    (hbranch : o.mode = .relative → op.isBranch = true) (h : Engine.encode o e = .error err e') :
    op.Fails e err := by
  rcases Engine.encode_eq_error h with hordinary | ⟨rfl, himplied, hnone⟩ | ⟨d, rfl, hrelative⟩
  · exact .ordinary hordinary
  · exact .empty (by simp [hnone, htakes himplied])
  · exact .reach (hbranch hrelative)

end Op.Fails

open Engine in
/-- Actions other than messages fail in no other way. -/
theorem Op.run_fails {op : Op} {loc : Location} (hmsg : op.isMessage = false) {e e' : Engine}
    {err : Error} (h : op.run loc e = .error err e') : op.Fails e err := by
  cases hmeta : op.isMeta with
  | true =>
      rw [Op.run_of_isMeta hmeta] at h
      cases h
      exact .misplaced hmeta
  | false =>
      -- whether or not a jump is asked for, nothing fails
      have hjump : ∀ (j : Int) (p : Prop) [Decidable p],
          RaisesOrdinary (if p then requestJump j else pure ()) := by
        intro j p _ e err e' h
        split at h <;> cases h
      cases op with
      -- each operation is its pops, then what it computes, then at most one push
      | load v =>
          rcases bind_eq_error.mp h with h | ⟨_, e₁, hstart, h⟩
          · cases h
          · obtain rfl := startOperand_eq_ok.mp hstart
            obtain ⟨rfl, hfull⟩ := push_eq_error h
            exact .full rfl (by rw [hfull]; exact (Nat.zero_add _).symm)
      | get name =>
          rcases bind_eq_error.mp h with h | ⟨_, e₁, hstart, h⟩
          · cases h
          rcases bind_eq_error.mp h with h | ⟨v, e₂, hread, hpush⟩
          · exact .ordinary (readSymbol_raises name h)
          · obtain ⟨rfl, hfull⟩ := push_eq_error hpush
            rw [readSymbol_stack hread, startOperand_eq_ok.mp hstart] at hfull
            exact .full rfl (by rw [hfull]; exact (Nat.zero_add _).symm)
      | set name => exact .of_pop rfl (assign_raises name) h
      | unary op =>
          rcases bind_eq_error.mp h with h | ⟨v, e₁, hpop, h⟩
          · obtain ⟨rfl, hnone⟩ := pop_eq_error h
            exact .empty (by simp [hnone, Op.takes])
          · obtain ⟨rest, hs, rfl⟩ := pop_eq_ok.mp hpop
            obtain ⟨rfl, hfull⟩ := push_eq_error h
            exact .full rfl (by rw [hs, List.length_cons, hfull]; exact Nat.add_comm _ _)
      | binary op =>
          rcases bind_eq_error.mp h with h | ⟨⟨a, b⟩, e₁, hpop, h⟩
          · obtain ⟨rfl, hfew⟩ := popPair_eq_error h
            exact .empty hfew
          · obtain ⟨rest, hs, rfl⟩ := popPair_eq_ok.mp hpop
            cases hv : op.value? a b with
            | some v =>
                simp only [hv] at h
                obtain ⟨rfl, hfull⟩ := push_eq_error h
                refine .full rfl ?_
                rw [hs, List.length_cons, List.length_cons, hfull]
                exact Nat.add_comm _ _
            | none =>
                simp only [hv] at h
                cases h
                exact .ordinary rfl
      | instruction code => exact .of_encode (by simp [Op.takes, Op.operands]) (by simp [Op.isBranch]) h
      | width mnemonic index =>
          rcases bind_eq_error.mp h with h | ⟨v, e₁, hpeek, hrest⟩
          · obtain ⟨rfl, hnone⟩ := peek_eq_error h
            exact .empty (by simp [hnone, Op.takes, Op.operands])
          · obtain ⟨-, rfl⟩ := peek_eq_ok.mp hpeek
            cases ho : (Mnemonic.ofName? mnemonic).bind fun m =>
                m.encoding? (directMode index (decide (v &&& 0xFFFF < 256))) with
            | some o =>
                simp only [ho] at hrest
                obtain ⟨m, -, hm⟩ := Option.bind_eq_some_iff.mp ho
                have hmode : o.mode ≠ .relative := by
                  rw [(Mnemonic.encoding?_eq_some hm).2]
                  exact directMode_ne_relative index _
                exact .of_encode (fun _ => rfl) (fun h => absurd h hmode) hrest
            | none =>
                simp only [ho] at hrest
                cases hrest
                exact .ordinary rfl
      | data word => exact .of_pop rfl (emitSized_raises .data word) h
      | text word bytes => exact .ordinary (emitBytes_raises word bytes h)
      | bytes name bytes =>
          rcases bind_eq_error.mp h with h | ⟨length, e₁, hpop, h⟩
          · obtain ⟨rfl, hnone⟩ := pop_eq_error h
            exact .empty (by simp [hnone, Op.takes, Op.operands])
          rcases bind_eq_error.mp h with h | ⟨skip, e₂, -, h⟩
          · obtain ⟨rest, hs, rfl⟩ := pop_eq_ok.mp hpop
            obtain ⟨rfl, hnone⟩ := pop_eq_error h
            have hnone : rest = [] := hnone
            exact .empty (by simp [hs, hnone, Op.takes, Op.operands])
          · exact .ordinary (emitBytes_raises false _ h)
      | label name synthetic => exact .ordinary (placeLabel_raises name synthetic h)
      | jump j => cases h
      | jumpIfFalse j => exact .of_pop rfl (fun v => hjump j _) h
      | counterSet c =>
          rcases loadCounter_eq_error h with ⟨rfl, hnone⟩ | ⟨rfl, hnone⟩
          · exact .counter rfl hnone
          · exact .empty (by simp [hnone, Op.takes, Op.operands])
      | counterTest c j =>
          rcases bind_eq_error.mp h with h | ⟨v, e₁, -, h⟩
          · obtain ⟨rfl, hnone⟩ := counter_eq_error h
            exact .counter rfl hnone
          · exact .ordinary (hjump j _ h)
      | counterStep c j =>
          rcases bind_eq_error.mp h with h | ⟨v, e₁, -, h⟩
          · obtain ⟨rfl, hnone⟩ := counter_eq_error h
            exact .counter rfl hnone
          · cases h
      | message => cases hmsg
      | _ => cases hmeta

theorem Action.run_fails {a : Action} (hmsg : a.op.isMessage = false) {e e' : Engine} {err : Error}
    (h : a.run e = .error err e') : a.op.Fails e err := by
  obtain ⟨loc, op, x⟩ := a
  exact Op.run_fails hmsg h

theorem Op.isMessage_of_computes {op : Op} (h : op.computes = true) : op.isMessage = false := by
  cases op with
  | message => cases h
  | _ => rfl

/-! ## Messages -/

/-- A property of errors that those of expressions and messages have, wherever
they are located. -/
structure Error.Tame (P : Error → Prop) : Prop where
  ordinary : ∀ err, err.isOrdinary = true → P err
  empty : P .stackEmpty
  full : P .stackFull
  located : ∀ loc err, P err → P (err.atLocation loc)

section

variable {P : Error → Prop} (hP : Error.Tame P)

include hP

/-- Actions that compute values raise nothing else. -/
theorem runEach_raises {acts : List Action} (hacts : ∀ a ∈ acts, a.op.computes = true) :
    Raises P (runEach acts) := by
  induction acts with
  | nil =>
      rw [runEach]
      exact Raises.pure _
  | cons a rest ih =>
      obtain ⟨ha, hrest⟩ := List.forall_mem_cons.mp hacts
      rw [runEach]
      refine Raises.bind (.locating _ (hP.located _) ?_) fun _ => ih hrest
      intro e err e' h
      obtain ⟨loc, op, x⟩ := a
      have hfails : op.Fails e err := Op.run_fails (Op.isMessage_of_computes ha) h
      clear h
      cases hfails with
      | ordinary h => exact hP.ordinary err h
      | empty => exact hP.empty
      | full => exact hP.full
      | counter h => cases op with | load | get | unary | binary => cases h | _ => cases ha
      | reach h => cases op with | load | get | unary | binary => cases h | _ => cases ha
      | misplaced h => cases op with | load | get | unary | binary => cases h | _ => cases ha

theorem argValues_raises {args : List (List Action)} (hargs : ∀ arg ∈ args, IsMessageArg arg) :
    Raises P (argValues args) := by
  induction args with
  | nil =>
      rw [argValues]
      exact Raises.pure _
  | cons arg rest ih =>
      obtain ⟨harg, hrest⟩ := List.forall_mem_cons.mp hargs
      rcases argValues_cons arg rest with ⟨loc, s, x, -, heq⟩ | ⟨hne, heq⟩
      · rw [heq]
        exact (ih hrest).bind fun _ => Raises.pure _
      · rw [heq]
        rcases harg with ⟨loc, s, rfl⟩ | ⟨x, rfl⟩
        · exact absurd rfl (hne loc s none)
        · refine (runEach_raises hP x.actions_compute).bind fun _ => Raises.bind ?_ fun _ =>
            (ih hrest).bind fun _ => Raises.pure _
          intro e err e' h
          rw [(Engine.pop_eq_error h).1]
          exact hP.empty

/-- Messages fail as their arguments do, or on their own. -/
theorem Op.message_raises {level : Level} {formatted : Bool} {args : List (List Action)}
    (hargs : ∀ arg ∈ args, IsMessageArg arg) (loc : Location) :
    Raises P ((Op.message level formatted args).run loc) := by
  intro e err e' h
  rw [Op.run, bind_of_ok (get_eq_ok.mpr ⟨rfl, rfl⟩)] at h
  split at h
  · exact ((argValues_raises hP hargs).bind fun values =>
      (Engine.report_raises loc level formatted values).imp hP.ordinary) h
  · cases h

/-- An action raises what it can, a message nothing else. -/
theorem Action.run_raises {a : Action} (hspeaks : a.Speaks) {e e' : Engine} {err : Error}
    (h : a.run e = .error err e') : a.op.Fails e err ∨ P err := by
  cases hmsg : a.op.isMessage with
  | false => exact .inl (Action.run_fails hmsg h)
  | true =>
      obtain ⟨loc, op, x⟩ := a
      cases op with
      | message level formatted args =>
          exact .inr (Op.message_raises hP (hspeaks level formatted args rfl) loc h)
      | _ => cases hmsg

end

end Mos6510
