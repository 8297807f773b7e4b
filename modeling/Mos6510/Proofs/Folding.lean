import Mos6510.Proofs.Lowered
import Mos6510.Proofs.Structured

/-!
# Lowered statements do what they say

A lowered statement differs from the written one in its constants, which are
folded, and in its addressing mode, which is settled early where the operand
is known.  `Implements written lowered` says that on an empty stack both do
the same:

* `fold_implements`: a folded expression has the value of the written one;
* `resolve_implements`: an instruction is encoded in the mode that the value
  of its operand asks for;
* `issue_simple`: so every simple statement is lowered to actions that do what
  it says.
-/

namespace Mos6510

open Outcome EngineM

/-- The lowered actions do what the written ones do, on an empty stack. -/
structure Implements (written lowered : List Action) : Prop where
  straightWritten : Straight written
  straightLowered : Straight lowered
  same : ∀ e : Engine, e.stack.values = [] →
    mapState Engine.bare (performAll written e) = mapState Engine.bare (performAll lowered e)

theorem Implements.refl {acts : List Action} (h : Straight acts) : Implements acts acts :=
  ⟨h, h, fun _ _ => rfl⟩

theorem Straight.single {a : Action} (hstraight : a.op.isStraight = true)
    (hmessage : a.op.isMessage = false) : Straight [a] := by
  intro b hb
  rw [List.mem_singleton.mp hb]
  refine ⟨hstraight, ?_⟩
  intro level formatted args heq
  rw [heq] at hmessage
  cases hmessage

/-- One more action at the end of both, that does the same after the lowered
ones. -/
theorem Implements.snoc {written lowered : List Action} (h : Implements written lowered)
    {a b : Action} (ha : Straight [a]) (hb : Straight [b])
    (hab : ∀ e e', e.stack.values = [] → performAll lowered e = .ok () e' →
      a.perform e' = b.perform e') : Implements (written ++ [a]) (lowered ++ [b]) where
  straightWritten := h.straightWritten.append ha
  straightLowered := h.straightLowered.append hb
  same := by
    intro e he
    rw [performAll_append, performAll_append]
    refine bind_bare (h.same e he) fun _ s' e' _ hlowered hbare => ?_
    rw [performAll_bare ha hbare, performAll_single, performAll_single, hab e e' he hlowered]

/-- The same action at the end of both. -/
theorem Implements.snoc_self {written lowered : List Action} (h : Implements written lowered)
    {a : Action} (ha : Straight [a]) : Implements (written ++ [a]) (lowered ++ [a]) :=
  h.snoc ha ha fun _ _ _ _ => rfl

/-! ## Expressions -/

theorem Expr.straight (x : Expr) : Straight x.actions := by
  intro a ha
  obtain ⟨hstraight, hmessage⟩ := x.flat_actions a ha
  exact Straight.single hstraight hmessage a (List.mem_singleton_self a)

theorem perform_eq_ok {loc : Location} {op : Op} {e e' : Engine} {u : Unit} :
    (Action.plain loc op).perform e = .ok u e' ↔
      op.run loc { e with location := loc } = .ok u e' := by
  have hrun : (Action.plain loc op).run (e.atAction (Action.plain loc op)) =
      op.run loc { e with location := loc } := rfl
  unfold Action.perform
  rw [hrun]
  cases op.run loc { e with location := loc } <;> simp

/-- An error is reported at the action. -/
theorem perform_eq_error {loc : Location} {op : Op} {e e' : Engine} {err : Error}
    (h : op.run loc { e with location := loc } = .error err e') :
    (Action.plain loc op).perform e = .error (err.atAction (Action.plain loc op)) e' := by
  have hrun : (Action.plain loc op).run (e.atAction (Action.plain loc op)) =
      op.run loc { e with location := loc } := rfl
  unfold Action.perform
  rw [hrun, h]

/-- Two actions at one place that run alike. -/
theorem perform_congr {loc : Location} {op op' : Op} {e : Engine}
    (h : op.run loc { e with location := loc } = op'.run loc { e with location := loc }) :
    (Action.plain loc op).perform e = (Action.plain loc op').perform e := by
  have hrun : (Action.plain loc op).run (e.atAction (Action.plain loc op)) =
      (Action.plain loc op').run (e.atAction (Action.plain loc op')) := h
  unfold Action.perform
  rw [hrun]
  rfl

/-- An expression puts one value on the stack. -/
theorem Expr.performAll_stack (x : Expr) {e e' : Engine} {u : Unit}
    (h : performAll x.actions e = .ok u e') :
    ∃ v, e'.stack.values = v :: e.stack.values := by
  induction x generalizing e e' u with
  | number loc value =>
      have hrun := perform_eq_ok.mp ((performAll_single _) ▸ h)
      obtain ⟨-, v, hv⟩ := load_pushed hrun
      exact ⟨v, hv⟩
  | symbol loc name =>
      have hrun := perform_eq_ok.mp ((performAll_single _) ▸ h)
      obtain ⟨-, v, hv⟩ := get_pushed hrun
      exact ⟨v, hv⟩
  | unary loc op x ih =>
      rw [Expr.actions, performAll_append, performAll_single] at h
      obtain ⟨_, e₁, hx, hop⟩ := bind_eq_ok.mp h
      obtain ⟨v, hv⟩ := ih hx
      obtain ⟨w, e₂, hpop, hpush⟩ := bind_eq_ok.mp (perform_eq_ok.mp hop)
      obtain ⟨rest, hs, rfl⟩ := Engine.pop_eq_ok.mp hpop
      obtain ⟨-, rfl⟩ := Engine.push_eq_ok.mp hpush
      have hrest : w :: rest = v :: e.stack.values := hs.symm.trans hv
      obtain ⟨-, rfl⟩ := List.cons.inj hrest
      exact ⟨op.apply w, rfl⟩
  | binary loc op x y ihx ihy =>
      rw [Expr.actions, performAll_append, performAll_append, performAll_single] at h
      obtain ⟨_, e₁, hx, h⟩ := bind_eq_ok.mp h
      obtain ⟨_, e₂, hy, hop⟩ := bind_eq_ok.mp h
      obtain ⟨v, hv⟩ := ihx hx
      obtain ⟨w, hw⟩ := ihy hy
      obtain ⟨a, b, r, rest, hs, -, hpush⟩ := Engine.applyBinary_eq_ok.mp (perform_eq_ok.mp hop)
      obtain ⟨-, rfl⟩ := Engine.push_eq_ok.mp hpush
      have hrest : b :: a :: rest = w :: v :: e.stack.values := by
        rw [← hv, ← hw]
        exact hs.symm
      cases hrest
      exact ⟨r, rfl⟩

/-! ## Constants -/

/-- What an action of a constant expression does depends on the stack alone. -/
theorem Op.run_constant {op : Op} (hop : op.isConstant = true) {loc : Location} {u : Unit}
    {e e' d : Engine} (hstack : d.stack = e.stack)
    (hresolved : d.stack.values = [] ∨ d.unresolved = false) (h : op.run loc e = .ok u e') :
    op.run loc d = .ok u { d with stack := e'.stack, unresolved := false } := by
  cases op with
  | load v =>
      obtain ⟨_, e₁, hstart, hpush⟩ := bind_eq_ok.mp h
      obtain rfl := Engine.startOperand_eq_ok.mp hstart
      obtain ⟨hroom, rfl⟩ := Engine.push_eq_ok.mp hpush
      -- a flag that is left over counts only where the stack holds something
      have hfalse : (d.unresolved && !d.stack.values.isEmpty) = false := by
        rcases hresolved with hd | hd <;> simp [hd]
      refine bind_eq_ok.mpr ⟨(), _, rfl, Engine.push_eq_ok.mpr ⟨?_, ?_⟩⟩
      · rw [← hstack] at hroom
        exact hroom
      · rw [hfalse, hstack]
  | unary op =>
      obtain ⟨v, e₁, hpop, hpush⟩ := bind_eq_ok.mp h
      obtain ⟨rest, hs, rfl⟩ := Engine.pop_eq_ok.mp hpop
      obtain ⟨hroom, rfl⟩ := Engine.push_eq_ok.mp hpush
      rw [← hstack] at hs
      have hfalse : d.unresolved = false := by simpa [hs] using hresolved
      refine bind_eq_ok.mpr ⟨v, _, Engine.pop_eq_ok.mpr ⟨rest, hs, rfl⟩, ?_⟩
      refine Engine.push_eq_ok.mpr ⟨hroom, ?_⟩
      rw [← hfalse]
  | binary op =>
      obtain ⟨a, b, v, rest, hs, hv, hpush⟩ := Engine.applyBinary_eq_ok.mp h
      obtain ⟨hroom, rfl⟩ := Engine.push_eq_ok.mp hpush
      rw [← hstack] at hs
      have hfalse : d.unresolved = false := by simpa [hs] using hresolved
      refine Engine.applyBinary_eq_ok.mpr ⟨a, b, v, rest, hs, hv, ?_⟩
      refine Engine.push_eq_ok.mpr ⟨hroom, ?_⟩
      rw [← hfalse]
  | _ => cases hop

theorem performAll_constant {acts : List Action} (hacts : ∀ a ∈ acts, a.op.isConstant = true)
    {e e' d : Engine} {u : Unit} (hstack : d.stack = e.stack)
    (hresolved : d.stack.values = [] ∨ d.unresolved = false) (hne : acts ≠ [])
    (h : runEach acts e = .ok u e') :
    ∃ loc, performAll acts d =
      .ok () { d with stack := e'.stack, unresolved := false, location := loc } := by
  induction acts generalizing e d with
  | nil => exact absurd rfl hne
  | cons a rest ih =>
      obtain ⟨ha, hrest⟩ := List.forall_mem_cons.mp hacts
      rw [runEach] at h
      obtain ⟨_, e₁, hfirst, hlast⟩ := bind_eq_ok.mp h
      obtain ⟨loc, op, x⟩ := a
      -- a constant action sees only the stack, which both engines share
      have hrun := Op.run_constant (d := { d with location := loc }) ha hstack hresolved
        (locating_eq_ok.mp hfirst)
      have hperform : (⟨loc, op, x⟩ : Action).perform d =
          .ok () { d with stack := e₁.stack, unresolved := false, location := loc } := by
        have hat : (⟨loc, op, x⟩ : Action).run (d.atAction ⟨loc, op, x⟩) =
            op.run loc { d with location := loc } := rfl
        unfold Action.perform
        rw [hat, hrun]
      cases rest with
      | nil =>
          rw [runEach] at hlast
          obtain ⟨-, rfl⟩ := pure_eq_ok.mp hlast
          exact ⟨loc, (congrFun (performAll_single _) d).trans hperform⟩
      | cons b rest =>
          obtain ⟨loc', hall⟩ := ih hrest (e := e₁)
            (d := { d with stack := e₁.stack, unresolved := false, location := loc })
            rfl (.inr rfl) (List.cons_ne_nil b rest) hlast
          exact ⟨loc', bind_eq_ok.mpr ⟨(), _, hperform, hall⟩⟩

/-- A constant expression evaluates to its value alone. -/
theorem constantValue?_eq_some {expr : List Action} {v : Int64}
    (h : constantValue? expr = .ok (some v)) :
    expr ≠ [] ∧ (∀ a ∈ expr, a.op.isConstant = true) ∧
      ∃ e, runEach expr {} = .ok () e ∧ e.stack.values = [v] := by
  unfold constantValue? at h
  split at h
  · cases h
  · rename_i a rest
    split at h
    · rename_i hconstant
      refine ⟨List.cons_ne_nil a rest, ?_, ?_⟩
      · simp only [isConstantExpr, Bool.and_eq_true, List.all_eq_true] at hconstant
        exact hconstant.2
      · split at h
        · cases h
        · rename_i w e heval
          split at h
          · rename_i hdepth
            cases h
            obtain ⟨_, e₁, hrun, hpop⟩ := bind_eq_ok.mp heval
            obtain ⟨rest', hs, rfl⟩ := Engine.pop_eq_ok.mp hpop
            -- one value and nothing below it is left
            have hempty : rest' = [] := by simpa [Stack.depth] using hdepth
            rw [hempty] at hs
            exact ⟨e₁, hrun, hs⟩
          · cases h
    · cases h

/-- On an empty stack a constant expression leaves its value and nothing else. -/
theorem performAll_of_constantValue {expr : List Action} {v : Int64}
    (h : constantValue? expr = .ok (some v)) {d : Engine} (hd : d.stack.values = []) :
    ∃ loc, performAll expr d =
      .ok () { d with stack := ⟨[v]⟩, unresolved := false, location := loc } := by
  obtain ⟨hne, hconstant, e, hrun, hv⟩ := constantValue?_eq_some h
  have hstack : d.stack = ({} : Engine).stack := congrArg Stack.mk hd
  obtain ⟨loc, hall⟩ := performAll_constant hconstant hstack (.inl hd) hne hrun
  have hvalue : e.stack = ⟨[v]⟩ := congrArg Stack.mk hv
  rw [hvalue] at hall
  exact ⟨loc, hall⟩

theorem perform_load {loc : Location} {v : Int64} {d : Engine} (hd : d.stack.values = []) :
    performAll [Action.load loc v] d =
      .ok () { d with stack := ⟨[v]⟩, unresolved := false, location := loc } := by
  rw [performAll_single]
  refine perform_eq_ok.mpr (bind_eq_ok.mpr ⟨(), _, rfl, Engine.push_eq_ok.mpr ⟨?_, ?_⟩⟩)
  · simp [Stack.depth, hd, Stack.limit]
  · simp [hd]

/-- A folded expression does what the written one does. -/
theorem foldConstant_implements {x : Expr} {lowered : List Action}
    (h : foldConstant x.actions = .ok lowered) : Implements x.actions lowered := by
  rcases foldConstant_eq_ok h with rfl | ⟨loc, v, rfl, hvalue⟩
  · exact .refl x.straight
  · refine ⟨x.straight, .single rfl rfl, fun d hd => ?_⟩
    obtain ⟨loc', hall⟩ := performAll_of_constantValue hvalue hd
    rw [hall, perform_load hd]
    rfl

theorem fold_implements {loc : Location} {x : Expr} {lowered : List Action}
    (h : Builder.foldAt loc x.actions = .ok lowered) : Implements x.actions lowered :=
  foldConstant_implements (foldAt_eq_ok h)

/-! ## Instructions -/

theorem Mnemonic.mem_all (m : Mnemonic) : m ∈ Mnemonic.all := by
  cases m <;> decide +kernel

theorem Mnemonic.ofName?_name (m : Mnemonic) : Mnemonic.ofName? m.name = some m := by
  have hall : ∀ m ∈ Mnemonic.all, Mnemonic.ofName? m.name = some m := by decide +kernel
  exact hall m m.mem_all

namespace WrittenOperand

variable {o : WrittenOperand} {loc : Location} {mnemonic : String} {m : Mnemonic}
  {lowered acts : List Action}

theorem fold_operand_implements (h : foldConstant o.operand.expr = .ok lowered) :
    Implements o.actions lowered := by
  have hexpr : o.operand.expr = o.actions := rfl
  rw [hexpr] at h
  cases ho : o.expr with
  | none =>
      have hnil : o.actions = [] := by rw [actions, ho]; rfl
      rw [hnil] at h ⊢
      cases h
      exact .refl fun a ha => absurd ha List.not_mem_nil
  | some x =>
      have hx : o.actions = x.actions := by rw [actions, ho]; rfl
      rw [hx] at h ⊢
      exact foldConstant_implements h

theorem fixed_eq_ok {mode : Mode} (h : Operand.fixed loc m lowered mode = .ok acts) :
    ∃ op, m.encoding? mode = some op ∧
      acts = lowered ++ [Action.plain loc (.instruction op.code)] := by
  unfold Operand.fixed at h
  split at h
  · rename_i op hop
    cases h
    exact ⟨op, hop, rfl⟩
  · cases h

/-- The only encoding is taken, whatever the value of the operand. -/
theorem fixed_implements {mode : Mode} {op : Opcode} (hm : Mnemonic.ofName? mnemonic = some m)
    (hone : o.encoding? m = some op) (hmode : m.encoding? mode = some op)
    (hw : Implements o.actions lowered) (h : Operand.fixed loc m lowered mode = .ok acts) :
    Implements (o.actions ++ [Action.plain loc (o.encoder mnemonic)]) acts := by
  obtain ⟨op', hop, rfl⟩ := fixed_eq_ok h
  obtain rfl : op = op' := Option.some.inj (hmode.symm.trans hop)
  have hencoder : o.encoder mnemonic = .instruction op.code := by simp [encoder, hm, hone]
  rw [hencoder]
  exact hw.snoc_self (.single rfl rfl)

/-- If the value of the operand is known, so is the mode it asks for. -/
theorem width_implements {v : Int64} {op : Opcode} (hm : Mnemonic.ofName? mnemonic = some m)
    (hw : Implements o.actions lowered) (hv : constantValue? lowered = .ok (some v))
    (hop : m.encoding? (Engine.directMode o.index (decide (v &&& 0xFFFF < 256))) = some op) :
    Implements (o.actions ++ [Action.plain loc (.width mnemonic o.index)])
      (lowered ++ [Action.plain loc (.instruction op.code)]) := by
  -- the two actions agree only on the value that the lowered ones leave
  refine hw.snoc (.single rfl rfl) (.single rfl rfl) fun e e' he hlowered => ?_
  obtain ⟨loc', hvalue⟩ := performAll_of_constantValue hv he
  obtain ⟨-, rfl⟩ := ok_eq_ok.mp (hlowered.symm.trans hvalue)
  have hcode := (Mnemonic.encoding?_eq_some hop).1
  have hrun : ∀ d : Engine, d.stack = ⟨[v]⟩ →
      (Op.width mnemonic o.index).run loc d = (Op.instruction op.code).run loc d := by
    intro d hd
    show Engine.encodeWidth mnemonic o.index d = Engine.encode (Opcode.ofCode op.code) d
    rw [hcode]
    simp [Engine.encodeWidth, Engine.peek, Stack.peek, bind, EStateM.bind, hd, hm, hop]
  exact perform_congr (hrun _ rfl)

/-- An operand that is not known before the passes. -/
theorem width_left_implements (hm : Mnemonic.ofName? mnemonic = some m)
    (hw : Implements o.actions lowered) :
    Implements (o.actions ++ [Action.plain loc (.width mnemonic o.index)])
      (lowered ++ [Action.plain loc (.width m.name o.index)]) := by
  refine hw.snoc (.single rfl rfl) (.single rfl rfl) fun e e' _ _ => perform_congr ?_
  show Engine.encodeWidth mnemonic o.index _ = Engine.encodeWidth m.name o.index _
  unfold Engine.encodeWidth
  rw [hm, Mnemonic.ofName?_name]

/-- An instruction with a direct operand gets the mode that it asks for. -/
theorem direct_implements (hm : Mnemonic.ofName? mnemonic = some m) (hform : o.form.mode? = none)
    (hbranch : m.isBranch = false) (hw : Implements o.actions lowered)
    (h : Operand.direct loc m o.index lowered = .ok acts) :
    Implements (o.actions ++ [Action.plain loc (o.encoder mnemonic)]) acts := by
  unfold Operand.direct Mnemonic.has at h
  cases hshort : m.encoding? (Engine.directMode o.index true) with
  | none =>
      cases hlong : m.encoding? (Engine.directMode o.index false) with
      | none => simp [hshort, hlong] at h
      | some long =>
          have hone : o.encoding? m = some long := by
            simp [encoding?, hform, hbranch, hshort, hlong]
          refine fixed_implements hm hone hlong hw ?_
          cases hv : constantValue? lowered with
          | error err => simp [hshort, hlong, hv] at h
          | ok v => cases v <;> simpa [hshort, hlong, hv] using h
  | some short =>
      cases hlong : m.encoding? (Engine.directMode o.index false) with
      | none =>
          have hone : o.encoding? m = some short := by
            simp [encoding?, hform, hbranch, hshort, hlong]
          refine fixed_implements hm hone hshort hw ?_
          cases hv : constantValue? lowered with
          | error err => simp [hshort, hlong, hv] at h
          | ok v =>
              cases v with
              | none => simpa [hshort, hlong, hv] using h
              | some v =>
                  simp only [hshort, hlong, hv, Option.isSome_some, Option.isSome_none,
                    Bool.and_true, Bool.not_true, Bool.false_and, Bool.false_eq_true,
                    if_false] at h
                  split at h
                  · exact h
                  · -- a value that is too large for the short mode was refused
                    obtain ⟨op, hop, -⟩ := fixed_eq_ok h
                    rw [hlong] at hop
                    cases hop
      | some long =>
          have hwidth : o.encoder mnemonic = .width mnemonic o.index := by
            simp [encoder, encoding?, hm, hform, hbranch, hshort, hlong]
          rw [hwidth]
          cases hv : constantValue? lowered with
          | error err => simp [hshort, hlong, hv] at h
          | ok v =>
              simp only [hshort, hlong, hv, Option.isSome_some, Bool.and_true, Bool.and_self,
                Bool.not_true, Bool.false_eq_true, if_false, if_true] at h
              cases v with
              | none =>
                  cases h
                  exact width_left_implements hm hw
              | some v =>
                  dsimp only at h
                  split at h
                  · rename_i hsmall
                    obtain ⟨op, hop, rfl⟩ := fixed_eq_ok h
                    exact width_implements hm hw hv (by rw [hsmall]; exact hop)
                  · rename_i hlarge
                    obtain ⟨op, hop, rfl⟩ := fixed_eq_ok h
                    have hlong' := (Bool.not_eq_true _).mp hlarge
                    exact width_implements hm hw hv (by rw [hlong']; exact hop)

/-- A lowered instruction does what the written one says. -/
theorem resolve_implements (h : o.operand.resolve loc mnemonic = .ok acts) :
    Implements (o.actions ++ [Action.plain loc (o.encoder mnemonic)]) acts := by
  unfold Operand.resolve at h
  cases hm : Mnemonic.ofName? mnemonic with
  | none => simp [hm] at h
  | some m =>
      cases hfold : foldConstant o.operand.expr with
      | error err => simp [hm, hfold] at h
      | ok lowered =>
          have hw := fold_operand_implements hfold
          have hform : o.operand.form = o.form := rfl
          have hindex : o.operand.index = o.index := rfl
          simp only [hm, hfold, hform, hindex] at h
          cases hmode : o.form.mode? with
          | some mode =>
              rw [hmode] at h
              obtain ⟨op, hop, -⟩ := fixed_eq_ok h
              have hone : o.encoding? m = some op := by simp [encoding?, hmode, hop]
              exact fixed_implements hm hone hop hw h
          | none =>
              rw [hmode] at h
              cases hbranch : m.isBranch with
              | false => exact direct_implements hm hmode hbranch hw (by simpa [hbranch] using h)
              | true =>
                  -- a branch with an index has no encoding at all
                  by_cases hnone : o.index = .none
                  · simp only [hbranch, hnone, beq_self_eq_true, if_true] at h
                    obtain ⟨op, hop, -⟩ := fixed_eq_ok h
                    have hone : o.encoding? m = some op := by simp [encoding?, hmode, hbranch, hop]
                    exact fixed_implements hm hone hop hw h
                  · simp [hbranch, hnone] at h

end WrittenOperand

/-! ## Messages -/

theorem runEach_constant {acts : List Action} (hacts : ∀ a ∈ acts, a.op.isConstant = true)
    {e e' d : Engine} {u : Unit} (hstack : d.stack = e.stack)
    (hresolved : d.stack.values = [] ∨ d.unresolved = false) (hne : acts ≠ [])
    (h : runEach acts e = .ok u e') :
    runEach acts d = .ok () { d with stack := e'.stack, unresolved := false } := by
  induction acts generalizing e d with
  | nil => exact absurd rfl hne
  | cons a rest ih =>
      obtain ⟨ha, hrest⟩ := List.forall_mem_cons.mp hacts
      rw [runEach] at h ⊢
      obtain ⟨_, e₁, hfirst, hlast⟩ := bind_eq_ok.mp h
      obtain ⟨loc, op, x⟩ := a
      have hrun := Op.run_constant ha hstack hresolved (locating_eq_ok.mp hfirst)
      refine bind_eq_ok.mpr ⟨(), _, locating_eq_ok.mpr hrun, ?_⟩
      cases rest with
      | nil =>
          rw [runEach] at hlast ⊢
          obtain ⟨-, rfl⟩ := pure_eq_ok.mp hlast
          rfl
      | cons b rest =>
          exact ih hrest (e := e₁) rfl (.inr rfl) (List.cons_ne_nil b rest) hlast

/-- A folded expression has the value of the written one. -/
theorem evaluate_fold {loc : Location} {x : Expr} {lowered : List Action}
    (h : Builder.foldAt loc x.actions = .ok lowered) {e : Engine} (he : e.stack.values = []) :
    evaluate x.actions e = evaluate lowered e := by
  rcases foldConstant_eq_ok (foldAt_eq_ok h) with rfl | ⟨loc', v, rfl, hvalue⟩
  · rfl
  · obtain ⟨hne, hconstant, e', hrun, hv⟩ := constantValue?_eq_some hvalue
    have hstack : e.stack = ({} : Engine).stack := congrArg Stack.mk he
    have hvalue' : e'.stack = ⟨[v]⟩ := congrArg Stack.mk hv
    have hwritten := runEach_constant hconstant hstack (.inl he) hne hrun
    rw [hvalue'] at hwritten
    have hend : ∀ acts, runEach acts e = .ok () { e with stack := ⟨[v]⟩, unresolved := false } →
        evaluate acts e = .ok v { e with stack := ⟨[]⟩, unresolved := false } := by
      intro acts hacts
      exact bind_eq_ok.mpr ⟨(), _, hacts, Engine.pop_eq_ok.mpr ⟨[], rfl, rfl⟩⟩
    have hload : runEach [Action.load loc' v] e =
        .ok () { e with stack := ⟨[v]⟩, unresolved := false } := by
      rw [runEach, runEach]
      refine bind_eq_ok.mpr ⟨(), _, locating_eq_ok.mpr (bind_eq_ok.mpr ⟨(), _, rfl, ?_⟩), rfl⟩
      refine Engine.push_eq_ok.mpr ⟨?_, ?_⟩
      · simp [Stack.depth, he, Stack.limit]
      · simp [he]
    rw [hend _ hwritten, hend _ hload]

theorem evaluate_stack {x : Expr} {v : Int64} {e e' : Engine}
    (h : evaluate x.actions e = .ok v e') : e'.stack = e.stack := by
  obtain ⟨_, e₁, hrun, hpop⟩ := bind_eq_ok.mp h
  obtain ⟨-, w, hw⟩ := x.runEach_pushed hrun
  obtain ⟨rest, hs, rfl⟩ := Engine.pop_eq_ok.mp hpop
  rw [hw] at hs
  cases hs
  rfl

/-- The value of an argument that is an expression, and those after it. -/
theorem argValues_expr {acts : List Action} (h : IsExpr acts) (rest : List (List Action)) :
    argValues (acts :: rest) =
      (evaluate acts >>= fun v => argValues rest >>= fun values => pure (.int v :: values)) := by
  rcases argValues_cons acts rest with ⟨loc, s, x, heq, -⟩ | ⟨-, heq⟩
  · obtain ⟨y, rfl⟩ := h
    have hmem : (⟨loc, .string s, x⟩ : Action) ∈ y.actions := by
      rw [heq]
      exact List.mem_singleton_self _
    cases (y.flat_actions _ hmem).1
  · rw [heq, evaluate, bind_assoc]

theorem bind_congr_at {σ α β : Type} {m m' : EStateM Error σ α} {f f' : α → EStateM Error σ β}
    {e : σ} (hm : m e = m' e) (hf : ∀ a e', m e = .ok a e' → f a e' = f' a e') :
    (m >>= f) e = (m' >>= f') e := by
  show EStateM.bind m f e = EStateM.bind m' f' e
  unfold EStateM.bind
  rw [← hm]
  cases hr : m e with
  | ok a e' => exact hf a e' hr
  | error err e' => rfl

/-- Folded arguments of a message have the values of the written ones. -/
theorem argValues_fold {loc : Location} {args : List Spoken} {lowered : List (List Action)}
    (h : Builder.messageArgs loc (args.map Spoken.messageArg) = .ok lowered) {e : Engine}
    (he : e.stack.values = []) :
    argValues (args.map (Spoken.actions loc)) e = argValues lowered e := by
  induction args generalizing lowered e with
  | nil =>
      cases h
      rfl
  | cons arg rest ih =>
      obtain ⟨first, hfirst, h⟩ := except_bind_eq_ok.mp h
      obtain ⟨others, hothers, h⟩ := except_bind_eq_ok.mp h
      cases h
      cases arg with
      | text s =>
          cases hfirst
          show (argValues (rest.map (Spoken.actions loc)) >>= _) e = (argValues others >>= _) e
          exact bind_congr_at (ih hothers he) fun _ _ _ => rfl
      | expr x =>
          have hexpr := Builder.foldAt_isExpr ⟨x, rfl⟩ hfirst
          rw [List.map_cons, Spoken.actions, argValues_expr ⟨x, rfl⟩, argValues_expr hexpr]
          refine bind_congr_at (evaluate_fold hfirst he) fun v e' heval => ?_
          have he' : e'.stack.values = [] := by rw [evaluate_stack heval, he]
          exact bind_congr_at (ih hothers he') fun _ _ _ => rfl

theorem Spoken.sound (arg : Spoken) : arg.messageArg.Sound := by
  cases arg with
  | text s => trivial
  | expr x => exact ⟨x, rfl⟩

theorem Spoken.isMessageArg (loc : Location) (arg : Spoken) :
    IsMessageArg (arg.actions loc) := by
  cases arg with
  | text s => exact .inl ⟨loc, s, rfl⟩
  | expr x => exact .inr ⟨x, rfl⟩

theorem Straight.message {loc : Location} {level : Level} {formatted : Bool}
    {args : List (List Action)} (h : ∀ arg ∈ args, IsMessageArg arg) :
    Straight [Action.plain loc (.message level formatted args)] := by
  intro a ha
  rw [List.mem_singleton.mp ha]
  refine ⟨rfl, ?_⟩
  intro level' formatted' args' heq
  cases heq
  exact h

theorem message_implements {loc : Location} {level : Level} {formatted : Bool}
    {args : List Spoken} {lowered : List (List Action)}
    (h : Builder.messageArgs loc (args.map Spoken.messageArg) = .ok lowered) :
    Implements [Action.plain loc (.message level formatted (args.map (Spoken.actions loc)))]
      [Action.plain loc (.message level formatted lowered)] := by
  have hargs : ∀ arg ∈ args.map (Spoken.actions loc), IsMessageArg arg := by
    intro acts hacts
    obtain ⟨arg, -, rfl⟩ := List.mem_map.mp hacts
    exact arg.isMessageArg loc
  have hlowered : ∀ arg ∈ lowered, IsMessageArg arg := by
    refine Builder.messageArgs_isMessageArg (fun arg harg => ?_) h
    obtain ⟨spoken, -, rfl⟩ := List.mem_map.mp harg
    exact spoken.sound
  have hnil : Implements [] [] := .refl fun a ha => absurd ha List.not_mem_nil
  refine hnil.snoc (.message hargs) (.message hlowered) fun e e' he hpure => perform_congr ?_
  obtain ⟨-, rfl⟩ := pure_eq_ok.mp hpure
  rw [Op.run, Op.run]
  refine bind_congr_at rfl fun x e₁ hget => ?_
  obtain ⟨rfl, rfl⟩ := get_eq_ok.mp hget
  split
  · exact bind_congr_at (argValues_fold h he) fun _ _ _ => rfl
  · rfl

/-! ## What statements leave on the stack -/

theorem emit_stack (kind : RegionKind) (v : Int64) :
    Keeps Engine.stack (Engine.emit kind v) := by
  intro e u e' h
  obtain ⟨a, -, -, -, rfl⟩ := Engine.emit_eq_ok.mp h
  rfl

/-- An instruction takes its operand, if it has one. -/
theorem encode_stack {op : Opcode} {e e' : Engine} {u : Unit} (h : Engine.encode op e = .ok u e') :
    e'.stack.values = if op.mode = .implied then e.stack.values else e.stack.values.tail := by
  unfold Engine.encode at h
  by_cases hmode : op.mode = .implied
  · simp only [hmode, beq_self_eq_true, if_true] at h ⊢
    rw [emit_stack .code _ h]
  · rw [if_neg (by simpa using hmode)] at h
    rw [if_neg hmode]
    obtain ⟨operand, e₁, hpop, hemits⟩ := bind_eq_ok.mp h
    obtain ⟨_, e₂, hemit, hlast⟩ := bind_eq_ok.mp hemits
    obtain ⟨rest, hs, rfl⟩ := Engine.pop_eq_ok.mp hpop
    have hrest : e'.stack = e₂.stack := by
      split at hlast
      · exact emitBranch_keeps (emit_stack .code) _ hlast
      · exact emitSized_keeps (emit_stack .code) _ _ hlast
    rw [hrest, emit_stack .code _ hemit, hs, List.tail_cons]

theorem encodeWidth_stack {mnemonic : String} {index : Index} {e e' : Engine} {u : Unit}
    (h : Engine.encodeWidth mnemonic index e = .ok u e') :
    e'.stack.values = e.stack.values.tail := by
  obtain ⟨v, rest, op, -, hop, hencode⟩ := Engine.encodeWidth_eq_ok.mp h
  obtain ⟨m, -, hm⟩ := Option.bind_eq_some_iff.mp hop
  have hmode : op.mode ≠ .implied := by
    rw [(Mnemonic.encoding?_eq_some hm).2]
    cases index <;> cases decide (v &&& 0xFFFF < 256) <;> nofun
  rw [encode_stack hencode, if_neg hmode]

/-- The mode of an encoding is implied where the operand has no expression,
and only there. -/
theorem WrittenOperand.encoding?_eq_some {o : WrittenOperand} {m : Mnemonic} {op : Opcode}
    (h : o.encoding? m = some op) :
    ∃ mode, m.encoding? mode = some op ∧ (mode = .implied ↔ o.expr = none) := by
  rw [o.complete]
  unfold encoding? at h
  cases hform : o.form with
  | direct =>
      have hdirect : ∀ small, Engine.directMode o.index small ≠ .implied := by
        intro small
        cases o.index <;> cases small <;> nofun
      simp only [hform, OperandForm.mode?] at h
      split at h
      · exact ⟨.relative, h, by simp⟩
      · split at h
        · cases h
        · rcases Option.or_eq_some_iff.mp h with hop | ⟨-, hop⟩
          · exact ⟨_, hop, by simp [hdirect]⟩
          · exact ⟨_, hop, by simp [hdirect]⟩
  | _ =>
      simp only [hform, OperandForm.mode?] at h
      exact ⟨_, h, by simp⟩

theorem WrittenOperand.encoder_stack {o : WrittenOperand} {mnemonic : String} {loc : Location}
    {e e' : Engine} {u : Unit} (h : (o.encoder mnemonic).run loc e = .ok u e') :
    e'.stack.values = e.stack.values.tail ∨ (o.expr = none ∧ e'.stack = e.stack) := by
  unfold encoder at h
  split at h
  · rename_i op hop
    obtain ⟨m, -, hm⟩ := Option.bind_eq_some_iff.mp hop
    obtain ⟨mode, hmode, himplied⟩ := encoding?_eq_some hm
    obtain ⟨hcode, rfl⟩ := Mnemonic.encoding?_eq_some hmode
    have hencode : Engine.encode op e = .ok u e' := by
      rw [← hcode]
      exact h
    have hstack := encode_stack hencode
    by_cases hnone : o.expr = none
    · rw [if_pos (himplied.mpr hnone)] at hstack
      exact .inr ⟨hnone, congrArg Stack.mk hstack⟩
    · rw [if_neg fun hmode => hnone (himplied.mp hmode)] at hstack
      exact .inl hstack
  · exact .inl (encodeWidth_stack h)

/-- A statement that starts on an empty stack leaves it empty. -/
theorem Simple.performAll_stack (s : Simple) {loc : Location} {e e' : Engine} {u : Unit}
    (he : e.stack.values = []) (h : performAll (s.actions loc) e = .ok u e') :
    e'.stack.values = [] := by
  cases s with
  | assign name x =>
      rw [actions, performAll_append, performAll_single] at h
      obtain ⟨_, e₁, hx, hset⟩ := bind_eq_ok.mp h
      obtain ⟨v, hv⟩ := x.performAll_stack hx
      obtain ⟨w, e₂, hpop, hassign⟩ := bind_eq_ok.mp (perform_eq_ok.mp hset)
      obtain ⟨rest, hs, rfl⟩ := Engine.pop_eq_ok.mp hpop
      have hrest : rest = [] := by
        have := hs.symm.trans hv
        rw [he] at this
        exact (List.cons.inj this).2
      obtain ⟨full, -, ⟨-, rfl⟩ | ⟨-, -, rfl⟩⟩ := Engine.assign_eq_ok.mp hassign
      · exact hrest
      · exact hrest
  | label name =>
      rw [actions, performAll_single] at h
      obtain ⟨full, a, -, -, -, rfl⟩ := Engine.placeLabel_eq_ok.mp (perform_eq_ok.mp h)
      exact he
  | data word x =>
      rw [actions, performAll_append, performAll_single] at h
      obtain ⟨_, e₁, hx, hdata⟩ := bind_eq_ok.mp h
      obtain ⟨v, hv⟩ := x.performAll_stack hx
      obtain ⟨w, e₂, hpop, hemit⟩ := bind_eq_ok.mp (perform_eq_ok.mp hdata)
      obtain ⟨rest, hs, rfl⟩ := Engine.pop_eq_ok.mp hpop
      have hrest : rest = [] := by
        have := hs.symm.trans hv
        rw [he] at this
        exact (List.cons.inj this).2
      rw [emitSized_keeps (emit_stack .data) word w hemit]
      exact hrest
  | text word bytes =>
      rw [actions, performAll_single] at h
      rw [emitBytes_keeps (emit_stack .data) word bytes (perform_eq_ok.mp h)]
      exact he
  -- an operand leaves one value, and the encoding takes it; without one, both leave the stack
  | instruction mnemonic operand =>
      rw [actions, performAll_append, performAll_single] at h
      obtain ⟨_, e₁, hoperand, hencode⟩ := bind_eq_ok.mp h
      have hrun := perform_eq_ok.mp hencode
      cases hx : operand.expr with
      | none =>
          rw [WrittenOperand.actions, hx] at hoperand
          obtain ⟨-, rfl⟩ := pure_eq_ok.mp hoperand
          rcases WrittenOperand.encoder_stack hrun with hstack | ⟨-, hstack⟩
          · rw [hstack]
            exact congrArg List.tail he
          · rw [hstack]
            exact he
      | some x =>
          rw [WrittenOperand.actions, hx] at hoperand
          obtain ⟨v, hv⟩ := x.performAll_stack hoperand
          rcases WrittenOperand.encoder_stack hrun with hstack | ⟨hnone, -⟩
          · rw [hstack]
            show e₁.stack.values.tail = []
            rw [hv, he, List.tail_cons]
          · rw [hx] at hnone
            cases hnone
  | message level formatted args =>
      rw [actions, performAll_single] at h
      have hargs : ∀ arg ∈ args.map (Spoken.actions loc), IsMessageArg arg := by
        intro acts hacts
        obtain ⟨arg, -, rfl⟩ := List.mem_map.mp hacts
        exact arg.isMessageArg loc
      rw [(message_untouched hargs (perform_eq_ok.mp h)).2]
      exact he

/-! ## Simple statements -/

namespace Builder

/-- A simple statement is lowered to actions that do what it says. -/
theorem issue_simple {s : Simple} {loc : Location} {b b' : Builder} {u : Unit}
    (h : issue loc s.statement b = .ok u b') :
    ∃ acts, b' = b.add acts ∧ Implements (s.actions loc) acts := by
  cases s with
  | assign name x =>
      obtain ⟨acts, hacts, rfl⟩ := addResult_eq_ok h
      obtain ⟨lowered, hfold, hacts⟩ := except_bind_eq_ok.mp hacts
      cases hacts
      exact ⟨_, rfl, (fold_implements hfold).snoc_self (.single rfl rfl)⟩
  | label name =>
      cases h
      exact ⟨_, rfl, .refl (.single rfl rfl)⟩
  | data word x =>
      obtain ⟨acts, hacts, rfl⟩ := addResult_eq_ok h
      obtain ⟨lowered, hfold, hacts⟩ := except_bind_eq_ok.mp hacts
      cases hacts
      exact ⟨_, rfl, (fold_implements hfold).snoc_self (.single rfl rfl)⟩
  | text word bytes =>
      cases h
      exact ⟨_, rfl, .refl (.single rfl rfl)⟩
  | instruction mnemonic operand =>
      obtain ⟨acts, hacts, rfl⟩ := addResult_eq_ok h
      split at hacts
      · rename_i lowered hresolve
        cases hacts
        exact ⟨_, rfl, WrittenOperand.resolve_implements hresolve⟩
      · cases hacts
  | message level formatted args =>
      obtain ⟨acts, hacts, rfl⟩ := addResult_eq_ok h
      obtain ⟨lowered, hargs, hacts⟩ := except_bind_eq_ok.mp hacts
      cases hacts
      exact ⟨_, rfl, message_implements hargs⟩

end Builder

end Mos6510
