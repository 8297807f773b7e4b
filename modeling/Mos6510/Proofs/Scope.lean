import Mos6510.Proofs.SymbolTable
import Mos6510.Proofs.Trace

/-!
# What actions do to symbols

Of all actions only three touch the symbol tables: a read marks a cell, an
assignment sets a variable, a label is placed.  `SymbolStep` says so once for
every action, and what holds of the tables along a run is derived from it.
-/

namespace Mos6510

open Outcome EngineM

/-- The pass, the symbols apart from the program counter, and the label that
scopes local names. -/
def Engine.scope (e : Engine) : Pass × SymbolTable × SymbolTable × String :=
  (e.pass, e.vars, e.labels, e.parent)

/-! ## Operations that leave the symbols alone -/

theorem scope_overlooks : Overlooks Engine.scope where
  stack := fun _ _ => rfl
  jump := fun _ _ => rfl
  counters := fun _ _ => rfl
  log := fun _ _ => rfl

theorem emit_scope (kind : RegionKind) (v : Int64) : Keeps Engine.scope (Engine.emit kind v) := by
  intro e u e' h
  obtain ⟨a, -, -, -, rfl⟩ := Engine.emit_eq_ok.mp h
  rfl

/-- Does the action read, assign or place a symbol? -/
def Op.isSymbolic : Op → Bool
  | .get _ => true
  | .set _ => true
  | .label _ _ => true
  | _ => false

/-- All other actions leave the symbols as they are; messages are another
matter. -/
theorem Op.run_scope (op : Op) (loc : Location) (hsym : op.isSymbolic = false)
    (hmsg : op.isMessage = false) : Keeps Engine.scope (op.run loc) := by
  have hkeeps := scope_overlooks
  cases op with
  | load v => exact (startOperand_keeps fun _ _ => rfl).bind fun _ => hkeeps.push v
  | instruction code => exact encode_keeps hkeeps.pop (emit_scope .code) _
  | width mnemonic index => exact encodeWidth_keeps hkeeps.pop (emit_scope .code) mnemonic index
  | get => cases hsym
  | set => cases hsym
  | label => cases hsym
  | message => cases hmsg
  | _ => exact Op.run_routine hkeeps.toDisregards _ (fun _ => emit_scope .data) loc rfl

/-! ## Steps of the symbols -/

/-- What an action other than a message does to the symbols. -/
inductive SymbolStep (op : Op) (e e' : Engine) : Prop
  /-- Nothing but the mark of a read. -/
  | read (vars : SymbolTable.Pointwise (fun _ => Cell.Same) e.vars e'.vars)
      (labels : SymbolTable.Pointwise (fun _ => Cell.Same) e.labels e'.labels)
      (parent : e'.parent = e.parent) (notLabel : ∀ name synthetic, op ≠ .label name synthetic)
  /-- A variable gets a value. -/
  | assign (name full : String) (v : Int64) (isSet : op = .set name)
      (resolved : qualify name e.parent = .ok full) (declared : e.vars.contains full = true)
      (vars : e'.vars = e.vars.update full (·.assign v)) (labels : e'.labels = e.labels)
      (parent : e'.parent = e.parent)
  /-- A label gets the address at which it is placed. -/
  | place (name full : String) (synthetic : Bool) (a : UInt16) (isLabel : op = .label name synthetic)
      (resolved : qualify name e.parent = .ok full) (declared : e.labels.contains full = true)
      (address : e.labelAddress? synthetic = some a)
      (labels : e'.labels = e.labels.update full (·.assign (Int64.ofNat a.toNat)))
      (vars : e'.vars = e.vars)
      (parent : e'.parent = if isParentLabel name synthetic then full else e.parent)

theorem SymbolStep.of_scope_eq {op : Op} {e e' : Engine} (h : e'.scope = e.scope)
    (hlabel : ∀ name synthetic, op ≠ .label name synthetic) : SymbolStep op e e' := by
  simp only [Engine.scope, Prod.mk.injEq] at h
  obtain ⟨-, hvars, hlabels, hparent⟩ := h
  have hrefl := SymbolTable.Pointwise.refl (r := fun _ => Cell.Same) (fun _ => Cell.Same.refl)
  exact .read (hvars ▸ hrefl _) (hlabels ▸ hrefl _) hparent hlabel

/-- The state of a read, with the value pushed. -/
theorem Op.run_get_eq_ok {name : String} (loc : Location) {u : Unit} {e e' : Engine}
    (h : (Op.get name).run loc e = .ok u e') :
    ∃ full c, qualify name e.parent = .ok full ∧ e.cell? full = some c ∧
      (e.strict = true → c.isSet = true) ∧
      e'.stack.values = c.value :: e.stack.values ∧ e'.pass = e.pass ∧
      SymbolStep (.get name) e e' := by
  rw [Op.run, bind_eq_ok] at h
  obtain ⟨_, e₁, hstart, h⟩ := h
  obtain ⟨v, e₂, hread, hpush⟩ := bind_eq_ok.mp h
  obtain rfl := Engine.startOperand_eq_ok.mp hstart
  obtain ⟨full, c, hq, hc, rfl, hset⟩ := Engine.readSymbol_eq_ok.mp hread
  obtain ⟨-, rfl⟩ := Engine.push_eq_ok.mp hpush
  obtain ⟨vars, labels, pc, heq, hvars, hlabels, -⟩ := Engine.markRead_eq
    { e with unresolved := e.unresolved && !e.stack.values.isEmpty } full c
  refine ⟨full, c, hq, hc, ?_, ?_⟩
  · intro hstrict
    rcases hset with ⟨hcs, -⟩ | ⟨-, hnot, -⟩
    · exact hcs
    · exact absurd (hstrict.symm.trans hnot) (by decide)
  · rcases hset with ⟨-, rfl⟩ | ⟨-, -, rfl⟩
    · rw [heq]
      exact ⟨rfl, rfl, .read hvars hlabels rfl (by intro _ _ h; cases h)⟩
    · rw [heq]
      exact ⟨rfl, rfl, .read hvars hlabels rfl (by intro _ _ h; cases h)⟩

/-- Every action other than a message makes a step of the symbols, and stays
in its pass. -/
theorem Op.run_symbolStep {op : Op} (loc : Location) {u : Unit} {e e' : Engine}
    (hmsg : op.isMessage = false) (h : op.run loc e = .ok u e') :
    SymbolStep op e e' ∧ e'.pass = e.pass := by
  cases hsym : op.isSymbolic with
  | false =>
      have hscope := op.run_scope loc hsym hmsg h
      refine ⟨.of_scope_eq hscope ?_, congrArg Prod.fst hscope⟩
      rintro name synthetic rfl
      cases hsym
  | true =>
      cases op with
      | get name =>
          obtain ⟨_, _, -, -, -, -, hpass, hstep⟩ := Op.run_get_eq_ok loc h
          exact ⟨hstep, hpass⟩
      | set name =>
          obtain ⟨v, e₁, hpop, hassign⟩ := bind_eq_ok.mp h
          obtain ⟨rest, -, rfl⟩ := Engine.pop_eq_ok.mp hpop
          obtain ⟨full, hq, ⟨-, rfl⟩ | ⟨-, hc, rfl⟩⟩ := Engine.assign_eq_ok.mp hassign
          · exact ⟨.of_scope_eq rfl (by intro _ _ h; cases h), rfl⟩
          · exact ⟨.assign name full v rfl hq hc rfl rfl rfl, rfl⟩
      | label name synthetic =>
          obtain ⟨full, a, hq, hc, ha, rfl⟩ := Engine.placeLabel_eq_ok.mp h
          exact ⟨.place name full synthetic a rfl hq hc ha rfl rfl rfl, rfl⟩
      | _ => cases hsym

/-! ## Along a run -/

/-- A property of the visits so far and the symbols that every step of the
symbols carries on. -/
structure SymbolTraced (P : List Visit → Engine → Prop) : Prop where
  scope : ∀ {past e e'}, e'.scope = e.scope → P past e → P past e'
  step : ∀ {past e e'} (a : Action), P past e → SymbolStep a.op e e' → e'.pass = e.pass →
    P (past ++ [⟨a, e⟩]) e'
  enter : ∀ {past e} (a : Action), a.op.isMessage = true → P past e → P (past ++ [⟨a, e⟩]) e

theorem SymbolTraced.traced {P : List Visit → Engine → Prop} (hP : SymbolTraced P) : Traced P where
  op := by
    rintro past e e' ⟨loc, op, x⟩ hmsg hpast hrun
    obtain ⟨hstep, hpass⟩ := Op.run_symbolStep loc hmsg hrun
    exact hP.step _ hpast hstep hpass
  enter := hP.enter
  pop := fun hpast hrun => hP.scope (scope_overlooks.pop hrun) hpast
  report := fun hpast hrun => hP.scope (scope_overlooks.report _ _ _ _ hrun) hpast

/-- Such a property holds at every visit of a run and at its end. -/
theorem SymbolTraced.along {P : List Visit → Engine → Prop} (hP : SymbolTraced P)
    {code : Code} {n : Nat} {k : List Action} {e e' : Engine} {vs : List Visit}
    (h : code.Runs n k e vs e') (hstart : P [] e) : Along P [] vs ∧ P vs e' :=
  h.along hP.traced (fun _ _ _ => hP.scope rfl) (fun _ _ => hP.scope rfl) hstart

/-- The second cell is set if the first is. -/
def Cell.Grows (c d : Cell) : Prop := c.isSet = true → d.isSet = true

/-- The names of a table stay, and a symbol that is set stays set. -/
def SymbolTable.Grows (t u : SymbolTable) : Prop :=
  SymbolTable.Pointwise (fun _ => Cell.Grows) t u

namespace SymbolTable.Grows

variable {t u v : SymbolTable}

theorem refl (t : SymbolTable) : t.Grows t := Pointwise.refl (fun _ _ => id) t

theorem trans (h : t.Grows u) (h' : u.Grows v) : t.Grows v :=
  Pointwise.comp h h' fun _ _ _ _ hbc hcd hb => hcd (hbc hb)

theorem of_same (h : Pointwise (fun _ => Cell.Same) t u) : t.Grows u :=
  h.imp fun _ _ _ hcd hc => hcd.2 ▸ hc

theorem assign (t : SymbolTable) (n : String) (v : Int64) : t.Grows (t.update n (·.assign v)) :=
  pointwise_update (fun _ _ => id) t n fun _ _ => rfl

end SymbolTable.Grows

/-- Along a run symbols are only ever set. -/
theorem grows_symbolTraced (e₀ : Engine) :
    SymbolTraced fun _ e => e₀.vars.Grows e.vars ∧ e₀.labels.Grows e.labels where
  scope := by
    intro _ e e' h hpast
    simp only [Engine.scope, Prod.mk.injEq] at h
    rw [h.2.1, h.2.2.1]
    exact hpast
  step := by
    intro _ e e' a hpast hstep _
    obtain ⟨hvars, hlabels⟩ := hpast
    cases hstep with
    | read hv hl _ _ => exact ⟨hvars.trans (.of_same hv), hlabels.trans (.of_same hl)⟩
    | assign name full v _ _ _ hv hl _ =>
        rw [hv, hl]
        exact ⟨hvars.trans (.assign _ full v), hlabels⟩
    | place name full synthetic a _ _ _ _ hl hv _ =>
        rw [hv, hl]
        exact ⟨hvars, hlabels.trans (.assign _ full _)⟩
  enter := fun _ _ hpast => hpast

/-- A run keeps the names of the tables, and what is set stays set. -/
theorem Code.Runs.grows {code : Code} {n : Nat} {k : List Action} {e e' : Engine}
    {vs : List Visit} (h : code.Runs n k e vs e') :
    e.vars.Grows e'.vars ∧ e.labels.Grows e'.labels :=
  ((grows_symbolTraced e).along h ⟨.refl _, .refl _⟩).2

/-- So does a pass. -/
theorem Assembler.runPass_grows {verbose : Bool} {code : Code} {pass : Pass} {e e' : Engine}
    (h : runPass verbose code pass e = .ok () e') :
    e.vars.Grows e'.vars ∧ e.labels.Grows e'.labels := by
  obtain ⟨vs, e₁, hruns, rfl⟩ := runPass_eq_ok_iff.mp h
  exact hruns.grows

end Mos6510
