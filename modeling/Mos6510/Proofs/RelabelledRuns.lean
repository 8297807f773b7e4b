import Mos6510.Proofs.Internal
import Mos6510.Proofs.Relabelling

/-!
# Runs under other names and numbers

An engine is relabelled by renaming its symbols, the parent label and a jump that
it asks for (`Engine.relabel`).  Its counters may lie elsewhere, as long as each
number leads to the same count; logs are left out, since they quote names.

Each operation of the engine does the same on a relabelled engine, and so does
each action (`Action.run_echoes`), a run of code however long
(`Code.Relabelled.runFrom_echoes`), and the passes of an assembly
(`Assembler.runPasses_echoes`).
-/

namespace Mos6510

open Outcome

/-! ## Symbols -/

namespace SymbolTable

/-- The table under other names. -/
def rename (f : String → String) (t : SymbolTable) : SymbolTable :=
  ⟨t.entries.map fun e => (f e.1, e.2)⟩

theorem values_rename (f : String → String) (t : SymbolTable) :
    (t.rename f).values = t.values.map fun v => (f v.1, v.2) := by
  simp [values, rename]

section

variable {f : String → String} (hf : f.Injective)

include hf

theorem find?_rename (t : SymbolTable) (n : String) : (t.rename f).find? (f n) = t.find? n := by
  obtain ⟨es⟩ := t
  show findIn (f n) (es.map fun e => (f e.1, e.2)) = findIn n es
  induction es with
  | nil => rfl
  | cons x rest ih => simp [findIn, hf.eq_iff, ih]

theorem contains_rename (t : SymbolTable) (n : String) :
    (t.rename f).contains (f n) = t.contains n := by
  unfold contains rename
  rw [List.any_map]
  congr 1
  funext x
  show (f x.1 == f n) = (x.1 == n)
  rw [Bool.eq_iff_iff, beq_iff_eq, beq_iff_eq, hf.eq_iff]

theorem update_rename (t : SymbolTable) (n : String) (g : Cell → Cell) :
    (t.rename f).update (f n) g = (t.update n g).rename f := by
  obtain ⟨es⟩ := t
  show SymbolTable.mk (updateIn (f n) g (es.map fun e => (f e.1, e.2))) =
    ⟨(updateIn n g es).map fun e => (f e.1, e.2)⟩
  congr 1
  induction es with
  | nil => rfl
  | cons x rest ih =>
      by_cases hx : x.1 = n
      · simp [updateIn, hx]
      · simp [updateIn, hx, hf.eq_iff, ih]

end

end SymbolTable

namespace Relabelling

variable (θ : Relabelling)

theorem name_eq_pcName {n : String} : θ.name n = pcName ↔ n = pcName := by
  have hpc : θ.name pcName = pcName := θ.name_plain (n := pcName) (by unfold Plain; decide)
  constructor
  · intro h
    exact θ.name_injective (h.trans hpc.symm)
  · rintro rfl
    exact hpc

theorem name_empty : θ.name "" = "" := θ.name_plain (n := "") (by unfold Plain; decide)

theorem isEmpty_name (n : String) : (θ.name n).isEmpty = n.isEmpty := by
  have hiff : θ.name n = "" ↔ n = "" := by
    constructor
    · intro h
      exact θ.name_injective (h.trans θ.name_empty.symm)
    · rintro rfl
      exact θ.name_empty
  rw [Bool.eq_iff_iff, String.isEmpty_iff, String.isEmpty_iff, hiff]

theorem isParentLabel_name (n : String) (synthetic : Bool) :
    isParentLabel (θ.name n) synthetic = isParentLabel n synthetic := by
  unfold isParentLabel
  rw [θ.isLocalName_name, θ.isQualifiedName_name]

/-- Full names change like the names that they are made of. -/
theorem qualify_name (name parent : String) :
    qualify (θ.name name) (θ.name parent) =
      match qualify name parent with
      | .ok full => .ok (θ.name full)
      | .error err => .error (θ.error err) := by
  unfold qualify
  rw [θ.isLocalName_name, isEmpty_name]
  cases hlocal : isLocalName name with
  | false => rfl
  | true =>
      cases parent.isEmpty with
      | true => rfl
      | false => exact congrArg Except.ok (θ.name_local hlocal parent).symm

/-- The second error is the first one under other names and numbers. -/
def Errors (err err' : Error) : Prop := err' = θ.error err

end Relabelling

namespace Engine

/-- The engine under other names and numbers, with counters and a log of its
own. -/
def relabel (θ : Relabelling) (counters : Array Int64) (log : Log) (e : Engine) : Engine :=
  { e with
    vars := e.vars.rename θ.name
    labels := e.labels.rename θ.name
    parent := θ.name e.parent
    jump := e.jump.map (θ.number .jump)
    counters := counters
    log := log }

/-- The second engine is the first one under other names and numbers.  Logs do
not matter. -/
def Relabelled (θ : Relabelling) (e e' : Engine) : Prop :=
  ∃ counters log, e' = e.relabel θ counters log ∧
    ∀ c, e'.counter? (θ.number .counter c) = e.counter? c

end Engine

/-- An operation, and one that does the same under other names and numbers. -/
def Relabelling.Echoes (θ : Relabelling) {α : Type} (m m' : EngineM α) : Prop :=
  InStep θ.Errors (Engine.Relabelled θ) m m' (Same (Engine.Relabelled θ))

namespace Engine

variable {θ : Relabelling} {e : Engine} {counters : Array Int64} {log : Log}

theorem cell?_relabel (full : String) :
    (e.relabel θ counters log).cell? (θ.name full) = e.cell? full := by
  unfold cell? relabel
  simp only [beq_iff_eq, θ.name_eq_pcName, SymbolTable.find?_rename θ.name_injective]

theorem isVariable_relabel (full : String) :
    (e.relabel θ counters log).isVariable (θ.name full) = e.isVariable full := by
  unfold isVariable relabel
  rw [SymbolTable.contains_rename θ.name_injective, Bool.beq_eq_decide_eq,
    Bool.beq_eq_decide_eq, decide_eq_decide.mpr θ.name_eq_pcName]

theorem updateCell_relabel (full : String) (f : Cell → Cell) :
    (e.relabel θ counters log).updateCell (θ.name full) f =
      (e.updateCell full f).relabel θ counters log := by
  unfold updateCell
  rw [show (e.relabel θ counters log).vars.contains (θ.name full) = e.vars.contains full from
    SymbolTable.contains_rename θ.name_injective _ _]
  simp only [beq_iff_eq, θ.name_eq_pcName]
  split
  · rfl
  · split
    · simp [relabel, SymbolTable.update_rename θ.name_injective]
    · simp [relabel, SymbolTable.update_rename θ.name_injective]

/-- What leaves the counters as they are. -/
theorem Relabelled.of_counters {d : Engine} {log' : Log}
    (h : ∀ c, (e.relabel θ counters log).counter? (θ.number .counter c) = e.counter? c)
    (hd : d.counters = e.counters) : Relabelled θ d (d.relabel θ counters log') := by
  refine ⟨counters, log', rfl, fun c => ?_⟩
  have hc := h c
  unfold counter? relabel at hc ⊢
  rw [hd]
  exact hc

theorem markRead_relabel (full : String) (c : Cell) :
    markRead (θ.name full) c (e.relabel θ counters log) =
      (markRead full c e).relabel θ counters log := by
  unfold markRead
  split
  · rfl
  · exact updateCell_relabel full Cell.read

end Engine

/-! ## Operations of the engine -/

namespace Relabelling.Echoes

variable {θ : Relabelling} {α β : Type}

theorem pure (a : α) : θ.Echoes (pure a : EngineM α) (pure a) :=
  InStep.pure fun _ _ h => ⟨rfl, h⟩

theorem throw {err : Error} (h : θ.error err = err) :
    θ.Echoes (throw err : EngineM α) (throw err) :=
  InStep.throw h.symm

theorem bind {m m' : EngineM α} {k k' : α → EngineM β} (h : θ.Echoes m m')
    (hk : ∀ a, θ.Echoes (k a) (k' a)) : θ.Echoes (m >>= k) (m' >>= k') :=
  h.andThen fun a _ hab => hab ▸ hk a

theorem locating {m m' : EngineM α} (loc : Location) (h : θ.Echoes m m') :
    θ.Echoes (EngineM.locating loc m) (EngineM.locating loc m') := by
  refine InStep.located h ?_
  rintro err _ rfl
  exact (θ.error_atLocation loc err).symm

/-- An operation that looks at the engine first. -/
theorem reading {γ : Type} (f : Engine → γ) (g : γ → γ) {k l : γ → EngineM β}
    (hf : ∀ counters log e, f (Engine.relabel θ counters log e) = g (f e))
    (hk : ∀ c, θ.Echoes (k c) (l (g c))) :
    θ.Echoes (get >>= fun e => k (f e)) (get >>= fun e => l (f e)) := by
  rintro e _ ⟨counters, log, rfl, hc⟩
  show Accord _ _ (k (f e) e) (l (f (e.relabel θ counters log)) (e.relabel θ counters log))
  rw [hf]
  exact hk _ ⟨counters, log, rfl, hc⟩

end Relabelling.Echoes

namespace Engine

variable {θ : Relabelling}

theorem push_echoes (v : Int64) : θ.Echoes (push v) (push v) := by
  rintro e _ ⟨counters, log, rfl, hc⟩
  unfold push
  rw [show (e.relabel θ counters log).stack = e.stack from rfl]
  cases hs : e.stack.push v with
  | ok s => exact .ok ⟨rfl, counters, log, rfl, hc⟩
  | error err =>
      have hpush : push v e = .error err e := by
        unfold push
        rw [hs]
      obtain ⟨rfl, -⟩ := push_eq_error hpush
      exact .error rfl

theorem pop_echoes : θ.Echoes pop pop := by
  rintro e _ ⟨counters, log, rfl, hc⟩
  unfold pop
  rw [show (e.relabel θ counters log).stack = e.stack from rfl]
  cases hs : e.stack.pop with
  | ok s => exact .ok ⟨rfl, counters, log, rfl, hc⟩
  | error err =>
      have hpop : pop e = .error err e := by
        unfold pop
        rw [hs]
      obtain ⟨rfl, -⟩ := pop_eq_error hpop
      exact .error rfl

theorem peek_echoes : θ.Echoes peek peek := by
  rintro e _ ⟨counters, log, rfl, hc⟩
  unfold peek
  rw [show (e.relabel θ counters log).stack = e.stack from rfl]
  cases hs : e.stack.peek with
  | ok s => exact .ok ⟨rfl, counters, log, rfl, hc⟩
  | error err =>
      have hpeek : peek e = .error err e := by
        unfold peek
        rw [hs]
      obtain ⟨rfl, -⟩ := peek_eq_error hpeek
      exact .error rfl

theorem popPair_echoes : θ.Echoes popPair popPair := by
  rintro e _ ⟨counters, log, rfl, hc⟩
  unfold popPair
  rw [show (e.relabel θ counters log).stack = e.stack from rfl]
  cases hs : e.stack.popPair with
  | ok s => exact .ok ⟨rfl, counters, log, rfl, hc⟩
  | error err =>
      have hpopPair : popPair e = .error err e := by
        unfold popPair
        rw [hs]
      obtain ⟨rfl, -⟩ := popPair_eq_error hpopPair
      exact .error rfl

theorem startOperand_echoes : θ.Echoes startOperand startOperand := by
  rintro e _ ⟨counters, log, rfl, hc⟩
  exact .ok ⟨rfl, counters, log, rfl, hc⟩

theorem pcAddress_echoes : θ.Echoes pcAddress pcAddress := by
  rintro e _ ⟨counters, log, rfl, hc⟩
  unfold pcAddress
  rw [show (e.relabel θ counters log).pcAddress? = e.pcAddress? from rfl]
  cases e.pcAddress? with
  | none => exact .error rfl
  | some a => exact .ok ⟨rfl, counters, log, rfl, hc⟩

theorem readSymbol_echoes (name : String) :
    θ.Echoes (readSymbol name) (readSymbol (θ.name name)) := by
  rintro e _ ⟨counters, log, rfl, hc⟩
  unfold readSymbol
  rw [show (e.relabel θ counters log).parent = θ.name e.parent from rfl, θ.qualify_name]
  cases qualify name e.parent with
  | error err => exact .error rfl
  | ok full =>
      simp only [cell?_relabel, markRead_relabel]
      rw [show (e.relabel θ counters log).strict = e.strict from rfl]
      cases e.cell? full with
      | none => exact .error rfl
      | some c =>
          -- a mark is set in the tables, which the renaming carries over
          have hcounters : (markRead full c e).counters = e.counters := by
            obtain ⟨_, _, _, heq, -⟩ := markRead_eq e full c
            rw [heq]
          dsimp only
          split
          · exact .ok ⟨rfl, .of_counters hc hcounters⟩
          · split
            · exact .error rfl
            · exact .ok ⟨rfl, .of_counters hc hcounters⟩

theorem assign_echoes (name : String) (v : Int64) :
    θ.Echoes (assign name v) (assign (θ.name name) v) := by
  rintro e _ ⟨counters, log, rfl, hc⟩
  unfold assign
  rw [show (e.relabel θ counters log).parent = θ.name e.parent from rfl, θ.qualify_name]
  cases qualify name e.parent with
  | error err => exact .error rfl
  | ok full =>
      have hvars : (e.relabel θ counters log).vars.contains (θ.name full) = e.vars.contains full :=
        SymbolTable.contains_rename θ.name_injective _ _
      simp only [beq_iff_eq, θ.name_eq_pcName, hvars]
      split
      · exact .ok ⟨rfl, counters, log, rfl, hc⟩
      · split
        · refine .ok ⟨rfl, counters, log, ?_, hc⟩
          simp [relabel, SymbolTable.update_rename θ.name_injective]
        · exact .error rfl

theorem placeLabel_echoes (name : String) (synthetic : Bool) :
    θ.Echoes (placeLabel name synthetic) (placeLabel (θ.name name) synthetic) := by
  rintro e _ ⟨counters, log, rfl, hc⟩
  unfold placeLabel
  rw [show (e.relabel θ counters log).parent = θ.name e.parent from rfl, θ.qualify_name]
  cases qualify name e.parent with
  | error err => exact .error rfl
  | ok full =>
      have hlabels : (e.relabel θ counters log).labels.contains (θ.name full) =
          e.labels.contains full := SymbolTable.contains_rename θ.name_injective _ _
      have haddress : (e.relabel θ counters log).labelAddress? synthetic =
          e.labelAddress? synthetic := rfl
      simp only [hlabels, haddress, θ.isParentLabel_name]
      split
      · cases e.labelAddress? synthetic with
        | none => exact .error rfl
        | some a =>
            -- the label placed becomes the parent in both, under its own name in each
            have hparent : (if isParentLabel name synthetic = true then θ.name full
                else θ.name e.parent) =
                  θ.name (if isParentLabel name synthetic = true then full else e.parent) :=
              (apply_ite θ.name _ _ _).symm
            have htable := SymbolTable.update_rename θ.name_injective e.labels full
              (·.assign (Int64.ofNat a.toNat))
            refine .ok ⟨rfl, counters, log.addIf (e.verbose && e.isFinal) (e.location.render ++ ": " ++
              θ.name full ++ " = $" ++ Text.hex 4 a.toNat), ?_, hc⟩
            rw [hparent]
            unfold relabel
            rw [← htable]
            rfl
      · exact .error rfl

theorem emit_echoes (kind : RegionKind) (v : Int64) : θ.Echoes (emit kind v) (emit kind v) := by
  rintro e _ ⟨counters, log, rfl, hc⟩
  unfold emit
  rw [show (e.relabel θ counters log).pcAddress? = e.pcAddress? from rfl,
    show (e.relabel θ counters log).regions = e.regions from rfl]
  cases e.pcAddress? with
  | none => exact .error rfl
  | some a =>
      by_cases hroom : noRoom kind a e.regions = true
      · simp only [hroom, if_true]
        exact .error rfl
      · have hpass : (e.relabel θ counters log).pass = e.pass := rfl
        by_cases hfinal : e.pass = .final <;> by_cases hwrap : a + 1 = 0 <;>
          simp [isFinal, advancePc, hroom, hfinal, hwrap, hpass]
        · exact .error rfl
        · exact .ok ⟨rfl, counters, log, rfl, hc⟩
        · exact .error rfl
        · exact .ok ⟨rfl, counters, log, rfl, hc⟩

theorem emitSized_echoes (kind : RegionKind) (word : Bool) (v : Int64) :
    θ.Echoes (emitSized kind word v) (emitSized kind word v) := by
  unfold emitSized emitWord
  cases word with
  | false => exact emit_echoes kind v
  | true => exact (emit_echoes kind v).bind fun _ => emit_echoes kind _

theorem emitBytes_echoes (word : Bool) (bytes : List UInt8) :
    θ.Echoes (emitBytes word bytes) (emitBytes word bytes) := by
  induction bytes with
  | nil => exact .pure _
  | cons b rest ih => exact (emitSized_echoes .data word _).bind fun _ => ih

theorem emitBranch_echoes (operand : Int64) :
    θ.Echoes (emitBranch operand) (emitBranch operand) := by
  unfold emitBranch
  refine pcAddress_echoes.bind fun a => ?_
  refine Relabelling.Echoes.reading (fun e => e.strict || !e.unresolved) id
    (k := fun b => if b = true then _ else _) (l := fun b => if b = true then _ else _)
    (fun _ _ _ => rfl) fun b => ?_
  simp only [id]
  split
  · split
    · exact .throw rfl
    · exact emit_echoes .code _
  · exact emit_echoes .code 0

theorem encode_echoes (op : Opcode) : θ.Echoes (encode op) (encode op) := by
  unfold encode
  split
  · exact emit_echoes .code _
  · refine pop_echoes.bind fun operand => (emit_echoes .code _).bind fun _ => ?_
    split
    · exact emitBranch_echoes operand
    · exact emitSized_echoes .code _ operand

theorem encodeWidth_echoes (mnemonic : String) (index : Index) :
    θ.Echoes (encodeWidth mnemonic index) (encodeWidth mnemonic index) := by
  unfold encodeWidth
  refine peek_echoes.bind fun v => ?_
  dsimp only
  split
  · exact encode_echoes _
  · exact .throw rfl

theorem applyBinary_echoes (op : BinaryOp) : θ.Echoes (applyBinary op) (applyBinary op) := by
  unfold applyBinary
  refine popPair_echoes.bind fun p => ?_
  dsimp only
  split
  · exact push_echoes _
  · exact .throw rfl

theorem storeBytes_echoes (bytes : List UInt8) : θ.Echoes (storeBytes bytes) (storeBytes bytes) :=
  pop_echoes.bind fun _ => pop_echoes.bind fun _ => emitBytes_echoes false _

theorem report_echoes (loc : Location) (level : Level) (formatted : Bool)
    (args : List Text.Template.Arg) :
    θ.Echoes (report loc level formatted args) (report loc level formatted args) := by
  rintro e _ ⟨counters, log, rfl, hc⟩
  unfold report
  cases htext : messageText formatted args with
  | error err =>
      obtain rfl : err = .messageFormat := by
        unfold messageText at htext
        split at htext
        · split at htext <;> cases htext
          rfl
        · cases htext
      exact .error rfl
  | ok text =>
      dsimp only
      split
      · exact .error rfl
      · exact .ok ⟨rfl, counters, _, rfl, hc⟩

theorem requestJump_echoes (j : Int) :
    θ.Echoes (requestJump j) (requestJump (θ.number .jump j)) := by
  rintro e _ ⟨counters, log, rfl, hc⟩
  refine .ok ⟨rfl, counters, log, ?_, hc⟩
  unfold relabel
  simp only [θ.number_eq_noJump]
  split <;> rfl

theorem counter_echoes (c : Int) : θ.Echoes (counter c) (counter (θ.number .counter c)) := by
  rintro e _ ⟨counters, log, rfl, hc⟩
  unfold counter
  rw [hc c]
  cases e.counter? c with
  | none => exact .error rfl
  | some v => exact .ok ⟨rfl, counters, log, rfl, hc⟩

/-- A counter that is not negative is set on both sides. -/
theorem setCounter_echoes {c : Int} (hpos : 0 ≤ c) (v : Int64) :
    θ.Echoes (setCounter c v) (setCounter (θ.number .counter c) v) := by
  rintro e _ ⟨counters, log, rfl, hc⟩
  refine .ok ⟨rfl, counters.setIfInBounds (θ.number .counter c).toNat v, log, rfl, fun d => ?_⟩
  have hd := hc d
  -- renumbering keeps the sign, so a negative counter is missing on both sides
  have hneg := θ.number_neg (κ := .counter) (n := d)
  unfold counter? relabel at hd ⊢
  simp only [hneg] at hd ⊢
  by_cases hdneg : d < 0
  · rw [if_pos hdneg, if_pos hdneg]
  · rw [if_neg hdneg, if_neg hdneg] at hd ⊢
    rw [Array.getElem?_setIfInBounds, Array.getElem?_setIfInBounds]
    rw [θ.toNat_number hpos, θ.toNat_number (Int.not_lt.mp hdneg)] at *
    have hlt : d.toNat + θ.shift.next .counter < counters.size ↔ d.toNat < e.counters.size := by
      have hnone := congrArg (· = none) hd
      simp only [Array.getElem?_eq_none_iff, eq_iff_iff] at hnone
      omega
    by_cases hcd : c.toNat = d.toNat
    · rw [if_pos hcd, if_pos (by omega), hcd, if_congr hlt rfl rfl]
    · rw [if_neg hcd, if_neg (by omega)]
      exact hd

/-- What comes after a counter was found. -/
theorem counter_bind_echoes {α : Type} {c : Int} {k k' : Int64 → EngineM α}
    (hk : 0 ≤ c → ∀ v, θ.Echoes (k v) (k' v)) :
    θ.Echoes (counter c >>= k) (counter (θ.number .counter c) >>= k') := by
  by_cases hpos : 0 ≤ c
  · exact (counter_echoes c).bind (hk hpos)
  · have hneg : ∀ {n : Int} (k : Int64 → EngineM α) (e : Engine), n < 0 →
        (counter n >>= k) e = .error (.unknownCounter n) e := by
      intro n k e hn
      show EStateM.bind (counter n) k e = _
      unfold EStateM.bind counter counter?
      rw [if_pos hn]
    rintro e e' -
    rw [hneg k e (by omega), hneg k' e' (θ.number_neg.mpr (by omega))]
    exact .error rfl

theorem loadCounter_echoes (c : Int) :
    θ.Echoes (loadCounter c) (loadCounter (θ.number .counter c)) := by
  refine counter_bind_echoes fun hpos _ => ?_
  have hset := pop_echoes.bind (k := setCounter c) fun v => setCounter_echoes (θ := θ) hpos v
  rintro e e' he
  show Accord _ _ (EStateM.tryCatch (pop >>= setCounter c) _ e)
    (EStateM.tryCatch (pop >>= setCounter (θ.number .counter c)) _ e')
  unfold EStateM.tryCatch
  have hagree := hset he
  -- a failure leaves the counter cleared, which its error does not show
  cases hm : (pop >>= setCounter c) e <;>
    cases hm' : (pop >>= setCounter (θ.number .counter c)) e' <;> rw [hm, hm'] at hagree <;>
    cases hagree
  · rename_i h
    exact .ok h
  · rename_i h
    exact .error h

end Engine

/-! ## Actions -/

section

open Engine

variable {θ : Relabelling}

mutual

/-- An action does the same under other names and numbers. -/
theorem Action.run_echoes : ∀ a : Action, θ.Echoes a.run (θ.action a).run
  | ⟨loc, op, x⟩ => by
      rw [Relabelling.action, Action.run, Action.run]
      exact Op.run_echoes op loc

theorem Op.run_echoes : ∀ (op : Op) (loc : Location), θ.Echoes (op.run loc) ((θ.op op).run loc)
  | .load v, loc => startOperand_echoes.bind fun _ => push_echoes v
  | .get name, loc => startOperand_echoes.bind fun _ => (readSymbol_echoes name).bind push_echoes
  | .set name, loc => pop_echoes.bind fun v => assign_echoes name v
  | .unary op, loc => pop_echoes.bind fun v => push_echoes _
  | .binary op, loc => applyBinary_echoes op
  | .instruction code, loc => encode_echoes _
  | .width mnemonic index, loc => encodeWidth_echoes mnemonic index
  | .data word, loc => pop_echoes.bind fun v => emitSized_echoes .data word v
  | .text word bytes, loc => emitBytes_echoes word bytes
  | .bytes name bytes, loc => storeBytes_echoes bytes
  | .label name synthetic, loc => placeLabel_echoes name synthetic
  | .jump j, loc => requestJump_echoes j
  | .jumpIfFalse j, loc => by
      refine pop_echoes.bind fun v => ?_
      split
      · exact requestJump_echoes j
      · exact .pure _
  | .counterSet c, loc => loadCounter_echoes c
  | .counterTest c j, loc => by
      refine (counter_echoes c).bind fun v => ?_
      split
      · exact requestJump_echoes j
      · exact .pure _
  | .counterStep c j, loc => counter_bind_echoes fun hpos v =>
      (setCounter_echoes hpos _).bind fun _ => requestJump_echoes j
  | .message level formatted args, loc => by
      rw [Relabelling.op, Op.run, Op.run]
      refine Relabelling.Echoes.reading isFinal id (k := fun b => if b = true then _ else _)
        (l := fun b => if b = true then _ else _) (fun _ _ _ => rfl) fun b => ?_
      simp only [id]
      split
      · exact (argValues_echoes args).bind fun values => report_echoes loc level formatted values
      · exact .pure _
  | .target _, loc | .string _, loc | .defineMacro _ _ _, loc | .callMacro _ _, loc
  | .metaLabel _, loc | .goto _, loc | .includeSource _, loc | .includeBinary _ _, loc =>
      .throw rfl

theorem argValues_echoes : ∀ args : List (List Action),
    θ.Echoes (argValues args) (argValues (θ.arguments args))
  | [] => by
      rw [Relabelling.arguments, argValues]
      exact .pure _
  | expr :: rest => by
      have hexpr := runEach_echoes expr
      have hrest := argValues_echoes rest
      rw [Relabelling.arguments]
      -- a string is its own value; any other argument is run
      rcases argValues_cons expr rest with ⟨loc, s, x, rfl, heq⟩ | ⟨hne, heq⟩
      · rw [heq]
        have hstring : θ.actions [⟨loc, .string s, x⟩] = [⟨loc, .string s, x.map θ.expansion⟩] := by
          simp [Relabelling.action, Relabelling.op]
        rw [hstring, argValues]
        exact hrest.bind fun _ => .pure _
      · rcases argValues_cons (θ.actions expr) (θ.arguments rest) with ⟨loc, s, x, hs, -⟩ | ⟨-, heq'⟩
        · rw [θ.actions_eq_map] at hs
          obtain ⟨⟨loc', op, x'⟩, rfl, hop⟩ := List.map_eq_singleton_iff.mp hs
          cases op <;> simp [Relabelling.action, Relabelling.op] at hop
          exact absurd rfl (hne _ _ _)
        · rw [heq, heq']
          exact hexpr.bind fun _ => Engine.pop_echoes.bind fun _ => hrest.bind fun _ => .pure _

theorem runEach_echoes : ∀ acts : List Action, θ.Echoes (runEach acts) (runEach (θ.actions acts))
  | [] => by
      rw [Relabelling.actions, runEach]
      exact .pure _
  | a :: rest => by
      rw [Relabelling.actions, runEach, runEach, θ.location_action]
      exact ((Action.run_echoes a).locating _).bind fun _ => runEach_echoes rest

end

end

/-! ## Code -/

/-- The second code is the first one under other names and numbers. -/
structure Code.Relabelled (θ : Relabelling) (code code' : Code) : Prop where
  actions : code'.actions = θ.actions code.actions
  targets : ∀ j, code'.target? (θ.number .jump j) = (code.target? j).map θ.actions
  counters : code'.counters = if code.counters = 0 then 0 else code.counters + θ.shift.counter

namespace Code.Relabelled

variable {θ : Relabelling} {code code' : Code} (h : Code.Relabelled θ code code')

include h

/-- Code does the same under other names and numbers, however far it runs. -/
theorem runFrom_echoes (n : Nat) (k : List Action) :
    θ.Echoes (code.runFrom n k) (code'.runFrom n (θ.actions k)) := by
  induction n, k using Code.runFrom_induction with
  | nil n =>
      intro e e' he
      rw [θ.actions_nil, Code.runFrom_nil, Code.runFrom_nil]
      exact .ok ⟨rfl, he⟩
  | cons n a k ih ihn =>
      intro e e' he
      have hat : Engine.Relabelled θ (e.atAction a) (e'.atAction (θ.action a)) := by
        obtain ⟨counters, log, rfl, hc⟩ := he
        refine ⟨counters, log, ?_, hc⟩
        unfold Engine.atAction
        rw [θ.location_action]
        rfl
      have hrun := a.run_echoes hat
      rw [θ.actions_cons, Code.runFrom_cons, Code.runFrom_cons]
      cases ha : a.run (e.atAction a) <;>
        cases ha' : (θ.action a).run (e'.atAction (θ.action a)) <;> rw [ha, ha'] at hrun <;>
        cases hrun
      · rename_i e₁ _ e₁' hsame
        obtain ⟨rfl, hd⟩ := hsame
        -- the jump asked for is renumbered, and its target is the renamed tail
        have hjump : e₁'.jump = e₁.jump.map (θ.number .jump) := by
          obtain ⟨_, _, rfl, -⟩ := hd
          rfl
        have hafter : Engine.Relabelled θ e₁.afterJump e₁'.afterJump := by
          obtain ⟨counters, log, rfl, hc⟩ := hd
          exact ⟨counters, log, rfl, hc⟩
        dsimp only
        rw [hjump]
        cases e₁.jump with
        | none => exact ih hd
        | some j =>
            dsimp only [Option.map]
            rw [h.targets]
            cases code.target? j with
            | none => exact .error (θ.error_atAction a (.unknownJump j)).symm
            | some k' =>
                cases n with
                | zero => exact .error (θ.error_atAction a .loopLimit).symm
                | succ n => exact ihn n rfl k' hafter
      · rename_i herr
        exact .error (by rw [herr]; exact (θ.error_atAction a _).symm)

theorem execute_echoes : θ.Echoes code.execute code'.execute := by
  intro e e' he
  have hjump : e'.jump = e.jump.map (θ.number .jump) ∧ e'.jumps = e.jumps := by
    obtain ⟨_, _, rfl, -⟩ := he
    exact ⟨rfl, rfl⟩
  have hafter : Engine.Relabelled θ { e with jump := none, jumps := e.jumps + 1 }
      { e' with jump := none, jumps := e'.jumps + 1 } := by
    obtain ⟨counters, log, rfl, hc⟩ := he
    exact ⟨counters, log, rfl, hc⟩
  unfold Code.execute
  dsimp only
  rw [hjump.1, hjump.2, h.actions]
  cases e.jump with
  | none => exact runFrom_echoes h _ _ he
  | some j =>
      dsimp only [Option.map]
      rw [h.targets]
      cases code.target? j with
      | none => exact .error rfl
      | some k =>
          dsimp only [Option.map]
          split
          · exact .error rfl
          · rw [hjump.2] at hafter
            exact runFrom_echoes h _ k hafter

/-- All counters are there at the start of a pass, and are zero. -/
theorem start_relabelled (pass : Pass) {e e' : Engine} (he : Engine.Relabelled θ e e') :
    Engine.Relabelled θ (code.start pass e) (code'.start pass e') := by
  obtain ⟨counters, log, rfl, -⟩ := he
  refine ⟨Array.replicate code'.counters 0, log, ?_, fun c => ?_⟩
  · unfold Code.start Engine.begin Engine.relabel
    rw [θ.name_empty]
    rfl
  · unfold Engine.counter? Code.start
    simp only [θ.number_neg]
    split
    · rfl
    · rename_i hc
      rw [Array.getElem?_replicate, Array.getElem?_replicate, θ.toNat_number (Int.not_lt.mp hc),
        h.counters]
      have hshift : θ.shift.next .counter = θ.shift.counter := rfl
      by_cases hn : code.counters = 0
      · simp [hn]
      · refine if_congr ?_ rfl rfl
        rw [if_neg hn]
        omega

end Code.Relabelled

/-! ## Passes -/

namespace Assembler

/-- The layout under other names. -/
def Layout.rename (f : String → String) (l : Layout) : Layout :=
  { l with
    labels := l.labels.map fun v => (f v.1, v.2)
    vars := l.vars.map fun v => (f v.1, v.2) }

theorem Layout.rename_injective {f : String → String} (hf : f.Injective) :
    (Layout.rename f).Injective := by
  have hpairs : Function.Injective fun v : String × Int64 => (f v.1, v.2) := by
    intro v w h
    obtain ⟨hname, hvalue⟩ := Prod.mk.inj h
    exact Prod.ext (hf hname) hvalue
  rintro ⟨labels, vars, pc, spans⟩ ⟨labels', vars', pc', spans'⟩ h
  unfold Layout.rename at h
  simpa only [Layout.mk.injEq, List.map_inj_right hpairs] using h

/-- The final pass, which has to leave the layout that was there before. -/
def finalPass (verbose : Bool) (code : Code) (before : Layout) : EngineM Unit := do
  runPass verbose code .final
  let e ← get
  if Layout.ofEngine e != before then throw .notConverged

variable {θ : Relabelling} {code code' : Code} (h : Code.Relabelled θ code code')

theorem layout_relabel (θ : Relabelling) (counters : Array Int64) (log : Log) (e : Engine) :
    Layout.ofEngine (e.relabel θ counters log) =
      Layout.rename θ.name (Layout.ofEngine e) := by
  unfold Layout.ofEngine Engine.relabel Layout.rename
  simp only [SymbolTable.values_rename]

include h

theorem runPass_echoes (verbose : Bool) (pass : Pass) :
    θ.Echoes (runPass verbose code pass) (runPass verbose code' pass) := by
  refine Relabelling.Echoes.bind (α := Unit) ?_ fun _ => h.execute_echoes.bind fun _ => ?_
  · intro e e' he
    exact .ok ⟨rfl, h.start_relabelled pass he⟩
  · rintro e _ ⟨counters, log, rfl, hc⟩
    exact .ok ⟨rfl, counters, _, rfl, hc⟩

theorem finalPass_echoes (verbose : Bool) (before : Layout) :
    θ.Echoes (finalPass verbose code before)
      (finalPass verbose code' (Layout.rename θ.name before)) := by
  refine (runPass_echoes h verbose .final).bind fun _ => ?_
  refine Relabelling.Echoes.reading Layout.ofEngine _ (layout_relabel θ)
    (k := fun l => if l != before then throw .notConverged else pure ())
    (l := fun l => if l != Layout.rename θ.name before then throw .notConverged
      else pure ()) fun l => ?_
  simp only [bne_iff_ne, ne_eq, (Layout.rename_injective θ.name_injective).eq_iff]
  split
  · exact .throw rfl
  · exact .pure _

/-- The passes do the same under other names and numbers, and the last two agree
where they did. -/
theorem runPasses_echoes (verbose : Bool) :
    θ.Echoes (runPasses verbose code) (runPasses verbose code') := by
  have hfinal := Relabelling.Echoes.reading Layout.ofEngine _ (layout_relabel θ)
    (l := finalPass verbose code') (finalPass_echoes h verbose)
  exact (runPass_echoes h verbose .warmUp).bind fun _ =>
    (runPass_echoes h verbose .first).bind fun _ => hfinal

end Assembler

end Mos6510
