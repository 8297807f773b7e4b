import Mos6510.Proofs.SymbolTable
import Mos6510.Proofs.Trace

/-!
# Repeating a pass

A strict pass never reads a symbol without a value.  So it goes the same way
from any engine in which every symbol has the same value and those that are
set are set too: `Repeats` is the relation between two such engines while
they execute the same actions, and all actions respect it.

The relation may hold between engines of different passes; `same` says that
the passes agree, and with them the record of what emitted each byte.
-/

namespace Mos6510

open Outcome EngineM

/-- The second cell has the value of the first, and is set if the first is. -/
def Cell.Repeats (c d : Cell) : Prop := c.value = d.value ∧ (c.isSet = true → d.isSet = true)

theorem Cell.Repeats.of_same {b c d : Cell} (h : b.Repeats c) (h' : c.Same d) : b.Repeats d :=
  ⟨h.1.trans h'.1, fun hb => h'.2 ▸ h.2 hb⟩

/-- The second engine does what the first does, in a strict pass, with at
least as many symbols set. -/
structure Engine.Repeats (same : Prop) (e₁ e₂ : Engine) : Prop where
  strict₁ : e₁.strict = true
  strict₂ : e₂.strict = true
  pass : same → e₁.pass = e₂.pass
  vars : SymbolTable.Pointwise (fun _ => Cell.Repeats) e₁.vars e₂.vars
  labels : SymbolTable.Pointwise (fun _ => Cell.Repeats) e₁.labels e₂.labels
  pc : e₁.pc.Same e₂.pc
  stack : e₁.stack = e₂.stack
  regions : e₁.regions = e₂.regions
  parent : e₁.parent = e₂.parent
  jump : e₁.jump = e₂.jump
  jumps : e₁.jumps = e₂.jumps
  counters : e₁.counters = e₂.counters
  location : e₁.location = e₂.location
  source : same → e₁.source = e₂.source

namespace Engine.Repeats

variable {same : Prop} {e₁ e₂ : Engine}

/-! ## Symbols -/

/-- Reading marks on the first engine do not matter. -/
theorem markRead_left (h : Repeats same e₁ e₂) (full : String) (c : Cell) :
    Repeats same (e₁.markRead full c) e₂ := by
  obtain ⟨vars, labels, pc, heq, hvars, hlabels, hpc⟩ := e₁.markRead_eq full c
  have hcomp : ∀ (n : String) (b c d : Cell), c.Same b → c.Repeats d → b.Repeats d := by
    rintro _ b c d ⟨hv, hs⟩ ⟨hv', hs'⟩
    exact ⟨hv.symm.trans hv', fun hb => hs' (hs.trans hb)⟩
  rw [heq]
  exact { h with
    vars := hvars.flip.comp h.vars hcomp
    labels := hlabels.flip.comp h.labels hcomp
    pc := ⟨hpc.1.symm.trans h.pc.1, hpc.2.symm.trans h.pc.2⟩ }

/-- Reading marks on the second engine do not matter. -/
theorem markRead_right (h : Repeats same e₁ e₂) (full : String) (c : Cell) :
    Repeats same e₁ (e₂.markRead full c) := by
  obtain ⟨vars, labels, pc, heq, hvars, hlabels, hpc⟩ := e₂.markRead_eq full c
  rw [heq]
  exact { h with
    vars := h.vars.comp hvars fun _ _ _ _ => Cell.Repeats.of_same
    labels := h.labels.comp hlabels fun _ _ _ _ => Cell.Repeats.of_same
    pc := ⟨h.pc.1.trans hpc.1, h.pc.2.trans hpc.2⟩ }

/-- Look-up finds cells that repeat each other. -/
theorem cell? (h : Repeats same e₁ e₂) {full : String} {c : Cell} (hc : e₁.cell? full = some c) :
    ∃ d, e₂.cell? full = some d ∧ c.Repeats d := by
  have hpc : e₁.pc.Repeats e₂.pc := ⟨h.pc.1, fun hs => h.pc.2 ▸ hs⟩
  rcases Engine.cell?_related (r := fun _ => Cell.Repeats) h.vars h.labels hpc full with
    ⟨hn, -⟩ | ⟨c', d, hc', hd, hr⟩
  · rw [hn] at hc
    cases hc
  · rw [hc'] at hc
    cases hc
    exact ⟨d, hd, hr⟩

theorem pcAddress? (h : Repeats same e₁ e₂) : e₁.pcAddress? = e₂.pcAddress? := by
  unfold Engine.pcAddress?
  rw [h.pc.1, h.pc.2]

theorem labelAddress? (h : Repeats same e₁ e₂) (synthetic : Bool) :
    e₁.labelAddress? synthetic = e₂.labelAddress? synthetic := by
  unfold Engine.labelAddress?
  rw [h.pcAddress?, h.pc.2]

end Engine.Repeats

/-! ## Elementary operations -/

section Elementary

variable {same : Prop}

theorem push_repeats (v : Int64) : Respects (Engine.Repeats same) (Engine.push v) := by
  intro e₁ e₂ h u e₁' hrun
  obtain ⟨hd, rfl⟩ := Engine.push_eq_ok.mp hrun
  rw [h.stack] at hd
  exact ⟨_, Engine.push_eq_ok.mpr ⟨hd, rfl⟩, { h with stack := by rw [h.stack] }⟩

theorem pop_repeats : Respects (Engine.Repeats same) Engine.pop := by
  intro e₁ e₂ h v e₁' hrun
  obtain ⟨rest, hs, rfl⟩ := Engine.pop_eq_ok.mp hrun
  rw [h.stack] at hs
  exact ⟨_, Engine.pop_eq_ok.mpr ⟨rest, hs, rfl⟩, { h with stack := rfl }⟩

theorem peek_repeats : Respects (Engine.Repeats same) Engine.peek := by
  intro e₁ e₂ h v e₁' hrun
  obtain ⟨hs, rfl⟩ := Engine.peek_eq_ok.mp hrun
  rw [h.stack] at hs
  exact ⟨e₂, Engine.peek_eq_ok.mpr ⟨hs, rfl⟩, h⟩

theorem popPair_repeats : Respects (Engine.Repeats same) Engine.popPair := by
  intro e₁ e₂ h p e₁' hrun
  obtain ⟨rest, hs, rfl⟩ := Engine.popPair_eq_ok.mp hrun
  rw [h.stack] at hs
  exact ⟨_, Engine.popPair_eq_ok.mpr ⟨rest, hs, rfl⟩, { h with stack := rfl }⟩

theorem startOperand_repeats : Respects (Engine.Repeats same) Engine.startOperand := by
  intro e₁ e₂ h u e₁' hrun
  obtain rfl := Engine.startOperand_eq_ok.mp hrun
  exact ⟨_, rfl, { h with }⟩

/-- A strict pass reads only what has a value. -/
theorem readSymbol_repeats (name : String) :
    Respects (Engine.Repeats same) (Engine.readSymbol name) := by
  intro e₁ e₂ h v e₁' hrun
  obtain ⟨full, c, hq, hc, rfl, hset⟩ := Engine.readSymbol_eq_ok.mp hrun
  obtain ⟨d, hd, hvalue, hcd⟩ := h.cell? hc
  rw [h.parent] at hq
  rcases hset with ⟨hcs, rfl⟩ | ⟨_, hstrict, _⟩
  · refine ⟨e₂.markRead full d, ?_, (h.markRead_left full c).markRead_right full d⟩
    exact Engine.readSymbol_eq_ok.mpr ⟨full, d, hq, hd, hvalue, .inl ⟨hcd hcs, rfl⟩⟩
  · rw [h.strict₁] at hstrict
    cases hstrict

theorem assign_repeats (name : String) (v : Int64) :
    Respects (Engine.Repeats same) (Engine.assign name v) := by
  intro e₁ e₂ h u e₁' hrun
  obtain ⟨full, hq, hcase⟩ := Engine.assign_eq_ok.mp hrun
  rw [h.parent] at hq
  rcases hcase with ⟨hp, rfl⟩ | ⟨hp, hv, rfl⟩
  · exact ⟨_, Engine.assign_eq_ok.mpr ⟨full, hq, .inl ⟨hp, rfl⟩⟩, { h with pc := ⟨rfl, rfl⟩ }⟩
  · rw [h.vars.contains_eq] at hv
    refine ⟨_, Engine.assign_eq_ok.mpr ⟨full, hq, .inr ⟨hp, hv, rfl⟩⟩, ?_⟩
    exact { h with vars := h.vars.update full fun _ _ _ => ⟨rfl, fun _ => rfl⟩ }

theorem placeLabel_repeats (name : String) (synthetic : Bool) :
    Respects (Engine.Repeats same) (Engine.placeLabel name synthetic) := by
  intro e₁ e₂ h u e₁' hrun
  obtain ⟨full, a, hq, hl, ha, rfl⟩ := Engine.placeLabel_eq_ok.mp hrun
  rw [h.parent] at hq
  rw [h.labels.contains_eq] at hl
  rw [h.labelAddress?] at ha
  refine ⟨_, Engine.placeLabel_eq_ok.mpr ⟨full, a, hq, hl, ha, rfl⟩, ?_⟩
  exact { h with
    labels := h.labels.update full fun _ _ _ => ⟨rfl, fun _ => rfl⟩
    parent := by
      show (if _ then _ else _) = (if _ then _ else _)
      rw [h.parent] }

theorem emit_repeats (kind : RegionKind) (v : Int64) :
    Respects (Engine.Repeats same) (Engine.emit kind v) := by
  intro e₁ e₂ h u e₁' hrun
  obtain ⟨a, ha, hroom, hwrap, rfl⟩ := Engine.emit_eq_ok.mp hrun
  rw [h.pcAddress?] at ha
  rw [h.regions] at hroom
  refine ⟨_, Engine.emit_eq_ok.mpr ⟨a, ha, hroom, hwrap, rfl⟩, ?_⟩
  exact { h with
    pc := ⟨rfl, rfl⟩
    regions := by
      show Engine.extendRegions _ _ _ _ = Engine.extendRegions _ _ _ _
      rw [h.regions]
    source := fun hs => by
      show (if e₁.isFinal then _ else _) = (if e₂.isFinal then _ else _)
      unfold Engine.isFinal
      rw [h.pass hs, h.source hs, h.location] }

theorem requestJump_repeats (j : Int) :
    Respects (Engine.Repeats same) (Engine.requestJump j) := by
  intro e₁ e₂ h u e₁' hrun
  obtain rfl := Engine.requestJump_eq_ok.mp hrun
  exact ⟨_, rfl, { h with jump := rfl }⟩

theorem counter_repeats (c : Int) : Respects (Engine.Repeats same) (Engine.counter c) := by
  intro e₁ e₂ h v e₁' hrun
  obtain ⟨hc, rfl⟩ := Engine.counter_eq_ok.mp hrun
  refine ⟨e₂, Engine.counter_eq_ok.mpr ⟨?_, rfl⟩, h⟩
  unfold Engine.counter? at hc ⊢
  rw [← h.counters]
  exact hc

theorem setCounter_repeats (c : Int) (v : Int64) :
    Respects (Engine.Repeats same) (Engine.setCounter c v) := by
  intro e₁ e₂ h u e₁' hrun
  obtain rfl := Engine.setCounter_eq_ok.mp hrun
  exact ⟨_, rfl, { h with counters := by rw [h.counters] }⟩

theorem report_repeats (loc : Location) (level : Level) (formatted : Bool)
    (args : List Text.Template.Arg) :
    Respects (Engine.Repeats same) (Engine.report loc level formatted args) := by
  intro e₁ e₂ h u e₁' hrun
  obtain ⟨text, ht, hl, rfl⟩ := Engine.report_eq_ok.mp hrun
  exact ⟨_, Engine.report_eq_ok.mpr ⟨text, ht, hl, rfl⟩, { h with }⟩

end Elementary

/-! ## Actions -/

section Actions

variable {same : Prop}

theorem emitSized_repeats (kind : RegionKind) (word : Bool) (v : Int64) :
    Respects (Engine.Repeats same) (Engine.emitSized kind word v) := by
  unfold Engine.emitSized Engine.emitWord
  cases word with
  | false => exact emit_repeats kind v
  | true => exact (emit_repeats kind v).bind fun _ => emit_repeats kind _

theorem emitBytes_repeats (word : Bool) (bytes : List UInt8) :
    Respects (Engine.Repeats same) (Engine.emitBytes word bytes) := by
  induction bytes with
  | nil => exact Respects.pure _
  | cons b rest ih => exact (emitSized_repeats .data word _).bind fun _ => ih

/-- A strict pass always checks the reach of a branch. -/
theorem emitBranch_repeats (operand : Int64) :
    Respects (Engine.Repeats same) (Engine.emitBranch operand) := by
  intro e₁ e₂ h u e₁' hrun
  obtain ⟨a, ha, hcase⟩ := Engine.emitBranch_eq_ok.mp hrun
  rw [h.pcAddress?] at ha
  rcases hcase with ⟨_, hreach, hemit⟩ | ⟨hc, _⟩
  · obtain ⟨e₂', hemit₂, h'⟩ := emit_repeats .code _ h hemit
    refine ⟨e₂', Engine.emitBranch_eq_ok.mpr ⟨a, ha, .inl ⟨?_, hreach, hemit₂⟩⟩, h'⟩
    rw [h.strict₂, Bool.true_or]
  · rw [h.strict₁] at hc
    cases hc

theorem encode_repeats (op : Opcode) : Respects (Engine.Repeats same) (Engine.encode op) := by
  unfold Engine.encode
  split
  · exact emit_repeats .code _
  · refine pop_repeats.bind fun operand => (emit_repeats .code _).bind fun _ => ?_
    split
    · exact emitBranch_repeats operand
    · exact emitSized_repeats .code _ operand

theorem encodeWidth_repeats (mnemonic : String) (index : Index) :
    Respects (Engine.Repeats same) (Engine.encodeWidth mnemonic index) := by
  unfold Engine.encodeWidth
  refine peek_repeats.bind fun v => ?_
  dsimp only
  split
  · exact encode_repeats _
  · exact Respects.throw _

theorem loadCounter_repeats (c : Int) : Respects (Engine.Repeats same) (Engine.loadCounter c) := by
  intro e₁ e₂ h u e₁' hrun
  obtain ⟨hc, hset⟩ := Engine.loadCounter_eq_ok.mp hrun
  obtain ⟨e₂', hset₂, h'⟩ := (pop_repeats.bind fun v => setCounter_repeats c v) h hset
  unfold Engine.counter? at hc
  rw [h.counters] at hc
  exact ⟨e₂', Engine.loadCounter_eq_ok.mpr ⟨hc, hset₂⟩, h'⟩

theorem applyBinary_repeats (op : BinaryOp) :
    Respects (Engine.Repeats same) (Engine.applyBinary op) := by
  unfold Engine.applyBinary
  refine popPair_repeats.bind fun ⟨a, b⟩ => ?_
  dsimp only
  split
  · exact push_repeats _
  · exact Respects.throw _

/-- Every action other than a message goes the same way on both engines. -/
theorem Op.run_repeats (op : Op) (loc : Location) (hmsg : op.isMessage = false) :
    Respects (Engine.Repeats same) (op.run loc) := by
  cases hmeta : op.isMeta with
  | true =>
      -- an operation that should be gone by now fails wherever it is run
      rw [Op.run_of_isMeta hmeta]
      exact Respects.throw _
  | false =>
      cases op with
      | load v => exact startOperand_repeats.bind fun _ => push_repeats v
      | get name =>
          exact startOperand_repeats.bind fun _ => (readSymbol_repeats name).bind fun v =>
            push_repeats v
      | set name => exact pop_repeats.bind fun v => assign_repeats name v
      | unary op => exact pop_repeats.bind fun v => push_repeats (op.apply v)
      | binary op => exact applyBinary_repeats op
      | instruction code => exact encode_repeats _
      | width mnemonic index => exact encodeWidth_repeats mnemonic index
      | data word => exact pop_repeats.bind fun v => emitSized_repeats .data word v
      | text word bytes => exact emitBytes_repeats word bytes
      | bytes name bytes =>
          exact pop_repeats.bind fun length => pop_repeats.bind fun skip =>
            emitBytes_repeats false _
      | label name synthetic => exact placeLabel_repeats name synthetic
      | jump j => exact requestJump_repeats j
      | jumpIfFalse j =>
          refine pop_repeats.bind fun v => ?_
          split
          · exact requestJump_repeats j
          · exact Respects.pure _
      | counterSet c => exact loadCounter_repeats c
      | counterTest c j =>
          refine (counter_repeats c).bind fun v => ?_
          split
          · exact requestJump_repeats j
          · exact Respects.pure _
      | counterStep c j =>
          exact (counter_repeats c).bind fun v => (setCounter_repeats c _).bind fun _ =>
            requestJump_repeats j
      | message => cases hmsg
      | _ => cases hmeta

/-- In the same pass, messages go the same way too. -/
theorem repeats_respectful (hsame : same) : Respectful (Engine.Repeats same) where
  op := Op.run_repeats
  pop := pop_repeats
  report := report_repeats
  isFinal := fun e₁ e₂ h => by
    unfold Engine.isFinal
    rw [h.pass hsame]

end Actions

end Mos6510
