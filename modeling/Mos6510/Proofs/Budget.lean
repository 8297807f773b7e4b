import Mos6510.Emulator
import Mos6510.Proofs.Cycles

/-!
# The budget of a run

A run that has a budget ends, whatever the program does to its own code, to the system
routines and to the stack.  The processor only gets instructions that take cycles
(`turn`), so each step that goes on uses up some of the budget (`step_stepped`), and
there are not more steps than cycles of it, but for the last one (`run_within_budget`).
-/

namespace Mos6510

/-! ## The processor -/

/-- The opcode at the program counter. -/
def Machine.opcode (m : Machine) : Opcode := Opcode.ofCode (m.memory.get m.pc)

/-- The instruction at the program counter is documented, and is no `BRK`. -/
structure Machine.Executable (m : Machine) : Prop where
  documented : m.opcode.documented = true
  running : m.opcode.mnemonic ≠ .kil
  ongoing : m.opcode.mnemonic ≠ .brk

/-- Executing a documented instruction other than `BRK` takes from 1 to 255 cycles. -/
def Paced (processor : Machine → Machine) : Prop :=
  ∀ m : Machine, m.Executable → ∃ n : UInt64, 1 ≤ n ∧ n ≤ 255 ∧ (processor m).cycles = m.cycles + n

theorem paced_step : Paced Machine.step := by
  intro m _
  obtain ⟨n, hlow, hhigh, hcycles⟩ := m.step_cycles
  have hone : (1 : UInt64) ≤ 2 := by decide
  have hbyte : (9 : UInt64) ≤ 255 := by decide
  exact ⟨n, UInt64.le_trans hone hlow, UInt64.le_trans hhigh hbyte, hcycles⟩

open Opcode in
/-- Only the byte zero is a `BRK`: the first entry of the matrix is the only one. -/
theorem Opcode.ofCode_brk_iff (code : UInt8) : (ofCode code).mnemonic = .brk ↔ code = 0 := by
  have hlength : matrix.toList.tail.length = 255 := by decide +kernel
  have hothers : ∀ entry ∈ matrix.toList.tail, entry.1 ≠ .brk := by decide +kernel
  have hentry : (ofCode code).mnemonic = (matrix.toList[code.toNat]?.getD (known .brk .implied)).1 := by
    simp only [ofCode, Array.getD_eq_getD_getElem?, Array.getElem?_toList]
  rw [hentry, ← UInt8.toNat_inj]
  cases hcode : code.toNat with
  | zero => exact iff_of_true rfl rfl
  | succ n =>
      have hn : n < matrix.toList.tail.length := by
        have := code.toNat_lt
        omega
      rw [← List.getElem?_tail, List.getElem?_eq_getElem hn]
      exact iff_of_false (hothers _ (List.getElem_mem hn)) (Nat.succ_ne_zero n)

namespace Emulator

/-! ## What a step finds -/

/-- What a step finds before an instruction is executed. -/
inductive Turn where
  /-- The program is done. -/
  | ended (e : Emulator)
  /-- Something is wrong. -/
  | failed (err : Error) (e : Emulator)
  /-- An instruction, which the processor gets. -/
  | handed (e : Emulator)

/-- What there is at the program counter, once a system routine has been served. -/
def turn (e : Emulator) : Turn :=
  if e.machine.pc == returnAddress then .ended e
  else
    match e.serve with
    | .error err => .failed err e
    | .ok e =>
      let op := e.machine.opcode
      if op.code == 0 then .ended e
      else if op.mnemonic == .kil then .failed .jammed e
      else if !op.documented then .failed (.illegalOpcode op.code) e
      else .handed e

/-- The machine that the processor gets in a step. -/
def handed? (e : Emulator) : Option Machine :=
  match e.turn with
  | .handed e => some e.machine
  | _ => none

theorem stepInner_eq (e : Emulator) :
    e.stepInner = match e.turn with
      | .ended e => .ok true e
      | .failed err e => .error err e
      | .handed e => e.advance := by
  unfold stepInner turn
  split
  · rfl
  · cases e.serve with
    | error err => rfl
    | ok e =>
        dsimp only [Machine.opcode]
        split
        · rfl
        · split
          · rfl
          · split <;> rfl

/-- What a step does not change, besides the machine, the tape and the log. -/
structure Keeps (e e' : Emulator) : Prop where
  processor : e'.processor = e.processor
  maxCycles : e'.maxCycles = e.maxCycles
  source : e'.source = e.source

theorem Keeps.refl (e : Emulator) : Keeps e e := ⟨rfl, rfl, rfl⟩

theorem Keeps.trans {e e' e'' : Emulator} (h : Keeps e e') (h' : Keeps e' e'') : Keeps e e'' :=
  ⟨h'.processor.trans h.processor, h'.maxCycles.trans h.maxCycles, h'.source.trans h.source⟩

theorem Keeps.locationOf {e e' : Emulator} (h : Keeps e e') (a : UInt16) :
    e'.locationOf a = e.locationOf a := by
  rw [Emulator.locationOf, h.source, Emulator.locationOf]

/-- A system routine is served: at most the tape and the accumulator change. -/
theorem serve_ok {e e' : Emulator} (h : e.serve = .ok e') : Keeps e e' ∧ e'.cycles = e.cycles := by
  unfold serve at h
  split at h
  · split at h
    · cases h
      exact ⟨⟨rfl, rfl, rfl⟩, rfl⟩
    · cases h
  · split at h <;> cases h <;> exact ⟨⟨rfl, rfl, rfl⟩, rfl⟩

theorem serve_error {e : Emulator} {err : Error} (h : e.serve = .error err) :
    e.tape.send e.machine.a = .error err := by
  unfold serve at h
  split at h
  · split at h
    · cases h
    · cases h
      assumption
  · split at h <;> cases h

/-- Why a step fails, as seen from where it stopped. -/
inductive Fails (e : Emulator) : Error → Prop
  | tape {err : Error} : e.tape.send e.machine.a = .error err → Fails e err
  | jammed : e.machine.opcode.mnemonic = .kil → Fails e .jammed
  | illegal : e.machine.opcode.documented = false → Fails e (.illegalOpcode e.machine.opcode.code)
  | budget : e.maxCycles < e.cycles → Fails e (.cycleLimit e.maxCycles)

/-- The program is done: it has returned, or is at a `BRK`. -/
def Done (e : Emulator) : Prop :=
  e.machine.pc = returnAddress ∨ e.machine.opcode.mnemonic = .brk

/-- What is known of what a step finds. -/
def Turn.Sound (e : Emulator) : Turn → Prop
  | .ended e' => Keeps e e' ∧ e'.cycles = e.cycles ∧ e'.Done
  | .failed err e' => Keeps e e' ∧ e'.cycles = e.cycles ∧ e'.Fails err
  | .handed e' => Keeps e e' ∧ e'.cycles = e.cycles ∧ e'.machine.Executable

theorem Turn.Sound.ite {e : Emulator} {c : Prop} [Decidable c] {t t' : Turn} (h : c → t.Sound e)
    (h' : ¬c → t'.Sound e) : (if c then t else t').Sound e := by
  split
  · exact h ‹_›
  · exact h' ‹_›

theorem turn_sound (e : Emulator) : e.turn.Sound e := by
  unfold turn
  refine .ite (fun h => ⟨.refl e, rfl, .inl (beq_iff_eq.mp h)⟩) fun _ => ?_
  cases hserve : e.serve with
  | error err => exact ⟨.refl e, rfl, .tape (serve_error hserve)⟩
  | ok e' =>
      obtain ⟨hkeeps, hcycles⟩ := serve_ok hserve
      -- the matrix of opcodes stays closed
      dsimp only
      generalize hop : e'.machine.opcode = op
      have hcode : op.mnemonic = .brk ↔ op.code = 0 := by
        rw [← hop]
        exact Opcode.ofCode_brk_iff _
      refine .ite (fun h => ?_) fun hbrk => ?_
      · exact ⟨hkeeps, hcycles, .inr (by rw [hop]; exact hcode.mpr (beq_iff_eq.mp h))⟩
      refine .ite (fun h => ?_) fun hkil => ?_
      · exact ⟨hkeeps, hcycles, .jammed (by rw [hop]; exact beq_iff_eq.mp h)⟩
      refine .ite (fun h => ?_) fun hknown => ?_
      · have hhidden : e'.machine.opcode.documented = false := by
          rw [hop]
          simpa using h
        rw [← hop]
        exact ⟨hkeeps, hcycles, .illegal hhidden⟩
      · refine ⟨hkeeps, hcycles, ?_, ?_, ?_⟩ <;> rw [hop]
        · simpa using hknown
        · exact fun h => hkil (beq_iff_eq.mpr h)
        · exact fun h => hbrk (beq_iff_eq.mpr (hcode.mp h))

/-! ## Steps -/

/-- What a step within the budget comes to. -/
inductive Stepped (e : Emulator) : EStateM.Result Error Emulator Bool → Prop
  | ended {e' : Emulator} : Keeps e e' → e'.cycles = e.cycles → e'.Done → Stepped e (.ok true e')
  | failed {cause : Error} {e' : Emulator} : Keeps e e' → e'.Fails cause →
      (cause = .cycleLimit e.maxCycles ∨ e'.cycles = e.cycles) →
      Stepped e (.error (.running e.machine.pc (e.locationOf e.machine.pc) cause) e')
  | further {e' : Emulator} : Keeps e e' → e.cycles < e'.cycles → e'.cycles ≤ e.maxCycles →
      Stepped e (.ok false e')

/-- The largest budget: the cycles of one more instruction can still be counted. -/
def largestBudget : UInt64 := 0x8000000000000000

theorem maxCycles_ne_zero {e : Emulator} (hpos : 1 ≤ e.maxCycles) : e.maxCycles ≠ 0 := by
  intro hzero
  rw [hzero] at hpos
  exact absurd hpos (by decide)

/-- An instruction takes cycles, and the budget is looked at after it. -/
theorem advance_cases {e : Emulator} (hpaced : Paced e.processor) (hpos : 1 ≤ e.maxCycles)
    (hmax : e.maxCycles ≤ largestBudget) (hcycles : e.cycles ≤ e.maxCycles)
    (hready : e.machine.Executable) :
    ∃ e', Keeps e e' ∧ (e.advance = .error (.cycleLimit e.maxCycles) e' ∧ e.maxCycles < e'.cycles ∨
      e.advance = .ok false e' ∧ e.cycles < e'.cycles ∧ e'.cycles ≤ e.maxCycles) := by
  let traced : Emulator := if e.verbose then { e with log := e.log.add e.traceLine } else e
  have htraced : Keeps e traced ∧ traced.machine = e.machine := by
    dsimp only [traced]
    split <;> exact ⟨⟨rfl, rfl, rfl⟩, rfl⟩
  let after : Emulator := { traced with machine := traced.processor traced.machine }
  have hkeeps : Keeps e after := ⟨htraced.1.processor, htraced.1.maxCycles, htraced.1.source⟩
  have hafter : after.cycles = (e.processor e.machine).cycles := by
    show (traced.processor traced.machine).cycles = _
    rw [htraced.1.processor, htraced.2]
  -- every instruction takes a cycle or more, so the budget is used up in the end
  have hgrows : e.cycles < after.cycles := by
    obtain ⟨n, hlow, hhigh, hn⟩ := hpaced e.machine hready
    rw [hafter, hn]
    simp only [Emulator.cycles, largestBudget, UInt64.le_iff_toNat_le, UInt64.lt_iff_toNat_lt,
      UInt64.toNat_add, UInt64.reduceToNat] at *
    omega
  -- a budget of zero would mean none, and it is not zero
  have hlimited : (e.maxCycles != 0) = true := bne_iff_ne.mpr (maxCycles_ne_zero hpos)
  have hadvance : e.advance =
      if after.overBudget then .error (.cycleLimit after.maxCycles) after else .ok false after := rfl
  rw [hadvance, overBudget, hkeeps.maxCycles, hlimited, Bool.true_and]
  refine ⟨after, hkeeps, ?_⟩
  split
  · next hover => exact .inl ⟨rfl, of_decide_eq_true hover⟩
  · next hover => exact .inr ⟨rfl, hgrows, UInt64.not_lt.mp fun h => hover (decide_eq_true h)⟩

/-- Every step within the budget ends the run, or uses up some of the budget and leaves
the rest. -/
theorem step_stepped {e : Emulator} (hpaced : Paced e.processor) (hpos : 1 ≤ e.maxCycles)
    (hmax : e.maxCycles ≤ largestBudget) (hcycles : e.cycles ≤ e.maxCycles) : Stepped e e.step := by
  have hsound := e.turn_sound
  have hinner := e.stepInner_eq
  unfold step
  cases hturn : e.turn with
  | ended e' =>
      rw [hturn] at hsound hinner
      rw [hinner]
      exact .ended hsound.1 hsound.2.1 hsound.2.2
  | failed err e' =>
      rw [hturn] at hsound hinner
      rw [hinner]
      dsimp only
      rw [hsound.1.locationOf]
      exact .failed hsound.1 hsound.2.2 (.inr hsound.2.1)
  | handed e' =>
      rw [hturn] at hsound hinner
      obtain ⟨hkeeps, hsame, hready⟩ := hsound
      rw [← hkeeps.maxCycles] at hpos hmax hcycles
      rw [← hkeeps.processor] at hpaced
      rw [← hsame] at hcycles
      obtain ⟨e'', hkeeps', ⟨hadvance, hover⟩ | ⟨hadvance, hgrows, hle⟩⟩ :=
        advance_cases hpaced hpos hmax hcycles hready
      · rw [hinner]
        dsimp only
        rw [hadvance]
        dsimp only
        rw [(hkeeps.trans hkeeps').locationOf]
        rw [hkeeps.maxCycles] at hover ⊢
        refine .failed (hkeeps.trans hkeeps') ?_ (.inl rfl)
        rw [← (hkeeps.trans hkeeps').maxCycles] at hover ⊢
        exact .budget hover
      · rw [hinner]
        dsimp only
        rw [hadvance]
        rw [hsame] at hgrows
        rw [hkeeps.maxCycles] at hle
        exact .further (hkeeps.trans hkeeps') hgrows hle

/-- The processor only gets documented instructions other than `BRK`. -/
theorem executable_of_handed? {e : Emulator} {m : Machine} (h : e.handed? = some m) : m.Executable := by
  have hsound := e.turn_sound
  unfold handed? at h
  split at h
  · next e' hturn =>
    rw [hturn] at hsound
    cases h
    exact hsound.2.2
  · cases h

/-! ## Runs -/

/-- The loop of a run, which has no bound of its own: how many steps there are, the
machines that the processor gets, and the outcome. -/
inductive Loop : Emulator → Nat → List Machine → EStateM.Result Error Emulator Bool → Prop
  | done {e e' : Emulator} : e.step = .ok true e' → Loop e 1 e.handed?.toList (.ok true e')
  | failed {e e' : Emulator} {err : Error} : e.step = .error err e' →
      Loop e 1 e.handed?.toList (.error err e')
  | further {e e' : Emulator} {n : Nat} {ms : List Machine} {r : EStateM.Result Error Emulator Bool} :
      e.step = .ok false e' → Loop e' n ms r → Loop e (n + 1) (e.handed?.toList ++ ms) r

theorem steps_succ (k : Nat) (e : Emulator) :
    steps (k + 1) e = match e.step with
      | .ok true e => .ok true e
      | .ok false e => steps k e
      | .error err e => .error err e := rfl

/-- As many steps as the loop has are enough. -/
theorem Loop.steps_eq {e : Emulator} {n : Nat} {ms : List Machine}
    {r : EStateM.Result Error Emulator Bool} (h : Loop e n ms r) {k : Nat} (hk : n ≤ k) :
    steps k e = r := by
  induction h generalizing k with
  | done hstep =>
      obtain ⟨k, rfl⟩ := Nat.exists_eq_succ_of_ne_zero (Nat.ne_of_gt hk)
      rw [steps_succ, hstep]
  | failed hstep =>
      obtain ⟨k, rfl⟩ := Nat.exists_eq_succ_of_ne_zero (Nat.ne_of_gt hk)
      rw [steps_succ, hstep]
  | further hstep _ ih =>
      obtain ⟨k, rfl⟩ := Nat.exists_eq_succ_of_ne_zero (Nat.ne_of_gt (Nat.zero_lt_of_lt hk))
      rw [steps_succ, hstep]
      exact ih (Nat.le_of_succ_le_succ hk)

theorem Loop.executable {e : Emulator} {n : Nat} {ms : List Machine}
    {r : EStateM.Result Error Emulator Bool} (h : Loop e n ms r) : ∀ m ∈ ms, m.Executable := by
  have hhanded : ∀ {e : Emulator}, ∀ m ∈ e.handed?.toList, m.Executable :=
    fun m hm => executable_of_handed? (Option.mem_toList.mp hm)
  induction h with
  | done => exact hhanded
  | failed => exact hhanded
  | further _ _ ih => exact List.forall_mem_append.mpr ⟨hhanded, ih⟩

/-- How a run from an emulator may end. -/
inductive Outcome (e : Emulator) : EStateM.Result Error Emulator Bool → Prop
  | done {e' : Emulator} : e'.Done → e'.cycles ≤ e.maxCycles → Outcome e (.ok true e')
  | failed {pc : UInt16} {cause : Error} {e' : Emulator} : e'.Fails cause →
      e'.maxCycles = e.maxCycles → (cause = .cycleLimit e.maxCycles ∨ e'.cycles ≤ e.maxCycles) →
      Outcome e (.error (.running pc (e.locationOf pc) cause) e')

theorem Keeps.outcome {e e' : Emulator} (h : Keeps e e') {r : EStateM.Result Error Emulator Bool}
    (hr : Outcome e' r) : Outcome e r := by
  cases hr with
  | done hdone hcycles => exact .done hdone (h.maxCycles ▸ hcycles)
  | failed hfails hmax hcause =>
      rw [h.locationOf]
      rw [h.maxCycles] at hmax hcause
      exact .failed hfails hmax hcause

/-- The loop ends with a step, or the step leaves less of the budget. -/
theorem loop_or_further {e : Emulator} (hpaced : Paced e.processor) (hpos : 1 ≤ e.maxCycles)
    (hmax : e.maxCycles ≤ largestBudget) (hcycles : e.cycles ≤ e.maxCycles) :
    (∃ ms r, Loop e 1 ms r ∧ Outcome e r) ∨
      ∃ e', e.step = .ok false e' ∧ Keeps e e' ∧ e.cycles < e'.cycles ∧ e'.cycles ≤ e.maxCycles := by
  have hstepped := step_stepped hpaced hpos hmax hcycles
  generalize hstep : e.step = r at hstepped ⊢
  cases hstepped with
  | ended hkeeps hsame hdone => exact .inl ⟨_, _, .done hstep, .done hdone (hsame ▸ hcycles)⟩
  | failed hkeeps hfails hcause =>
      refine .inl ⟨_, _, .failed hstep, .failed hfails hkeeps.maxCycles ?_⟩
      refine hcause.imp_right fun hsame => ?_
      rw [hsame]
      exact hcycles
  | further hkeeps hgrows hle => exact .inr ⟨_, rfl, hkeeps, hgrows, hle⟩

/-- The loop ends, with at most one step more than there are cycles left. -/
theorem exists_loop {left : Nat} {e : Emulator} (hpaced : Paced e.processor) (hpos : 1 ≤ e.maxCycles)
    (hmax : e.maxCycles ≤ largestBudget) (hcycles : e.cycles ≤ e.maxCycles)
    (hleft : e.maxCycles.toNat ≤ e.cycles.toNat + left) :
    ∃ n ms r, n ≤ left + 1 ∧ Loop e n ms r ∧ Outcome e r := by
  induction left generalizing e with
  | zero =>
      rcases loop_or_further hpaced hpos hmax hcycles with ⟨ms, r, hloop, hr⟩ | ⟨e', -, -, hgrows, hle⟩
      · exact ⟨1, ms, r, Nat.le_refl 1, hloop, hr⟩
      · -- no cycle is left to use up
        have hlt := UInt64.lt_iff_toNat_lt.mp hgrows
        have hle := UInt64.le_iff_toNat_le.mp hle
        omega
  | succ left ih =>
      rcases loop_or_further hpaced hpos hmax hcycles with
        ⟨ms, r, hloop, hr⟩ | ⟨e', hstep, hkeeps, hgrows, hle⟩
      · exact ⟨1, ms, r, Nat.le_add_left 1 _, hloop, hr⟩
      · have hlt := UInt64.lt_iff_toNat_lt.mp hgrows
        rw [← hkeeps.processor] at hpaced
        rw [← hkeeps.maxCycles] at hpos hmax hle hleft
        obtain ⟨n, ms, r, hn, hloop, hr⟩ := ih hpaced hpos hmax hle (by omega)
        exact ⟨n + 1, _, r, Nat.succ_le_succ hn, .further hstep hloop, hkeeps.outcome hr⟩

theorem stepBound_eq {e : Emulator} (hpos : 1 ≤ e.maxCycles) :
    e.stepBound = e.maxCycles.toNat + 1 := by
  rw [stepBound, if_neg fun h => maxCycles_ne_zero hpos (beq_iff_eq.mp h)]

/-- A run that is not cancelled. -/
theorem run_eq (start : UInt16) (e : Emulator) :
    run false start e = match steps (e.call start).stepBound (e.call start) with
      | .ok _ e => .ok () e.noteRun
      | .error err e => .error err e.noteRun := rfl

/-- A run with a budget ends after at most as many steps as there are cycles in it, and
one more.  It is done, or fails for one of four reasons; only if the reason is the budget
it has taken more cycles.  The processor has got documented instructions other than `BRK`
alone. -/
theorem run_within_budget (e : Emulator) (start : UInt16) (hpaced : Paced e.processor)
    (hpos : 1 ≤ e.maxCycles) (hmax : e.maxCycles ≤ largestBudget) :
    ∃ n ms, n ≤ e.maxCycles.toNat + 1 ∧ (∀ m ∈ ms, m.Executable) ∧
      ((∃ e', Loop (e.call start) n ms (.ok true e') ∧ run false start e = .ok () e'.noteRun ∧
          e'.Done ∧ e'.noteRun.cycles ≤ e.maxCycles) ∨
        ∃ pc cause e', Loop (e.call start) n ms (.error (.running pc (e.locationOf pc) cause) e') ∧
          run false start e = .error (.running pc (e.locationOf pc) cause) e'.noteRun ∧
          e'.Fails cause ∧ (cause = .cycleLimit e.maxCycles ∨ e'.noteRun.cycles ≤ e.maxCycles)) := by
  have hzero : (e.call start).cycles ≤ (e.call start).maxCycles := UInt64.zero_le
  obtain ⟨n, ms, r, hn, hloop, hr⟩ := exists_loop (e := e.call start) hpaced hpos hmax hzero
    (Nat.le_add_left _ _)
  have hsteps := hloop.steps_eq hn
  rw [← stepBound_eq (e := e.call start) hpos] at hsteps
  refine ⟨n, ms, hn, hloop.executable, ?_⟩
  rw [run_eq, hsteps]
  cases hr with
  | done hdone hcycles => exact .inl ⟨_, hloop, rfl, hdone, hcycles⟩
  | failed hfails _ hcause => exact .inr ⟨_, _, _, hloop, rfl, hfails, hcause⟩

/-- A program that changes its first instruction, `INC $1000`, and jumps back to it. -/
def restless : Emulator :=
  { fresh with
    machine := { memory := fresh.machine.memory.store 0x1000 [0xEE, 0x00, 0x10, 0x4C, 0x00, 0x10] }
    tape := { room := some 1 }
    maxCycles := 1000 }

theorem run_within_budget_restless :
    Paced restless.processor ∧ ∃ n ms, n ≤ 1001 ∧ (∀ m ∈ ms, m.Executable) ∧
      ((∃ e', Loop (restless.call 0x1000) n ms (.ok true e') ∧
          run false 0x1000 restless = .ok () e'.noteRun ∧ e'.Done ∧ e'.noteRun.cycles ≤ 1000) ∨
        ∃ pc cause e',
          Loop (restless.call 0x1000) n ms (.error (.running pc (restless.locationOf pc) cause) e') ∧
          run false 0x1000 restless = .error (.running pc (restless.locationOf pc) cause) e'.noteRun ∧
          e'.Fails cause ∧ (cause = .cycleLimit 1000 ∨ e'.noteRun.cycles ≤ 1000)) := by
  have hpaced : Paced restless.processor := by
    simp only [restless, fresh]
    exact paced_step
  have hbudget : restless.maxCycles = 1000 := rfl
  obtain ⟨n, ms, hn, hrun⟩ := run_within_budget restless 0x1000 hpaced (by decide) (by decide)
  rw [hbudget] at hn hrun
  exact ⟨hpaced, n, ms, hn, hrun⟩

end Emulator

end Mos6510
