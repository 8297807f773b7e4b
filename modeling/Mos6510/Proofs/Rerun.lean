import Mos6510.Proofs.Internal
import Mos6510.Proofs.Mirror

/-!
# Running a mirrored program

Numbers and locations do not matter to execution: a program does what any does
that mirrors it.  The two engines have everything in common but the state of
control, where numbers stand for their partners, and the record of locations
(`Engine.Mirrors`).

* `Op.run_mimics`: two actions that mirror each other have the same effect;
* `Code.Runs.mirrored`: so have two runs of code;
* `Assembler.runPasses_mirrored`: and so have all three passes.
-/

namespace Mos6510

open Outcome EngineM

/-! ## Engines -/

/-- What of an engine is neither state of control nor a record of locations. -/
def Engine.core (e : Engine) : Engine :=
  { e with location := {}, source := [], log := {}, jump := none, counters := #[] }

/-- Two engines that do the same under numbers that are paired. -/
structure Engine.Mirrors (ρ : Pairing) (e e' : Engine) : Prop where
  core : e.core = e'.core
  jump : (e.jump = none ∧ e'.jump = none) ∨
    ∃ j j', ρ .jump j j' ∧ e.jump = some j ∧ e'.jump = some j'
  counters : ∀ c c', ρ .counter c c' → e.counter? c = e'.counter? c'

/-- Pairs of numbers that engines can hold: each is a number of something, and
has one partner. -/
structure Pairing.Matching (ρ : Pairing) : Prop where
  functional : ρ.Functional
  injective : ∀ κ n n' m, ρ κ n m → ρ κ n' m → n = n'
  nonneg : ∀ κ n n', ρ κ n n' → 0 ≤ n ∧ 0 ≤ n'

namespace Engine.Mirrors

variable {ρ : Pairing} {e e' : Engine}

/-- What depends on the core alone is the same. -/
theorem of_congr {α : Type} {f : Engine → α} (h : Mirrors ρ e e') (hf : ∀ e : Engine, f e.core = f e) :
    f e = f e' := by
  rw [← hf e, ← hf e', h.core]

theorem stack (h : Mirrors ρ e e') : e.stack = e'.stack := h.of_congr fun _ => rfl

theorem parent (h : Mirrors ρ e e') : e.parent = e'.parent := h.of_congr fun _ => rfl

theorem regions (h : Mirrors ρ e e') : e.regions = e'.regions := h.of_congr fun _ => rfl

theorem pcAddress? (h : Mirrors ρ e e') : e.pcAddress? = e'.pcAddress? := h.of_congr fun _ => rfl

theorem core_markRead (full : String) (c : Cell) (e : Engine) :
    (e.markRead full c).core = e.core.markRead full c := by
  unfold Engine.markRead Engine.updateCell
  split
  · rfl
  · split
    · rfl
    · change Engine.core (if e.vars.contains full then _ else _) = if e.vars.contains full then _ else _
      split <;> rfl

theorem control_markRead (full : String) (c : Cell) (e : Engine) :
    (e.markRead full c).control = e.control := by
  unfold Engine.markRead Engine.updateCell
  split
  · rfl
  · split
    · rfl
    · split <;> rfl

/-- What changes the core alike keeps the rest. -/
theorem of_core (h : Mirrors ρ e e') {d d' : Engine} (hcore : d.core = d'.core)
    (hd : d.control = e.control) (hd' : d'.control = e'.control) : Mirrors ρ d d' := by
  have hjump : d.jump = e.jump := congrArg Control.jump hd
  have hjump' : d'.jump = e'.jump := congrArg Control.jump hd'
  have hcounters : d.counters = e.counters := congrArg Control.counters hd
  have hcounters' : d'.counters = e'.counters := congrArg Control.counters hd'
  refine ⟨hcore, ?_, fun c c' hc => ?_⟩
  · rw [hjump, hjump']
    exact h.jump
  · unfold Engine.counter?
    rw [hcounters, hcounters']
    exact h.counters c c' hc

end Engine.Mirrors

/-! ## The same operation, or two that mirror each other -/

/-- Where the first operation succeeds, so does the second, on a related
engine, with the same value and an engine that is still related. -/
def Mimics {α : Type} (R : Engine → Engine → Prop) (m m' : EngineM α) : Prop :=
  ∀ ⦃e e'⦄, R e e' → ∀ ⦃a d⦄, m e = .ok a d → ∃ d', m' e' = .ok a d' ∧ R d d'

namespace Mimics

variable {α β : Type} {R : Engine → Engine → Prop} {m m' : EngineM α} {f f' : α → EngineM β}

theorem pure (a : α) : Mimics R (pure a : EngineM α) (pure a) := Respects.pure a

theorem throw (err err' : Error) : Mimics R (throw err : EngineM α) (throw err') :=
  fun _ _ _ _ _ h => absurd h throw_ne_ok

theorem bind (hm : Mimics R m m') (hf : ∀ a, Mimics R (f a) (f' a)) :
    Mimics R (m >>= f) (m' >>= f') := by
  intro e e' hR b d h
  obtain ⟨a, e₁, hma, hfa⟩ := bind_eq_ok.mp h
  obtain ⟨e₁', hma', hR₁⟩ := hm hR hma
  obtain ⟨d', hfa', hR'⟩ := hf a hR₁ hfa
  exact ⟨d', bind_eq_ok.mpr ⟨a, e₁', hma', hfa'⟩, hR'⟩

theorem locating (loc loc' : Location) (hm : Mimics R m m') :
    Mimics R (EngineM.locating loc m) (EngineM.locating loc' m') := by
  intro e e' hR a d h
  obtain ⟨d', h', hR'⟩ := hm hR (locating_eq_ok.mp h)
  exact ⟨d', locating_eq_ok.mpr h', hR'⟩

end Mimics

section Elementary

variable {ρ : Pairing}

theorem push_mimics (v : Int64) : Respects (Engine.Mirrors ρ) (Engine.push v) := by
  intro e e' h u d hrun
  obtain ⟨hd, rfl⟩ := Engine.push_eq_ok.mp hrun
  rw [h.stack] at hd ⊢
  refine ⟨_, Engine.push_eq_ok.mpr ⟨hd, rfl⟩, h.of_core ?_ rfl rfl⟩
  exact congrArg (fun c : Engine => { c with stack := ⟨v :: e'.stack.values⟩ }) h.core

theorem pop_mimics : Respects (Engine.Mirrors ρ) Engine.pop := by
  intro e e' h v d hrun
  obtain ⟨rest, hs, rfl⟩ := Engine.pop_eq_ok.mp hrun
  rw [h.stack] at hs
  refine ⟨_, Engine.pop_eq_ok.mpr ⟨rest, hs, rfl⟩, h.of_core ?_ rfl rfl⟩
  exact congrArg (fun c : Engine => { c with stack := ⟨rest⟩ }) h.core

theorem peek_mimics : Respects (Engine.Mirrors ρ) Engine.peek := by
  intro e e' h v d hrun
  obtain ⟨hs, rfl⟩ := Engine.peek_eq_ok.mp hrun
  rw [h.stack] at hs
  exact ⟨e', Engine.peek_eq_ok.mpr ⟨hs, rfl⟩, h⟩

theorem popPair_mimics : Respects (Engine.Mirrors ρ) Engine.popPair := by
  intro e e' h p d hrun
  obtain ⟨rest, hs, rfl⟩ := Engine.popPair_eq_ok.mp hrun
  rw [h.stack] at hs
  refine ⟨_, Engine.popPair_eq_ok.mpr ⟨rest, hs, rfl⟩, h.of_core ?_ rfl rfl⟩
  exact congrArg (fun c : Engine => { c with stack := ⟨rest⟩ }) h.core

theorem startOperand_mimics : Respects (Engine.Mirrors ρ) Engine.startOperand := by
  intro e e' h u d hrun
  obtain rfl := Engine.startOperand_eq_ok.mp hrun
  refine ⟨_, rfl, h.of_core ?_ rfl rfl⟩
  exact congrArg (fun c : Engine => { c with unresolved := c.unresolved && !c.stack.values.isEmpty })
    h.core

theorem readSymbol_mimics (name : String) :
    Respects (Engine.Mirrors ρ) (Engine.readSymbol name) := by
  intro e e' h v d hrun
  obtain ⟨full, c, hq, hc, rfl, hset⟩ := Engine.readSymbol_eq_ok.mp hrun
  have hcell : e.cell? full = e'.cell? full := h.of_congr (f := (Engine.cell? · full)) fun _ => rfl
  have hstrict : e.strict = e'.strict := h.of_congr fun _ => rfl
  rw [h.parent] at hq
  rw [hcell] at hc
  have hmark : (e.markRead full c).core = (e'.markRead full c).core := by
    rw [Engine.Mirrors.core_markRead, Engine.Mirrors.core_markRead, h.core]
  have hcontrol := Engine.Mirrors.control_markRead full c
  rcases hset with ⟨hs, rfl⟩ | ⟨hs, ht, rfl⟩
  · refine ⟨_, Engine.readSymbol_eq_ok.mpr ⟨full, c, hq, hc, rfl, .inl ⟨hs, rfl⟩⟩, ?_⟩
    exact h.of_core hmark (hcontrol e) (hcontrol e')
  · rw [hstrict] at ht
    refine ⟨_, Engine.readSymbol_eq_ok.mpr ⟨full, c, hq, hc, rfl, .inr ⟨hs, ht, rfl⟩⟩, ?_⟩
    exact h.of_core (congrArg (fun c : Engine => { c with unresolved := true }) hmark) (hcontrol e)
      (hcontrol e')

theorem assign_mimics (name : String) (v : Int64) :
    Respects (Engine.Mirrors ρ) (Engine.assign name v) := by
  intro e e' h u d hrun
  obtain ⟨full, hq, hcase⟩ := Engine.assign_eq_ok.mp hrun
  have hvars : e.vars = e'.vars := h.of_congr fun _ => rfl
  rw [h.parent] at hq
  rcases hcase with ⟨hp, rfl⟩ | ⟨hp, hv, rfl⟩
  · refine ⟨_, Engine.assign_eq_ok.mpr ⟨full, hq, .inl ⟨hp, rfl⟩⟩, h.of_core ?_ rfl rfl⟩
    exact congrArg (fun c : Engine => { c with pc := c.pc.assign (v &&& 0xFFFF) }) h.core
  · rw [hvars] at hv
    refine ⟨_, Engine.assign_eq_ok.mpr ⟨full, hq, .inr ⟨hp, hv, rfl⟩⟩, h.of_core ?_ rfl rfl⟩
    exact congrArg (fun c : Engine => { c with vars := c.vars.update full (·.assign v) }) h.core

theorem placeLabel_mimics (name : String) (synthetic : Bool) :
    Respects (Engine.Mirrors ρ) (Engine.placeLabel name synthetic) := by
  intro e e' h u d hrun
  obtain ⟨full, a, hq, hl, ha, rfl⟩ := Engine.placeLabel_eq_ok.mp hrun
  have hlabels : e.labels = e'.labels := h.of_congr fun _ => rfl
  have haddress : e.labelAddress? synthetic = e'.labelAddress? synthetic :=
    h.of_congr (f := (Engine.labelAddress? · synthetic)) fun _ => rfl
  rw [h.parent] at hq
  rw [hlabels] at hl
  rw [haddress] at ha
  refine ⟨_, Engine.placeLabel_eq_ok.mpr ⟨full, a, hq, hl, ha, rfl⟩, h.of_core ?_ rfl rfl⟩
  exact congrArg (fun c : Engine => { c with
    labels := c.labels.update full (·.assign (Int64.ofNat a.toNat))
    parent := if isParentLabel name synthetic then full else c.parent }) h.core

theorem emit_mimics (kind : RegionKind) (v : Int64) :
    Respects (Engine.Mirrors ρ) (Engine.emit kind v) := by
  intro e e' h u d hrun
  obtain ⟨a, ha, hroom, hwrap, rfl⟩ := Engine.emit_eq_ok.mp hrun
  rw [h.pcAddress?] at ha
  rw [h.regions] at hroom
  refine ⟨_, Engine.emit_eq_ok.mpr ⟨a, ha, hroom, hwrap, rfl⟩, h.of_core ?_ rfl rfl⟩
  exact congrArg (fun c : Engine => { c with
    regions := Engine.extendRegions kind a v.toUInt64.toUInt8 c.regions
    pc := c.pc.assign (Int64.ofNat (a + 1).toNat) }) h.core

theorem report_mimics (loc loc' : Location) (level : Level) (formatted : Bool)
    (args : List Text.Template.Arg) :
    Mimics (Engine.Mirrors ρ) (Engine.report loc level formatted args)
      (Engine.report loc' level formatted args) := by
  intro e e' h u d hrun
  obtain ⟨text, ht, hl, rfl⟩ := Engine.report_eq_ok.mp hrun
  exact ⟨_, Engine.report_eq_ok.mpr ⟨text, ht, hl, rfl⟩, h.of_core h.core rfl rfl⟩

theorem emitSized_mimics (kind : RegionKind) (word : Bool) (v : Int64) :
    Respects (Engine.Mirrors ρ) (Engine.emitSized kind word v) := by
  unfold Engine.emitSized Engine.emitWord
  cases word with
  | false => exact emit_mimics kind v
  | true => exact (emit_mimics kind v).bind fun _ => emit_mimics kind _

theorem emitBytes_mimics (word : Bool) (bytes : List UInt8) :
    Respects (Engine.Mirrors ρ) (Engine.emitBytes word bytes) := by
  induction bytes with
  | nil => exact Respects.pure _
  | cons b rest ih => exact (emitSized_mimics .data word _).bind fun _ => ih

theorem emitBranch_mimics (operand : Int64) :
    Respects (Engine.Mirrors ρ) (Engine.emitBranch operand) := by
  intro e e' h u d hrun
  obtain ⟨a, ha, hcase⟩ := Engine.emitBranch_eq_ok.mp hrun
  have hknown : (e.strict || !e.unresolved) = (e'.strict || !e'.unresolved) :=
    h.of_congr (f := fun c => c.strict || !c.unresolved) fun _ => rfl
  rw [h.pcAddress?] at ha
  rw [hknown] at hcase
  rcases hcase with ⟨hc, hreach, hemit⟩ | ⟨hc, hemit⟩
  · obtain ⟨d', hemit', h'⟩ := emit_mimics .code _ h hemit
    exact ⟨d', Engine.emitBranch_eq_ok.mpr ⟨a, ha, .inl ⟨hc, hreach, hemit'⟩⟩, h'⟩
  · obtain ⟨d', hemit', h'⟩ := emit_mimics .code _ h hemit
    exact ⟨d', Engine.emitBranch_eq_ok.mpr ⟨a, ha, .inr ⟨hc, hemit'⟩⟩, h'⟩

theorem encode_mimics (op : Opcode) : Respects (Engine.Mirrors ρ) (Engine.encode op) := by
  unfold Engine.encode
  split
  · exact emit_mimics .code _
  · refine pop_mimics.bind fun operand => (emit_mimics .code _).bind fun _ => ?_
    split
    · exact emitBranch_mimics operand
    · exact emitSized_mimics .code _ operand

theorem encodeWidth_mimics (mnemonic : String) (index : Index) :
    Respects (Engine.Mirrors ρ) (Engine.encodeWidth mnemonic index) := by
  unfold Engine.encodeWidth
  refine peek_mimics.bind fun v => ?_
  dsimp only
  split
  · exact encode_mimics _
  · exact Respects.throw _

theorem applyBinary_mimics (op : BinaryOp) :
    Respects (Engine.Mirrors ρ) (Engine.applyBinary op) := by
  unfold Engine.applyBinary
  refine popPair_mimics.bind fun ⟨a, b⟩ => ?_
  dsimp only
  split
  · exact push_mimics _
  · exact Respects.throw _

end Elementary

/-! ## Jumps and counters -/

section Control

variable {ρ : Pairing} (hρ : ρ.Matching)

include hρ

theorem requestJump_mimics {j j' : Int} (hj : ρ .jump j j') :
    Mimics (Engine.Mirrors ρ) (Engine.requestJump j) (Engine.requestJump j') := by
  intro e e' h u d hrun
  obtain rfl := Engine.requestJump_eq_ok.mp hrun
  obtain ⟨hpos, hpos'⟩ := hρ.nonneg _ _ _ hj
  have hne : ∀ {i : Int}, 0 ≤ i → i ≠ noJump := fun hi => by unfold noJump; omega
  refine ⟨_, Engine.requestJump_eq_ok.mpr rfl, h.core, .inr ⟨j, j', hj, ?_, ?_⟩, h.counters⟩
  · exact if_neg (hne hpos)
  · exact if_neg (hne hpos')

omit hρ in
theorem counter_mimics {c c' : Int} (hc : ρ .counter c c') :
    Mimics (Engine.Mirrors ρ) (Engine.counter c) (Engine.counter c') := by
  intro e e' h v d hrun
  obtain ⟨hv, rfl⟩ := Engine.counter_eq_ok.mp hrun
  rw [h.counters c c' hc] at hv
  exact ⟨e', Engine.counter_eq_ok.mpr ⟨hv, rfl⟩, h⟩

theorem setCounter_mimics {c c' : Int} (hc : ρ .counter c c') (v : Int64) :
    Mimics (Engine.Mirrors ρ) (Engine.setCounter c v) (Engine.setCounter c' v) := by
  intro e e' h u d hrun
  obtain rfl := Engine.setCounter_eq_ok.mp hrun
  refine ⟨_, Engine.setCounter_eq_ok.mpr rfl, h.core, h.jump, fun b b' hb => ?_⟩
  obtain ⟨hposc, hposc'⟩ := hρ.nonneg _ _ _ hc
  obtain ⟨hposb, hposb'⟩ := hρ.nonneg _ _ _ hb
  have hvalue := h.counters b b' hb
  unfold Engine.counter? at hvalue ⊢
  rw [if_neg (by omega), if_neg (by omega)] at hvalue ⊢
  simp only [Array.getElem?_setIfInBounds]
  by_cases heq : b = c
  · subst heq
    obtain rfl := hρ.functional _ _ _ _ hb hc
    -- counters that correspond are both inside their tables or both outside
    have hsize : b.toNat < e.counters.size ↔ b'.toNat < e'.counters.size := by
      have hnone : e.counters.size ≤ b.toNat ↔ e'.counters.size ≤ b'.toNat := by
        rw [← Array.getElem?_eq_none_iff, ← Array.getElem?_eq_none_iff, hvalue]
      omega
    simp only [if_true, hsize]
  · have hne : c.toNat ≠ b.toNat := by omega
    have hne' : c'.toNat ≠ b'.toNat := by
      intro heq'
      obtain rfl : c' = b' := by omega
      exact heq (hρ.injective _ _ _ _ hb hc)
    rw [if_neg hne, if_neg hne', hvalue]

theorem loadCounter_mimics {c c' : Int} (hc : ρ .counter c c') :
    Mimics (Engine.Mirrors ρ) (Engine.loadCounter c) (Engine.loadCounter c') := by
  intro e e' h u d hrun
  obtain ⟨hsome, hset⟩ := Engine.loadCounter_eq_ok.mp hrun
  have hboth : Mimics (Engine.Mirrors ρ) (Engine.pop >>= Engine.setCounter c)
      (Engine.pop >>= Engine.setCounter c') :=
    Mimics.bind pop_mimics fun v => setCounter_mimics hρ hc v
  obtain ⟨d', hset', h'⟩ := hboth h hset
  rw [h.counters c c' hc] at hsome
  exact ⟨d', Engine.loadCounter_eq_ok.mpr ⟨hsome, hset'⟩, h'⟩

/-! ## Actions -/

omit hρ in
/-- An action without numbers does the same at another location. -/
theorem Op.run_plain_mimics {op : Op} (hop : op.isPlain = true) (loc loc' : Location) :
    Mimics (Engine.Mirrors ρ) (op.run loc) (op.run loc') := by
  cases op with
  | load v => exact startOperand_mimics.bind fun _ => push_mimics v
  | get name =>
      exact startOperand_mimics.bind fun _ => (readSymbol_mimics name).bind fun v => push_mimics v
  | set name => exact pop_mimics.bind fun v => assign_mimics name v
  | unary op => exact pop_mimics.bind fun v => push_mimics (op.apply v)
  | binary op => exact applyBinary_mimics op
  | instruction code => exact encode_mimics _
  | width mnemonic index => exact encodeWidth_mimics mnemonic index
  | data word => exact pop_mimics.bind fun v => emitSized_mimics .data word v
  | text word bytes => exact emitBytes_mimics word bytes
  | label name synthetic => exact placeLabel_mimics name synthetic
  | metaLabel | goto => exact Mimics.throw _ _
  | _ => cases hop

omit hρ in
theorem runEach_mimics {acts acts' : List Action} (hcomputes : Computes acts)
    (hops : opsOf acts = opsOf acts') :
    Mimics (Engine.Mirrors ρ) (runEach acts) (runEach acts') := by
  induction acts generalizing acts' with
  | nil =>
      obtain rfl : acts' = [] := List.map_eq_nil_iff.mp hops.symm
      exact Mimics.pure _
  | cons a acts ih =>
      obtain ⟨a', acts', rfl, hop, hops⟩ := List.map_eq_cons_iff.mp hops.symm
      obtain ⟨ha, hacts⟩ := List.forall_mem_cons.mp hcomputes
      -- the actions of an expression touch no counter, so they mirror themselves
      have hplain : a.op.isPlain = true := by
        cases hcase : a.op <;> rw [hcase] at ha <;> first | rfl | cases ha
      have hrun : Mimics (Engine.Mirrors ρ) a.run a'.run := by
        obtain ⟨loc, op, x⟩ := a
        obtain ⟨loc', op', x'⟩ := a'
        obtain rfl : op' = op := hop
        exact Op.run_plain_mimics hplain loc loc'
      rw [runEach, runEach]
      exact (hrun.locating _ _).bind fun _ => ih hacts hops.symm

omit hρ in
theorem argValues_mimics {args args' : List (List Action)} (hargs : ∀ arg ∈ args, IsMessageArg arg)
    (hops : args.map opsOf = args'.map opsOf) :
    Mimics (Engine.Mirrors ρ) (argValues args) (argValues args') := by
  induction args generalizing args' with
  | nil =>
      obtain rfl : args' = [] := List.map_eq_nil_iff.mp hops.symm
      exact Mimics.pure _
  | cons arg args ih =>
      obtain ⟨arg', args', rfl, harg', hops⟩ := List.map_eq_cons_iff.mp hops.symm
      obtain ⟨harg, hargs⟩ := List.forall_mem_cons.mp hargs
      have hrest := ih hargs hops.symm
      rcases harg with ⟨loc, s, rfl⟩ | hexpr
      · obtain ⟨⟨loc', op', x'⟩, rfl, rfl⟩ := List.map_eq_singleton_iff.mp harg'
        rw [Action.plain, argValues, argValues]
        exact hrest.bind fun _ => Mimics.pure _
      · have hcomputes := hexpr.computes
        have hcomputes' : Computes arg' := by
          intro a ha
          have hmem : a.op ∈ opsOf arg := harg' ▸ List.mem_map_of_mem ha
          obtain ⟨b, hb, hop⟩ := List.mem_map.mp hmem
          exact hop ▸ hcomputes b hb
        -- an expression is not a string, so it is run for its value
        have hcons : ∀ {arg : List Action} (rest), Computes arg → argValues (arg :: rest) =
            (runEach arg >>= fun _ => Engine.pop >>= fun v =>
              argValues rest >>= fun values => pure (.int v :: values)) := by
          intro arg rest hcomputes
          rcases argValues_cons arg rest with ⟨loc, s, x, rfl, -⟩ | ⟨-, heq⟩
          · cases hcomputes _ List.mem_cons_self
          · exact heq
        rw [hcons args hcomputes, hcons args' hcomputes']
        exact (runEach_mimics hcomputes harg'.symm).bind fun _ => Mimics.bind pop_mimics fun v =>
          hrest.bind fun _ => Mimics.pure _

/-- Two actions that mirror each other have the same effect. -/
theorem Op.run_mimics {op op' : Op} (hop : op.Mirrors ρ op')
    (hspeaks : ∀ level formatted args, op = .message level formatted args →
      ∀ arg ∈ args, IsMessageArg arg) (loc loc' : Location) :
    Mimics (Engine.Mirrors ρ) (op.run loc) (op'.run loc') := by
  cases hop with
  | plain h => exact Op.run_plain_mimics h loc loc'
  | bytes name name' bytes =>
      exact Mimics.bind pop_mimics fun length => Mimics.bind pop_mimics fun skip =>
        emitBytes_mimics false _
  | target => exact Mimics.throw _ _
  | jump h => exact requestJump_mimics hρ h
  | jumpIfFalse h =>
      refine Mimics.bind pop_mimics fun v => ?_
      split
      · exact requestJump_mimics hρ h
      · exact Mimics.pure _
  | counterSet h => exact loadCounter_mimics hρ h
  | counterTest hc hj =>
      refine (counter_mimics hc).bind fun v => ?_
      split
      · exact requestJump_mimics hρ hj
      · exact Mimics.pure _
  | counterStep hc hj =>
      exact (counter_mimics hc).bind fun v => (setCounter_mimics hρ hc _).bind fun _ =>
        requestJump_mimics hρ hj
  | @message level formatted args args' hargs =>
      have hvalues : Mimics (Engine.Mirrors ρ)
          (argValues args >>= fun values => Engine.report loc level formatted values)
          (argValues args' >>= fun values => Engine.report loc' level formatted values) :=
        (argValues_mimics (hspeaks level formatted args rfl) hargs).bind fun values =>
          report_mimics loc loc' level formatted values
      intro e e' h u d hrun
      have hfinal : e.isFinal = e'.isFinal := h.of_congr fun _ => rfl
      rcases Op.run_message_eq_ok.mp hrun with ⟨hf, rfl⟩ | ⟨hf, hrun⟩
      · rw [hfinal] at hf
        exact ⟨e', Op.run_message_eq_ok.mpr (.inl ⟨hf, rfl⟩), h⟩
      · rw [hfinal] at hf
        obtain ⟨d', hrun', h'⟩ := hvalues h hrun
        exact ⟨d', Op.run_message_eq_ok.mpr (.inr ⟨hf, hrun'⟩), h'⟩

end Control

/-! ## Code -/

/-- Two pieces of code that do the same: their actions do, what a jump leads to
does, and the counters that are used are there. -/
structure Code.Mirrors (ρ : Pairing) (code code' : Code) : Prop where
  matching : ρ.Matching
  speaks : ∀ a ∈ code.actions, a.Speaks
  actions : Mirrored ρ code.actions code'.actions
  targets : ∀ j j' k, ρ .jump j j' → code.target? j = some k →
    (∀ a ∈ k, a.Speaks) ∧ ∃ k', code'.target? j' = some k' ∧ Mirrored ρ k k'
  counters : ∀ c c', ρ .counter c c' →
    (0 ≤ c ∧ c.toNat < code.counters) ∧ 0 ≤ c' ∧ c'.toNat < code'.counters

theorem Op.Mirrors.kind_eq {ρ : Pairing} {op op' : Op} (h : op.Mirrors ρ op') :
    op.kind = op'.kind := by
  cases h <;> rfl

namespace Code

section Prepared

variable {seq seq' : List Action} {code : Code}

/-- Without their targets, two programs still mirror each other. -/
theorem strip_mirrored {ρ : Pairing} (h : Mirrored ρ seq seq') :
    Mirrored ρ (strip seq) (strip seq') := by
  induction h with
  | nil => exact .nil
  | @cons a a' seq seq' ha hseq ih =>
      have htarget : isTarget a = isTarget a' := by
        unfold isTarget
        rw [ha.kind_eq]
      rw [strip_eq_filter, strip_eq_filter] at ih ⊢
      rw [List.filter_cons, List.filter_cons, htarget]
      split
      · exact .cons ha ih
      · exact ih

/-- The targets of one program are those of the other, with what stands behind
them. -/
theorem targetMarks_mirrored {ρ : Pairing} (h : Mirrored ρ seq seq') :
    List.Forall₂ (fun m m' => ρ .jump m.1 m'.1 ∧ Mirrored ρ m.2 m'.2) (targetMarks seq)
      (targetMarks seq') := by
  induction h with
  | nil => exact .nil
  | @cons a a' seq seq' ha hseq ih =>
      obtain ⟨loc, op, x⟩ := a
      obtain ⟨loc', op', x'⟩ := a'
      cases ha with
      | target hj => exact .cons ⟨hj, strip_mirrored hseq⟩ ih
      | @plain op hop => cases op <;> first | exact ih | cases hop
      | _ => exact ih

/-- A program prepared for execution can be prepared when it is written with other
numbers and locations, and then does the same. -/
theorem ofActions_mirrored {lo hi lo' hi' : Ids} (hnumbers : Numbers lo hi seq [])
    (hnumbers' : Numbers lo' hi' seq' []) (h : Mirrored (Aligned seq seq') seq seq')
    (hspeaks : ∀ a ∈ seq, a.Speaks) (hcode : ofActions seq = .ok code) :
    ∃ code', ofActions seq' = .ok code' ∧ Mirrors (Aligned seq seq') code code' := by
  obtain ⟨hmeta, hactions, -, -⟩ := ofActions_eq_ok hcode
  obtain ⟨code', hcode'⟩ : ∃ code', ofActions seq' = .ok code' := by
    refine exists_ofActions fun a' ha' hmeta' => ?_
    obtain ⟨i, hi', rfl⟩ := List.getElem_of_mem ha'
    have hi : i < seq.length := h.length_eq ▸ hi'
    have hkind := (List.Forall₂.get h hi hi').kind_eq
    rw [List.get_eq_getElem, List.get_eq_getElem] at hkind
    unfold Op.isMeta at hmeta'
    rw [← hkind] at hmeta' ⊢
    exact beq_iff_eq.mp (hmeta _ (List.getElem_mem hi) hmeta')
  obtain ⟨-, hactions', -, -⟩ := ofActions_eq_ok hcode'
  have hnonneg : ∀ κ n n', Aligned seq seq' κ n n' → 0 ≤ n ∧ 0 ≤ n' := by
    intro κ n n' hn
    have h₁ := hnumbers.between κ n (List.mem_append_left _ hn.mem_given)
    have h₂ := hnumbers'.between κ n' (List.mem_append_left _ hn.symm.mem_given)
    omega
  refine ⟨code', hcode', ⟨?_, ?_, ?_, ?_, ?_⟩⟩
  · exact ⟨Aligned.functional hnumbers.linked, fun κ n n' m => Aligned.injective hnumbers'.linked,
      hnonneg⟩
  · intro a ha
    rw [hactions] at ha
    exact hspeaks a (mem_of_mem_strip ha)
  · rw [hactions, hactions']
    exact strip_mirrored h
  · intro j j' k hj hk
    refine ⟨fun a ha => hspeaks a (mem_of_target? hcode hk ha), ?_⟩
    -- the number was given to one target, whose counterpart has the partner
    have hgiven := hj.mem_given
    rw [← targetMarks_given] at hgiven
    obtain ⟨m, hm, rfl⟩ := List.mem_map.mp hgiven
    obtain rfl : m.2 = k := Option.some.inj ((target?_of_mark hcode hnumbers hm).symm.trans hk)
    obtain ⟨i, hi, rfl⟩ := List.getElem_of_mem hm
    have hmarks := targetMarks_mirrored h
    have hi' : i < (targetMarks seq').length := hmarks.length_eq ▸ hi
    obtain ⟨hjump, hbehind⟩ := List.Forall₂.get hmarks hi hi'
    obtain rfl := Aligned.functional hnumbers.linked _ _ _ _ hj hjump
    exact ⟨_, target?_of_mark hcode' hnumbers' (List.getElem_mem hi'), hbehind⟩
  · exact fun c c' hc => ⟨counter_of_given hcode hnumbers hc.mem_given,
      counter_of_given hcode' hnumbers' hc.symm.mem_given⟩

end Prepared

section Running

variable {ρ : Pairing} {code code' : Code} (h : Mirrors ρ code code')

include h

/-- A run of code is a run of all code that mirrors it. -/
theorem Runs.mirrored {n : Nat} {k k' : List Action} {e d e' : Engine} {vs : List Visit}
    (hrun : code.Runs n k e vs d) (hspeaks : ∀ a ∈ k, a.Speaks) (hk : Mirrored ρ k k')
    (he : Engine.Mirrors ρ e e') : ∃ vs' d', code'.Runs n k' e' vs' d' ∧ Engine.Mirrors ρ d d' := by
  -- one action in the place of the other, whatever its location and expansion
  have hstep : ∀ {a a' : Action} {e d e' : Engine}, a.Speaks → a.op.Mirrors ρ a'.op →
      Engine.Mirrors ρ e e' → a.run (e.atAction a) = .ok () d →
        ∃ d', a'.run (e'.atAction a') = .ok () d' ∧ Engine.Mirrors ρ d d' := by
    intro a a' e d e' ha hop he hrun
    obtain ⟨loc, op, x⟩ := a
    obtain ⟨loc', op', x'⟩ := a'
    rw [Action.run] at hrun ⊢
    have hat : Engine.Mirrors ρ (e.atAction ⟨loc, op, x⟩) (e'.atAction ⟨loc', op', x'⟩) :=
      he.of_core he.core rfl rfl
    exact Op.run_mimics h.matching hop ha loc loc' hat hrun
  induction hrun generalizing k' e' with
  | done =>
      cases hk
      exact ⟨_, _, .done, he⟩
  | next hrun hj _ ih =>
      obtain ⟨ha, hrest⟩ := List.forall_mem_cons.mp hspeaks
      cases hk with
      | cons hop hk =>
          obtain ⟨d', hrun', hd⟩ := hstep ha hop he hrun
          obtain ⟨vs', d'', hruns', hfinal⟩ := ih hrest hk hd
          rcases hd.jump with ⟨-, hj'⟩ | ⟨j, -, -, hsome, -⟩
          · exact ⟨_, d'', .next hrun' hj' hruns', hfinal⟩
          · rw [hj] at hsome
            cases hsome
  | @jump n a j k l e e₁ d vs hrun hj ht _ ih =>
      obtain ⟨ha, -⟩ := List.forall_mem_cons.mp hspeaks
      cases hk with
      | cons hop _ =>
          obtain ⟨d', hrun', hd⟩ := hstep ha hop he hrun
          rcases hd.jump with ⟨hnone, -⟩ | ⟨j, j', hpair, hsome, hj'⟩
          · rw [hj] at hnone
            cases hnone
          · obtain rfl := Option.some.inj (hj.symm.trans hsome)
            obtain ⟨hspeaks', k'', ht', hk'⟩ := h.targets _ _ _ hpair ht
            -- the jump is consumed in both, and the target of the one mirrors that of the other
            have hafter : Engine.Mirrors ρ e₁.afterJump d'.afterJump :=
              ⟨congrArg (fun c : Engine => { c with jumps := c.jumps + 1 }) hd.core,
                .inl ⟨rfl, rfl⟩, hd.counters⟩
            obtain ⟨vs', d'', hruns', hfinal⟩ := ih hspeaks' hk' hafter
            exact ⟨_, d'', .jump hrun' hj' ht' hruns', hfinal⟩

end Running

end Code

/-! ## Passes -/

/-- What the start of a pass leaves of an engine's core. -/
theorem Code.core_start (code : Code) (pass : Pass) (e : Engine) :
    (code.start pass e).core = (e.core.begin pass).core := by
  cases pass <;> rfl

namespace Assembler

variable {ρ : Pairing} {code code' : Code} {verbose : Bool}

/-- The layout is one of the core. -/
theorem Layout.ofEngine_core (e : Engine) : Layout.ofEngine e.core = Layout.ofEngine e := rfl

/-- A pass over code leaves what one over code that mirrors it does. -/
theorem runPass_mirrored (h : Code.Mirrors ρ code code') {pass : Pass} {e d e' : Engine}
    (he : e.core = e'.core) (hrun : runPass verbose code pass e = .ok () d) :
    ∃ d', runPass verbose code' pass e' = .ok () d' ∧ d.core = d'.core := by
  obtain ⟨vs, e₁, hpasses, rfl⟩ := runPass_eq_ok_iff.mp hrun
  have hstart : Engine.Mirrors ρ (code.start pass e) (code'.start pass e') := by
    refine ⟨by rw [code.core_start, code'.core_start, he], .inl ⟨rfl, rfl⟩, fun c c' hc => ?_⟩
    obtain ⟨⟨hpos, hlt⟩, hpos', hlt'⟩ := h.counters c c' hc
    unfold Engine.counter? Code.start
    rw [if_neg (by omega), if_neg (by omega), Array.getElem?_replicate, Array.getElem?_replicate,
      if_pos hlt, if_pos hlt']
  obtain ⟨vs', e₁', hpasses', hend⟩ := hpasses.mirrored h h.speaks h.actions hstart
  exact ⟨_, runPass_eq_ok_iff.mpr ⟨vs', e₁', hpasses', rfl⟩, hend.core⟩

/-- All passes over code leave what those over code that mirrors it do. -/
theorem runPasses_mirrored (h : Code.Mirrors ρ code code') {e d e' : Engine}
    (he : e.core = e'.core) (hrun : runPasses verbose code e = .ok () d) :
    ∃ d', runPasses verbose code' e' = .ok () d' ∧ d.core = d'.core := by
  obtain ⟨w, f, ⟨hw, hf, hn⟩, hlayout⟩ := runPasses_eq_ok_iff.mp hrun
  obtain ⟨w', hw', hcore⟩ := runPass_mirrored h he hw
  obtain ⟨f', hf', hcore'⟩ := runPass_mirrored h hcore hf
  obtain ⟨d', hd', hcore''⟩ := runPass_mirrored h hcore' hn
  refine ⟨d', runPasses_eq_ok_iff.mpr ⟨w', f', ⟨hw', hf', hd'⟩, ?_⟩, hcore''⟩
  rw [← Layout.ofEngine_core, ← hcore'', Layout.ofEngine_core, hlayout, ← Layout.ofEngine_core, hcore',
    Layout.ofEngine_core]

end Assembler

end Mos6510
