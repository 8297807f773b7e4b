import Mos6510.Engine.Run

/-!
# Success of engine operations

An operation of the engine either succeeds with a value and a new engine, or
fails.  This file says what the success of each elementary operation comes
to (`push_eq_ok`, `readSymbol_eq_ok`, `emit_eq_ok`, ...), and gives two ways
to reason about composed operations:

* `Keeps view m`: where `m` succeeds it leaves a view of the engine alone;
* `Respects R m`: where `m` succeeds on the first of two related engines, it
  succeeds on the second, and they stay related.

Actions nest only in the arguments of messages; the induction over them is
done once, in `Action.run_respects`.
-/

namespace Mos6510

variable {α β γ δ : Type}

/-! ## Composed operations -/

namespace Outcome

variable {σ : Type}

theorem ok_eq_ok {a b : α} {e e' : σ} :
    (EStateM.Result.ok a e : EStateM.Result Error σ α) = .ok b e' ↔ b = a ∧ e' = e := by
  rw [EStateM.Result.ok.injEq]
  exact ⟨fun h => ⟨h.1.symm, h.2.symm⟩, fun h => ⟨h.1.symm, h.2.symm⟩⟩

theorem done_eq_ok {u : Unit} {e e' : σ} :
    (EStateM.Result.ok () e : EStateM.Result Error σ Unit) = .ok u e' ↔ e' = e :=
  ok_eq_ok.trans ⟨fun h => h.2, fun h => ⟨rfl, h⟩⟩

theorem error_ne_ok {err : Error} {a : α} {e e' : σ} :
    (EStateM.Result.error err e : EStateM.Result Error σ α) = .ok a e' ↔ False := by
  simp

theorem pure_eq_ok {a b : α} {e e' : σ} :
    (pure a : EStateM Error σ α) e = .ok b e' ↔ b = a ∧ e' = e :=
  ok_eq_ok

/-- A composed operation succeeds where its parts do, one after the other. -/
theorem bind_eq_ok {m : EStateM Error σ α} {f : α → EStateM Error σ β} {b : β} {e e'' : σ} :
    (m >>= f) e = .ok b e'' ↔ ∃ a e', m e = .ok a e' ∧ f a e' = .ok b e'' := by
  show EStateM.bind m f e = _ ↔ _
  unfold EStateM.bind
  cases h : m e with
  | ok a e' =>
      constructor
      · intro hf
        exact ⟨a, e', rfl, hf⟩
      · rintro ⟨a', e₁, heq, hf⟩
        cases heq
        exact hf
  | error err e' => simp

theorem bind_of_ok {m : EStateM Error σ α} {f : α → EStateM Error σ β} {a : α} {e e' : σ}
    (h : m e = .ok a e') : (m >>= f) e = f a e' := by
  show EStateM.bind m f e = _
  unfold EStateM.bind
  rw [h]

/-- A composed operation fails where one of its parts does, after the success
of those before. -/
theorem bind_eq_error {m : EStateM Error σ α} {f : α → EStateM Error σ β} {err : Error}
    {e e'' : σ} : (m >>= f) e = .error err e'' ↔
      m e = .error err e'' ∨ ∃ a e', m e = .ok a e' ∧ f a e' = .error err e'' := by
  cases h : m e with
  | ok a e' =>
      rw [bind_of_ok h]
      constructor
      · intro hf
        exact .inr ⟨a, e', rfl, hf⟩
      · rintro (hnot | ⟨a', e₁, heq, hf⟩)
        · cases hnot
        · cases heq
          exact hf
  | error err' e' =>
      have hbind : (m >>= f) e = .error err' e' := by
        show EStateM.bind m f e = _
        unfold EStateM.bind
        rw [h]
      rw [hbind]
      simp

theorem throw_ne_ok {err : Error} {a : α} {e e' : σ} :
    (throw err : EStateM Error σ α) e ≠ .ok a e' := by
  intro h
  cases h

theorem get_eq_ok {e e' x : σ} : (get : EStateM Error σ σ) e = .ok x e' ↔ x = e ∧ e' = e :=
  ok_eq_ok

/-- A handler that only throws has no part in success. -/
theorem tryCatch_eq_ok {m : EStateM Error σ α} {handler : Error → EStateM Error σ α} {a : α}
    {e e' : σ} (hthrow : ∀ err e₁ b e₂, handler err e₁ ≠ .ok b e₂) :
    (tryCatch m handler : EStateM Error σ α) e = .ok a e' ↔ m e = .ok a e' := by
  show EStateM.tryCatch m handler e = _ ↔ _
  unfold EStateM.tryCatch
  cases h : m e with
  | ok b e₁ => exact Iff.rfl
  | error err e₁ =>
      constructor
      · intro hh
        exact absurd hh (hthrow err _ a e')
      · intro hh
        cases hh

/-- The same for computations without a state. -/
theorem except_bind_eq_ok {x : Except Error α} {f : α → Except Error β} {b : β} :
    (x >>= f) = .ok b ↔ ∃ a, x = .ok a ∧ f a = .ok b := by
  cases x with
  | error err =>
      constructor
      · intro h
        cases h
      · rintro ⟨a, h, -⟩
        cases h
  | ok a =>
      constructor
      · intro h
        exact ⟨a, rfl, h⟩
      · rintro ⟨a', h, hf⟩
        cases h
        exact hf

/-- Is the outcome a success with a value and a state that pass a test? -/
def isOkWith (test : α → σ → Bool) : EStateM.Result Error σ α → Bool
  | .ok a e => test a e
  | .error _ _ => false

theorem exists_of_isOkWith {test : α → σ → Bool} {r : EStateM.Result Error σ α}
    (h : isOkWith test r = true) : ∃ a e, r = .ok a e ∧ test a e = true := by
  cases r with
  | ok a e => exact ⟨a, e, rfl, h⟩
  | error err e => cases h

/-- A value that the operation gives on some state. -/
def Yields (m : EStateM Error σ α) (a : α) : Prop := ∃ e e', m e = .ok a e'

theorem Yields.bind {m : EStateM Error σ α} {f : α → EStateM Error σ β} {b : β}
    (h : Yields (m >>= f) b) : ∃ a, Yields m a ∧ Yields (f a) b := by
  obtain ⟨e, e'', h⟩ := h
  obtain ⟨a, e', hm, hf⟩ := bind_eq_ok.mp h
  exact ⟨a, ⟨e, e', hm⟩, ⟨e', e'', hf⟩⟩

theorem Yields.pure {a b : α} (h : Yields (pure a : EStateM Error σ α) b) : b = a := by
  obtain ⟨e, e', h⟩ := h
  exact (pure_eq_ok.mp h).1

theorem Yields.throw {err : Error} {a : α} (h : Yields (throw err : EStateM Error σ α) a) :
    False := by
  obtain ⟨e, e', h⟩ := h
  exact throw_ne_ok h

end Outcome

open Outcome

theorem EngineM.locating_eq_ok {loc : Location} {m : EngineM α} {a : α} {e e' : Engine} :
    locating loc m e = .ok a e' ↔ m e = .ok a e' :=
  tryCatch_eq_ok fun _ _ _ _ => throw_ne_ok

open EngineM

/-! ## Elementary operations -/

/-- An encoding is an opcode of the mode. -/
theorem Mnemonic.encoding?_eq_some {m : Mnemonic} {mode : Mode} {op : Opcode}
    (h : m.encoding? mode = some op) : Opcode.ofCode op.code = op ∧ op.mode = mode := by
  unfold Mnemonic.encoding? at h
  have hmem : op ∈ Opcode.all.filter fun op => op.mnemonic == m && op.mode == mode := by
    rcases Option.or_eq_some_iff.mp h with hfind | ⟨-, hhead⟩
    · exact List.mem_of_find?_eq_some hfind
    · exact List.mem_of_head? hhead
  obtain ⟨hall, hfits⟩ := List.mem_filter.mp hmem
  obtain ⟨n, -, rfl⟩ := List.mem_map.mp hall
  simp only [Bool.and_eq_true, beq_iff_eq] at hfits
  exact ⟨rfl, hfits.2⟩

namespace Engine

/-- Whether the engine is strict depends on the pass. -/
theorem strict_of_pass_eq {e e' : Engine} (h : e'.pass = e.pass) : e'.strict = e.strict := by
  unfold strict
  rw [h]

theorem strict_of_final {e : Engine} (h : e.pass = .final) : e.strict = true := by
  unfold strict
  rw [h]
  rfl

theorem push_eq_ok {v : Int64} {u : Unit} {e e' : Engine} :
    push v e = .ok u e' ↔
      e.stack.depth ≠ Stack.limit ∧ e' = { e with stack := ⟨v :: e.stack.values⟩ } := by
  unfold push Stack.push
  by_cases h : e.stack.depth = Stack.limit
  · simp [h]
  · simp [h, done_eq_ok, -EStateM.Result.ok.injEq]

theorem pop_eq_ok {v : Int64} {e e' : Engine} :
    pop e = .ok v e' ↔
      ∃ rest, e.stack.values = v :: rest ∧ e' = { e with stack := ⟨rest⟩ } := by
  unfold pop Stack.pop
  cases h : e.stack.values with
  | nil => simp
  | cons w rest =>
      simp only [EStateM.Result.ok.injEq, List.cons.injEq]
      constructor
      · rintro ⟨rfl, rfl⟩
        exact ⟨rest, ⟨rfl, rfl⟩, rfl⟩
      · rintro ⟨_, ⟨rfl, rfl⟩, rfl⟩
        exact ⟨rfl, rfl⟩

theorem peek_eq_ok {v : Int64} {e e' : Engine} :
    peek e = .ok v e' ↔ (∃ rest, e.stack.values = v :: rest) ∧ e' = e := by
  unfold peek Stack.peek
  cases h : e.stack.values with
  | nil => simp
  | cons w rest =>
      simp only [ok_eq_ok, List.cons.injEq]
      constructor
      · rintro ⟨rfl, rfl⟩
        exact ⟨⟨rest, rfl, rfl⟩, rfl⟩
      · rintro ⟨⟨_, rfl, _⟩, rfl⟩
        exact ⟨rfl, rfl⟩

theorem popPair_eq_ok {p : Int64 × Int64} {e e' : Engine} :
    popPair e = .ok p e' ↔
      ∃ rest, e.stack.values = p.2 :: p.1 :: rest ∧ e' = { e with stack := ⟨rest⟩ } := by
  obtain ⟨a, b⟩ := p
  unfold popPair Stack.popPair
  match h : e.stack.values with
  | [] => simp
  | [w] => simp
  | y :: x :: rest =>
      simp only [EStateM.Result.ok.injEq, Prod.mk.injEq, List.cons.injEq]
      constructor
      · rintro ⟨⟨rfl, rfl⟩, rfl⟩
        exact ⟨rest, ⟨rfl, rfl, rfl⟩, rfl⟩
      · rintro ⟨_, ⟨rfl, rfl, rfl⟩, rfl⟩
        exact ⟨⟨rfl, rfl⟩, rfl⟩

theorem startOperand_eq_ok {u : Unit} {e e' : Engine} :
    startOperand e = .ok u e' ↔
      e' = { e with unresolved := e.unresolved && !e.stack.values.isEmpty } := by
  unfold startOperand
  exact done_eq_ok

/-- A read finds a cell, which has a value unless the pass is not strict. -/
theorem readSymbol_eq_ok {name : String} {v : Int64} {e e' : Engine} :
    readSymbol name e = .ok v e' ↔
      ∃ full c, qualify name e.parent = .ok full ∧ e.cell? full = some c ∧ v = c.value ∧
        ((c.isSet = true ∧ e' = e.markRead full c) ∨
          (c.isSet = false ∧ e.strict = false ∧
            e' = { e.markRead full c with unresolved := true })) := by
  unfold readSymbol
  cases hq : qualify name e.parent with
  | error err => simp
  | ok full =>
      cases hc : e.cell? full with
      | none => simp [hc]
      | some c =>
          cases hs : c.isSet <;> cases ht : e.strict <;>
            simp [hc, hs, ok_eq_ok, error_ne_ok, -EStateM.Result.ok.injEq]

/-- An assignment goes to the program counter or to a declared variable. -/
theorem assign_eq_ok {name : String} {v : Int64} {u : Unit} {e e' : Engine} :
    assign name v e = .ok u e' ↔
      ∃ full, qualify name e.parent = .ok full ∧
        ((full = pcName ∧ e' = { e with pc := e.pc.assign (v &&& 0xFFFF) }) ∨
          (full ≠ pcName ∧ e.vars.contains full = true ∧
            e' = { e with vars := e.vars.update full (·.assign v) })) := by
  unfold assign
  cases hq : qualify name e.parent with
  | error err => simp
  | ok full =>
      by_cases hp : full = pcName
      · simp [hp, done_eq_ok, -EStateM.Result.ok.injEq]
      · cases hv : e.vars.contains full <;>
          simp [hp, hv, done_eq_ok, -EStateM.Result.ok.injEq]

/-- The engine after a label was placed. -/
def placed (e : Engine) (name : String) (synthetic : Bool) (full : String) (a : UInt16) :
    Engine :=
  { e with
    labels := e.labels.update full (·.assign (Int64.ofNat a.toNat))
    parent := if isParentLabel name synthetic then full else e.parent
    log := e.log.addIf (e.verbose && e.isFinal)
      (e.location.render ++ ": " ++ full ++ " = $" ++ Text.hex 4 a.toNat) }

theorem placeLabel_eq_ok {name : String} {synthetic : Bool} {u : Unit} {e e' : Engine} :
    placeLabel name synthetic e = .ok u e' ↔
      ∃ full a, qualify name e.parent = .ok full ∧ e.labels.contains full = true ∧
        e.labelAddress? synthetic = some a ∧ e' = e.placed name synthetic full a := by
  unfold placeLabel placed
  cases hq : qualify name e.parent with
  | error err => simp
  | ok full =>
      cases hl : e.labels.contains full with
      | false => simp [hl]
      | true =>
          cases ha : e.labelAddress? synthetic <;>
            simp [hl, done_eq_ok, -EStateM.Result.ok.injEq]

/-- The engine after a byte was emitted. -/
def emitted (e : Engine) (kind : RegionKind) (a : UInt16) (b : UInt8) : Engine :=
  { e with
    regions := extendRegions kind a b e.regions
    source := if e.isFinal then (a, e.location) :: e.source else e.source
    pc := e.pc.assign (Int64.ofNat (a + 1).toNat) }

/-- A byte goes to the program counter, which must not wrap. -/
theorem emit_eq_ok {kind : RegionKind} {v : Int64} {u : Unit} {e e' : Engine} :
    emit kind v e = .ok u e' ↔
      ∃ a, e.pcAddress? = some a ∧ noRoom kind a e.regions = false ∧ a + 1 ≠ 0 ∧
        e' = e.emitted kind a v.toUInt64.toUInt8 := by
  unfold emit emitted
  cases hp : e.pcAddress? with
  | none => simp
  | some a =>
      cases hr : noRoom kind a e.regions with
      | true => simp [hr]
      | false =>
          by_cases hw : a + 1 = 0 <;> by_cases hf : e.pass = .final <;>
            simp [hr, hw, hf, advancePc, isFinal, done_eq_ok, -EStateM.Result.ok.injEq]

theorem pcAddress_eq_ok {a : UInt16} {e e' : Engine} :
    pcAddress e = .ok a e' ↔ e.pcAddress? = some a ∧ e' = e := by
  unfold pcAddress
  cases hp : e.pcAddress? with
  | none => simp
  | some b => simp [ok_eq_ok, eq_comm (a := b), -EStateM.Result.ok.injEq]

/-- Is a distance within the reach of a branch? -/
def inReach (d : Int64) : Prop := ¬(d < -128 || 127 < d) = true

/-- A branch has to reach its operand, unless that is not known yet. -/
theorem emitBranch_eq_ok {operand : Int64} {u : Unit} {e e' : Engine} :
    emitBranch operand e = .ok u e' ↔
      ∃ a, e.pcAddress? = some a ∧
        (((e.strict || !e.unresolved) = true ∧ inReach (branchDistance operand a) ∧
            emit .code (branchDistance operand a) e = .ok u e') ∨
          ((e.strict || !e.unresolved) = false ∧ emit .code 0 e = .ok u e')) := by
  unfold emitBranch inReach
  rw [bind_eq_ok]
  constructor
  · rintro ⟨a, e₁, ha, h⟩
    obtain ⟨ha, rfl⟩ := pcAddress_eq_ok.mp ha
    obtain ⟨x, e₂, hget, h'⟩ := bind_eq_ok.mp h
    obtain ⟨rfl, rfl⟩ := get_eq_ok.mp hget
    refine ⟨a, ha, ?_⟩
    cases hc : e₂.strict || !e₂.unresolved with
    | false =>
        rw [hc] at h'
        exact .inr ⟨rfl, h'⟩
    | true =>
        rw [hc, if_pos rfl] at h'
        split at h'
        · exact absurd h' throw_ne_ok
        · exact .inl ⟨rfl, ‹_›, h'⟩
  · rintro ⟨a, ha, h⟩
    refine ⟨a, e, pcAddress_eq_ok.mpr ⟨ha, rfl⟩, bind_eq_ok.mpr ⟨e, e, rfl, ?_⟩⟩
    rcases h with ⟨hc, hreach, h⟩ | ⟨hc, h⟩
    · rw [hc, if_pos rfl]
      rw [if_neg hreach]
      exact h
    · rw [hc]
      exact h

theorem requestJump_eq_ok {j : Int} {u : Unit} {e e' : Engine} :
    requestJump j e = .ok u e' ↔ e' = { e with jump := if j = noJump then none else some j } := by
  unfold requestJump
  exact done_eq_ok

theorem counter_eq_ok {c : Int} {v : Int64} {e e' : Engine} :
    counter c e = .ok v e' ↔ e.counter? c = some v ∧ e' = e := by
  unfold counter
  cases hc : e.counter? c with
  | none => simp
  | some w => simp [ok_eq_ok, eq_comm (a := w), -EStateM.Result.ok.injEq]

theorem setCounter_eq_ok {c : Int} {v : Int64} {u : Unit} {e e' : Engine} :
    setCounter c v e = .ok u e' ↔
      e' = { e with counters := e.counters.setIfInBounds c.toNat v } := by
  unfold setCounter
  exact done_eq_ok

/-- Loading a counter pops its value. -/
theorem loadCounter_eq_ok {c : Int} {u : Unit} {e e' : Engine} :
    loadCounter c e = .ok u e' ↔
      (e.counter? c).isSome = true ∧ (pop >>= setCounter c) e = .ok u e' := by
  unfold loadCounter
  rw [bind_eq_ok]
  constructor
  · rintro ⟨v, e₁, hc, ht⟩
    obtain ⟨hc, rfl⟩ := counter_eq_ok.mp hc
    rw [tryCatch_eq_ok (fun err e₁ b e₂ => by
      rw [Ne, bind_eq_ok]
      rintro ⟨_, _, _, hthrow⟩
      exact throw_ne_ok hthrow)] at ht
    exact ⟨by rw [hc]; rfl, ht⟩
  · rintro ⟨hc, ht⟩
    obtain ⟨v, hv⟩ := Option.isSome_iff_exists.mp hc
    refine ⟨v, e, counter_eq_ok.mpr ⟨hv, rfl⟩, ?_⟩
    rw [tryCatch_eq_ok (fun err e₁ b e₂ => by
      rw [Ne, bind_eq_ok]
      rintro ⟨_, _, _, hthrow⟩
      exact throw_ne_ok hthrow)]
    exact ht

/-- An infix operator takes its right operand from the top. -/
theorem applyBinary_eq_ok {op : BinaryOp} {u : Unit} {e e' : Engine} :
    applyBinary op e = .ok u e' ↔
      ∃ a b v rest, e.stack.values = b :: a :: rest ∧ op.value? a b = some v ∧
        push v { e with stack := ⟨rest⟩ } = .ok u e' := by
  unfold applyBinary
  rw [bind_eq_ok]
  constructor
  · rintro ⟨⟨a, b⟩, e₁, hpop, h⟩
    obtain ⟨rest, hs, rfl⟩ := popPair_eq_ok.mp hpop
    cases hv : op.value? a b with
    | some v =>
        simp only [hv] at h
        exact ⟨a, b, v, rest, hs, hv, h⟩
    | none =>
        simp only [hv] at h
        exact absurd h throw_ne_ok
  · rintro ⟨a, b, v, rest, hs, hv, h⟩
    refine ⟨(a, b), _, popPair_eq_ok.mpr ⟨rest, hs, rfl⟩, ?_⟩
    dsimp only
    rw [hv]
    exact h

/-- The value on top chooses the mode, then the instruction is encoded. -/
theorem encodeWidth_eq_ok {mnemonic : String} {index : Index} {u : Unit} {e e' : Engine} :
    encodeWidth mnemonic index e = .ok u e' ↔
      ∃ v rest op, e.stack.values = v :: rest ∧
        ((Mnemonic.ofName? mnemonic).bind fun m =>
          m.encoding? (directMode index (decide (v &&& 0xFFFF < 256)))) = some op ∧
        encode op e = .ok u e' := by
  unfold encodeWidth
  rw [bind_eq_ok]
  constructor
  · rintro ⟨v, e₁, hpeek, h⟩
    obtain ⟨⟨rest, hs⟩, rfl⟩ := peek_eq_ok.mp hpeek
    cases hop : (Mnemonic.ofName? mnemonic).bind fun m =>
        m.encoding? (directMode index (decide (v &&& 0xFFFF < 256))) with
    | some op =>
        simp only [hop] at h
        exact ⟨v, rest, op, hs, hop, h⟩
    | none =>
        simp only [hop] at h
        exact absurd h throw_ne_ok
  · rintro ⟨v, rest, op, hs, hop, h⟩
    refine ⟨v, e, peek_eq_ok.mpr ⟨⟨rest, hs⟩, rfl⟩, ?_⟩
    simp only [hop]
    exact h

theorem report_eq_ok {loc : Location} {level : Level} {formatted : Bool}
    {args : List Text.Template.Arg} {u : Unit} {e e' : Engine} :
    report loc level formatted args e = .ok u e' ↔
      ∃ text, messageText formatted args = .ok text ∧ level ≠ .error ∧
        e' = { e with log := e.log.add (loc.render ++ ": " ++ level.name ++ ": " ++ text) } := by
  unfold report
  cases ht : messageText formatted args with
  | error err => simp
  | ok text =>
      by_cases hl : level = .error
      · simp [hl]
      · simp [hl, done_eq_ok, -EStateM.Result.ok.injEq]

end Engine

/-! ## What an operation leaves alone -/

/-- Where the operation succeeds it leaves a view of the engine as it was. -/
def Keeps (view : Engine → γ) (m : EngineM α) : Prop :=
  ∀ ⦃e a e'⦄, m e = .ok a e' → view e' = view e

namespace Keeps

variable {view : Engine → γ} {m : EngineM α} {f : α → EngineM β}

theorem pure (a : α) : Keeps view (pure a : EngineM α) := by
  intro e b e' h
  rw [(pure_eq_ok.mp h).2]

theorem throw (err : Error) : Keeps view (throw err : EngineM α) := by
  intro e a e' h
  exact absurd h throw_ne_ok

theorem bind (hm : Keeps view m) (hf : ∀ a, Keeps view (f a)) : Keeps view (m >>= f) := by
  intro e b e'' h
  obtain ⟨a, e', hma, hfa⟩ := bind_eq_ok.mp h
  rw [hf a hfa, hm hma]

end Keeps

/-- A view that shows neither the stack nor what steers execution. -/
structure Disregards (view : Engine → γ) : Prop where
  stack : ∀ e s, view { e with stack := s } = view e
  jump : ∀ e j, view { e with jump := j } = view e
  counters : ∀ e cs, view { e with counters := cs } = view e

/-- A view that does not show the log either. -/
structure Overlooks (view : Engine → γ) : Prop extends Disregards view where
  log : ∀ e l, view { e with log := l } = view e

theorem counter_keeps {view : Engine → γ} (c : Int) : Keeps view (Engine.counter c) := by
  intro e v e' h
  rw [(Engine.counter_eq_ok.mp h).2]

theorem startOperand_keeps {view : Engine → γ}
    (hview : ∀ e b, view { e with unresolved := b } = view e) :
    Keeps view Engine.startOperand := by
  intro e u e' h
  obtain rfl := Engine.startOperand_eq_ok.mp h
  exact hview e _

namespace Disregards

variable {view : Engine → γ} (hview : Disregards view)

include hview

theorem push (v : Int64) : Keeps view (Engine.push v) := by
  intro e u e' h
  obtain ⟨-, rfl⟩ := Engine.push_eq_ok.mp h
  exact hview.stack e _

theorem pop : Keeps view Engine.pop := by
  intro e v e' h
  obtain ⟨rest, -, rfl⟩ := Engine.pop_eq_ok.mp h
  exact hview.stack e _

theorem applyBinary (op : BinaryOp) : Keeps view (Engine.applyBinary op) := by
  intro e u e' h
  obtain ⟨a, b, v, rest, -, -, hpush⟩ := Engine.applyBinary_eq_ok.mp h
  rw [hview.push v hpush, hview.stack]

theorem requestJump (j : Int) : Keeps view (Engine.requestJump j) := by
  intro e u e' h
  obtain rfl := Engine.requestJump_eq_ok.mp h
  exact hview.jump e _

/-- A jump that is asked for on a condition. -/
theorem requestJump_if (j : Int) (p : Prop) [Decidable p] :
    Keeps view (if p then Engine.requestJump j else Pure.pure ()) := by
  split
  · exact hview.requestJump j
  · exact Keeps.pure _

theorem setCounter (c : Int) (v : Int64) : Keeps view (Engine.setCounter c v) := by
  intro e u e' h
  obtain rfl := Engine.setCounter_eq_ok.mp h
  exact hview.counters e _

theorem loadCounter (c : Int) : Keeps view (Engine.loadCounter c) := by
  intro e u e' h
  exact (hview.pop.bind fun v => hview.setCounter c v) (Engine.loadCounter_eq_ok.mp h).2

end Disregards

theorem Overlooks.report {view : Engine → γ} (hview : Overlooks view) (loc : Location)
    (level : Level) (formatted : Bool) (args : List Text.Template.Arg) :
    Keeps view (Engine.report loc level formatted args) := by
  intro e u e' h
  obtain ⟨text, -, -, rfl⟩ := Engine.report_eq_ok.mp h
  exact hview.log e _

/-! What a byte leaves alone, several bytes do. -/

section Emission

variable {view : Engine → γ} {kind : RegionKind}

theorem emitSized_keeps (hemit : ∀ v, Keeps view (Engine.emit kind v)) (word : Bool) (v : Int64) :
    Keeps view (Engine.emitSized kind word v) := by
  unfold Engine.emitSized Engine.emitWord
  cases word with
  | false => exact hemit v
  | true => exact (hemit v).bind fun _ => hemit _

theorem emitBytes_keeps (hemit : ∀ v, Keeps view (Engine.emit .data v)) (word : Bool)
    (bytes : List UInt8) : Keeps view (Engine.emitBytes word bytes) := by
  induction bytes with
  | nil => exact Keeps.pure _
  | cons b rest ih => exact (emitSized_keeps hemit word _).bind fun _ => ih

theorem emitBranch_keeps (hemit : ∀ v, Keeps view (Engine.emit .code v)) (operand : Int64) :
    Keeps view (Engine.emitBranch operand) := by
  intro e u e' h
  obtain ⟨a, -, ⟨-, -, hrun⟩ | ⟨-, hrun⟩⟩ := Engine.emitBranch_eq_ok.mp h
  · exact hemit _ hrun
  · exact hemit _ hrun

/-- What follows the pop of an operand in an instruction. -/
theorem emitOperand_keeps (hemit : ∀ v, Keeps view (Engine.emit .code v)) (op : Opcode)
    (operand : Int64) :
    Keeps view (do
      Engine.emit .code (Int64.ofNat op.code.toNat)
      if op.mode == .relative then Engine.emitBranch operand
      else Engine.emitSized .code (op.mode.size == 2) operand) := by
  refine (hemit _).bind fun _ => ?_
  split
  · exact emitBranch_keeps hemit operand
  · exact emitSized_keeps hemit _ operand

theorem encode_keeps (hpop : Keeps view Engine.pop) (hemit : ∀ v, Keeps view (Engine.emit .code v))
    (op : Opcode) : Keeps view (Engine.encode op) := by
  unfold Engine.encode
  split
  · exact hemit _
  · exact hpop.bind fun operand => emitOperand_keeps hemit op operand

theorem encodeWidth_keeps (hpop : Keeps view Engine.pop)
    (hemit : ∀ v, Keeps view (Engine.emit .code v)) (mnemonic : String) (index : Index) :
    Keeps view (Engine.encodeWidth mnemonic index) := by
  intro e u e' h
  obtain ⟨v, rest, op, -, -, hencode⟩ := Engine.encodeWidth_eq_ok.mp h
  exact encode_keeps hpop hemit op hencode

end Emission

/-! ## The same operation on two engines -/

/-- Where the operation succeeds on the first of two related engines, it
succeeds on the second with the same value, and the engines stay related. -/
def Respects (R : Engine → Engine → Prop) (m : EngineM α) : Prop :=
  ∀ ⦃e₁ e₂⦄, R e₁ e₂ → ∀ ⦃a e₁'⦄, m e₁ = .ok a e₁' → ∃ e₂', m e₂ = .ok a e₂' ∧ R e₁' e₂'

namespace Respects

variable {R : Engine → Engine → Prop} {m : EngineM α} {f : α → EngineM β}

theorem pure (a : α) : Respects R (pure a : EngineM α) := by
  intro e₁ e₂ hR b e₁' h
  obtain ⟨rfl, rfl⟩ := pure_eq_ok.mp h
  exact ⟨e₂, rfl, hR⟩

theorem throw (err : Error) : Respects R (throw err : EngineM α) := by
  intro e₁ e₂ _ a e₁' h
  exact absurd h throw_ne_ok

theorem bind (hm : Respects R m) (hf : ∀ a, Respects R (f a)) : Respects R (m >>= f) := by
  intro e₁ e₂ hR b e₁'' h
  obtain ⟨a, e₁', hma, hfa⟩ := bind_eq_ok.mp h
  obtain ⟨e₂', hma₂, hR'⟩ := hm hR hma
  obtain ⟨e₂'', hfa₂, hR''⟩ := hf a hR' hfa
  exact ⟨e₂'', bind_eq_ok.mpr ⟨a, e₂', hma₂, hfa₂⟩, hR''⟩

theorem locating (loc : Location) (hm : Respects R m) : Respects R (EngineM.locating loc m) := by
  intro e₁ e₂ hR a e₁' h
  obtain ⟨e₂', h₂, hR'⟩ := hm hR (locating_eq_ok.mp h)
  exact ⟨e₂', locating_eq_ok.mpr h₂, hR'⟩

end Respects

/-! ## Actions -/

/-- Does the action show a message? -/
def Op.isMessage : Op → Bool
  | .message _ _ _ => true
  | _ => false

/-- A meta action has no effect: to run one is an error. -/
theorem Op.run_of_isMeta {op : Op} (hmeta : op.isMeta = true) (loc : Location) :
    op.run loc = throw (.metaExecuted op.kind) := by
  cases op with
  | target => rfl
  | string => rfl
  | defineMacro => rfl
  | callMacro => rfl
  | metaLabel => rfl
  | goto => rfl
  | includeSource => rfl
  | includeBinary => rfl
  | _ => cases hmeta

/-- Does the action only move values, jumps and bytes of data? -/
def Op.isRoutine : Op → Bool
  | .load _ | .get _ | .set _ | .label _ _ => false
  | .instruction _ | .width _ _ | .message _ _ _ => false
  | _ => true

/-- Does the action store data? -/
def Op.isData : Op → Bool
  | data _ => true
  | text _ _ => true
  | bytes _ _ => true
  | _ => false

/-- Such actions keep what does not show the stack; if they store data, what
does not show that either. -/
theorem Op.run_routine {view : Engine → γ} (hview : Disregards view) (op : Op)
    (hdata : op.isData = true → ∀ v, Keeps view (Engine.emit .data v)) (loc : Location)
    (hroutine : op.isRoutine = true) : Keeps view (op.run loc) := by
  cases hmeta : op.isMeta with
  | true =>
      rw [Op.run_of_isMeta hmeta]
      exact Keeps.throw _
  | false =>
      cases op with
      | unary op => exact hview.pop.bind fun v => hview.push (op.apply v)
      | binary op => exact hview.applyBinary op
      | data word => exact hview.pop.bind fun v => emitSized_keeps (hdata rfl) word v
      | text word bytes => exact emitBytes_keeps (hdata rfl) word bytes
      | bytes name bytes =>
          exact hview.pop.bind fun length => hview.pop.bind fun skip =>
            emitBytes_keeps (hdata rfl) false _
      | jump j => exact hview.requestJump j
      | jumpIfFalse j => exact hview.pop.bind fun v => hview.requestJump_if j _
      | counterSet c => exact hview.loadCounter c
      | counterTest c j => exact (counter_keeps c).bind fun v => hview.requestJump_if j _
      | counterStep c j =>
          exact (counter_keeps c).bind fun v => (hview.setCounter c _).bind fun _ =>
            hview.requestJump j
      | load => cases hroutine
      | get => cases hroutine
      | set => cases hroutine
      | label => cases hroutine
      | instruction => cases hroutine
      | width => cases hroutine
      | message => cases hroutine
      | _ => cases hmeta

/-- A message does nothing before the final pass. -/
theorem Op.run_message_eq_ok {level : Level} {formatted : Bool} {args : List (List Action)}
    {loc : Location} {u : Unit} {e e' : Engine} :
    (Op.message level formatted args).run loc e = .ok u e' ↔
      (e.isFinal = false ∧ e' = e) ∨
        (e.isFinal = true ∧
          (argValues args >>= Engine.report loc level formatted) e = .ok u e') := by
  rw [Op.run, bind_eq_ok]
  cases hf : e.isFinal with
  | false =>
      constructor
      · rintro ⟨x, e₁, hget, hrest⟩
        obtain ⟨rfl, rfl⟩ := get_eq_ok.mp hget
        rw [hf] at hrest
        exact .inl ⟨rfl, (pure_eq_ok.mp hrest).2⟩
      · rintro (⟨_, rfl⟩ | ⟨h, _⟩)
        · exact ⟨e', e', rfl, by rw [hf]; rfl⟩
        · cases h
  | true =>
      constructor
      · rintro ⟨x, e₁, hget, hrest⟩
        obtain ⟨rfl, rfl⟩ := get_eq_ok.mp hget
        rw [hf] at hrest
        exact .inr ⟨rfl, hrest⟩
      · rintro (⟨h, _⟩ | ⟨_, hrest⟩)
        · cases h
        · exact ⟨e, e, rfl, by rw [hf]; exact hrest⟩

/-- An argument of a message is a text, or else an expression. -/
theorem argValues_cons (expr : List Action) (rest : List (List Action)) :
    (∃ loc s x, expr = [⟨loc, .string s, x⟩] ∧
      argValues (expr :: rest) = (argValues rest >>= fun values => pure (.text s :: values))) ∨
    ((∀ loc s x, expr ≠ [⟨loc, .string s, x⟩]) ∧
      argValues (expr :: rest) =
        (runEach expr >>= fun _ => Engine.pop >>= fun v =>
          argValues rest >>= fun values => pure (.int v :: values))) := by
  by_cases h : ∃ loc s x, expr = [⟨loc, .string s, x⟩]
  · obtain ⟨loc, s, x, rfl⟩ := h
    exact .inl ⟨loc, s, x, rfl, by rw [argValues]⟩
  · have hne : ∀ loc s x, expr ≠ [⟨loc, .string s, x⟩] :=
      fun loc s x heq => h ⟨loc, s, x, heq⟩
    refine .inr ⟨hne, ?_⟩
    rw [argValues]
    exact fun loc s x heq => hne loc s x heq

/-- A relation that the actions other than messages respect, and that messages
cannot tell apart. -/
structure Respectful (R : Engine → Engine → Prop) : Prop where
  op : ∀ (op : Op) (loc : Location), op.isMessage = false → Respects R (op.run loc)
  pop : Respects R Engine.pop
  report : ∀ loc level formatted args, Respects R (Engine.report loc level formatted args)
  isFinal : ∀ e₁ e₂, R e₁ e₂ → e₁.isFinal = e₂.isFinal

mutual

/-- All actions respect such a relation, whatever messages evaluate. -/
theorem Action.run_respects {R : Engine → Engine → Prop} (hR : Respectful R) :
    ∀ a : Action, Respects R a.run
  | ⟨loc, op, _⟩ => by
      rw [Action.run]
      cases op with
      | message level formatted args =>
          have hargs := (argValues_respects hR args).bind fun values =>
            hR.report loc level formatted values
          intro e₁ e₂ h₁₂ u e₁' h
          rcases Op.run_message_eq_ok.mp h with ⟨hf, rfl⟩ | ⟨hf, h⟩
          · rw [hR.isFinal _ _ h₁₂] at hf
            exact ⟨e₂, Op.run_message_eq_ok.mpr (.inl ⟨hf, rfl⟩), h₁₂⟩
          · rw [hR.isFinal _ _ h₁₂] at hf
            obtain ⟨e₂', h₂, h₁₂'⟩ := hargs h₁₂ h
            exact ⟨e₂', Op.run_message_eq_ok.mpr (.inr ⟨hf, h₂⟩), h₁₂'⟩
      | _ => exact hR.op _ loc rfl

theorem argValues_respects {R : Engine → Engine → Prop} (hR : Respectful R) :
    ∀ args : List (List Action), Respects R (argValues args)
  | [] => by
      rw [argValues]
      exact Respects.pure _
  | expr :: rest => by
      have hexpr := runEach_respects hR expr
      have hrest := argValues_respects hR rest
      rcases argValues_cons expr rest with ⟨_, s, _, _, heq⟩ | ⟨_, heq⟩
      · rw [heq]
        exact hrest.bind fun _ => Respects.pure _
      · rw [heq]
        exact hexpr.bind fun _ => hR.pop.bind fun _ => hrest.bind fun _ => Respects.pure _

theorem runEach_respects {R : Engine → Engine → Prop} (hR : Respectful R) :
    ∀ acts : List Action, Respects R (runEach acts)
  | [] => by
      rw [runEach]
      exact Respects.pure _
  | a :: rest => by
      rw [runEach]
      exact ((Action.run_respects hR a).locating _).bind fun _ => runEach_respects hR rest

end

end Mos6510
