import Mos6510.Proofs.Scope
import Mos6510.Proofs.Stages

/-!
# Where unset symbols flow

The warm-up pass reads symbols that have no value yet.  `Op.marks` follows
such a read through the stack: a value is marked if it was computed from one.
A pass is clean (`clean`) if no marked value steers it, that is, if none is
assigned, chooses a width, decides a jump, counts a loop or selects bytes.

Two engines that execute the same actions stay abreast (`Engine.Abreast`) as
long as they agree on what is not marked: every action that no marked value
steers keeps them so (`Op.run_abreast`), whatever is known of their symbols.

After a clean warm-up the first pass goes the same way (`Engine.Tracks`).  The
two lay out the same regions and agree on all symbols, while the bytes may
differ.
-/

namespace Mos6510

open Outcome

/-! ## Marks -/

/-- Would a read of the name meet a symbol without a value? -/
def Engine.isUnset (e : Engine) (name : String) : Bool :=
  match qualify name e.parent with
  | .ok full => (e.cell? full).any fun c => !c.isSet
  | .error _ => false

namespace Op

/-- The marks of the stack after an action, top first. -/
def marks (e : Engine) : Op → List Bool → List Bool
  | .load _, ms => false :: ms
  | .get name, ms => e.isUnset name :: ms
  | .binary _, right :: left :: ms => (left || right) :: ms
  | .instruction code, ms => if (Opcode.ofCode code).mode == .implied then ms else ms.tail
  | .set _, ms => ms.tail
  | .width _ _, ms => ms.tail
  | .data _, ms => ms.tail
  | .bytes _ _, ms => ms.tail.tail
  | .jumpIfFalse _, ms => ms.tail
  | .counterSet _, ms => ms.tail
  | _, ms => ms

/-- How many values from the top of the stack steer the pass in this action. -/
def steers : Op → Nat
  | .set _ => 1
  | .width _ _ => 1
  | .jumpIfFalse _ => 1
  | .counterSet _ => 1
  | .bytes _ _ => 2
  | _ => 0

/-- No marked value steers the action. -/
def settled (op : Op) (ms : List Bool) : Bool := (ms.take op.steers).all fun m => !m

end Op

/-- No marked value steers any of the visits, from given marks on. -/
def clean : List Bool → List Visit → Bool
  | _, [] => true
  | ms, v :: rest => v.action.op.settled ms && clean (v.action.op.marks v.engine ms) rest

/-! ## Two passes side by side -/

/-- Two stacks of one depth, equal where they are not marked. -/
inductive Agree : List Bool → List Int64 → List Int64 → Prop
  | nil : Agree [] [] []
  | cons {m : Bool} {ms : List Bool} {a b : Int64} {as bs : List Int64} :
      (m = false → a = b) → Agree ms as bs → Agree (m :: ms) (a :: as) (b :: bs)

/-- What the passes have to agree on for a region. -/
def Region.span (r : Region) : UInt16 × RegionKind × Nat := (r.start, r.kind, r.size)

/-- A relation of cells by name in which reads do not show, and which an
assignment to both cells establishes. -/
structure Lasting (r : String → Cell → Cell → Prop) : Prop where
  left : ∀ n b c d, c.Same b → r n c d → r n b d
  right : ∀ n b c d, r n b c → c.Same d → r n b d
  assign : ∀ n (c d : Cell) v, r n (c.assign v) (d.assign v)

/-- Two engines between the same actions: their variables and labels are
related, and their stacks agree where they are not marked. -/
structure Engine.Abreast (rv rl : String → Cell → Cell → Prop) (ms : List Bool)
    (e₁ e₂ : Engine) : Prop where
  vars : SymbolTable.Pointwise rv e₁.vars e₂.vars
  labels : SymbolTable.Pointwise rl e₁.labels e₂.labels
  pc : e₁.pc.Same e₂.pc
  stack : Agree ms e₁.stack.values e₂.stack.values
  spans : e₁.regions.map Region.span = e₂.regions.map Region.span
  parent : e₁.parent = e₂.parent
  jump : e₁.jump = e₂.jump
  jumps : e₁.jumps = e₂.jumps
  counters : e₁.counters = e₂.counters

/-- Two operations that both succeed on engines related by `R` end with values
and engines related by `Q`. -/
def Relates {α : Type} (R : Engine → Engine → Prop) (m₁ m₂ : EngineM α)
    (Q : α → α → Engine → Engine → Prop) : Prop :=
  ∀ ⦃e₁ e₂⦄, R e₁ e₂ → ∀ ⦃a e₁'⦄, m₁ e₁ = .ok a e₁' → ∀ ⦃b e₂'⦄, m₂ e₂ = .ok b e₂' →
    Q a b e₁' e₂'

namespace Relates

variable {α β : Type} {R : Engine → Engine → Prop}

theorem pure {Q : α → α → Engine → Engine → Prop} {a b : α} (h : ∀ e₁ e₂, R e₁ e₂ → Q a b e₁ e₂) :
    Relates R (pure a) (pure b) Q := by
  intro e₁ e₂ hR a' e₁' h₁ b' e₂' h₂
  obtain ⟨rfl, rfl⟩ := pure_eq_ok.mp h₁
  obtain ⟨rfl, rfl⟩ := pure_eq_ok.mp h₂
  exact h _ _ hR

theorem bind {m₁ m₂ : EngineM α} {f₁ f₂ : α → EngineM β} {Q : α → α → Engine → Engine → Prop}
    {Q' : β → β → Engine → Engine → Prop} (hm : Relates R m₁ m₂ Q)
    (hf : ∀ a b, Relates (Q a b) (f₁ a) (f₂ b) Q') :
    Relates R (m₁ >>= f₁) (m₂ >>= f₂) Q' := by
  intro e₁ e₂ hR c e₁'' h₁ d e₂'' h₂
  obtain ⟨a, e₁', hm₁, hf₁⟩ := bind_eq_ok.mp h₁
  obtain ⟨b, e₂', hm₂, hf₂⟩ := bind_eq_ok.mp h₂
  exact hf a b (hm hR hm₁ hm₂) hf₁ hf₂

end Relates

namespace Engine.Abreast

variable {rv rl : String → Cell → Cell → Prop} {ms : List Bool} {e₁ e₂ : Engine}

theorem pcAddress? (h : Abreast rv rl ms e₁ e₂) : e₁.pcAddress? = e₂.pcAddress? := by
  unfold Engine.pcAddress?
  rw [h.pc.1, h.pc.2]

theorem labelAddress? (h : Abreast rv rl ms e₁ e₂) (synthetic : Bool) :
    e₁.labelAddress? synthetic = e₂.labelAddress? synthetic := by
  unfold Engine.labelAddress?
  rw [h.pcAddress?, h.pc.2]

theorem markRead_left (hv : Lasting rv) (hl : Lasting rl) (h : Abreast rv rl ms e₁ e₂)
    (full : String) (c : Cell) : Abreast rv rl ms (e₁.markRead full c) e₂ := by
  obtain ⟨vars, labels, pc, heq, hvars, hlabels, hpc⟩ := e₁.markRead_eq full c
  rw [heq]
  exact { h with
    vars := hvars.flip.comp h.vars hv.left
    labels := hlabels.flip.comp h.labels hl.left
    pc := ⟨hpc.1.symm.trans h.pc.1, hpc.2.symm.trans h.pc.2⟩ }

theorem markRead_right (hv : Lasting rv) (hl : Lasting rl) (h : Abreast rv rl ms e₁ e₂)
    (full : String) (c : Cell) : Abreast rv rl ms e₁ (e₂.markRead full c) := by
  obtain ⟨vars, labels, pc, heq, hvars, hlabels, hpc⟩ := e₂.markRead_eq full c
  rw [heq]
  exact { h with
    vars := h.vars.comp hvars hv.right
    labels := h.labels.comp hlabels hl.right
    pc := ⟨h.pc.1.trans hpc.1, h.pc.2.trans hpc.2⟩ }

end Engine.Abreast

/-! ## Regions -/

theorem extendRegions_span {kind : RegionKind} {a : UInt16} {b c : UInt8} {rs ss : List Region}
    (h : rs.map Region.span = ss.map Region.span) :
    (Engine.extendRegions kind a b rs).map Region.span =
      (Engine.extendRegions kind a c ss).map Region.span := by
  have hpush : ∀ (r s : Region), r.span = s.span → (r.push b).span = (s.push c).span := by
    intro r s hrs
    simp only [Region.span, Region.push, Region.size, Array.size_push, Prod.mk.injEq] at hrs ⊢
    exact ⟨hrs.1, hrs.2.1, congrArg (· + 1) hrs.2.2⟩
  cases rs with
  | nil =>
      cases ss with
      | nil => exact congrArg (· :: []) (hpush _ _ rfl)
      | cons s ss => cases h
  | cons r rs =>
      cases ss with
      | nil => cases h
      | cons s ss =>
          rw [List.map_cons, List.map_cons, List.cons.injEq] at h
          obtain ⟨hrs, hrest⟩ := h
          have hgoes : Engine.goesOn kind a r = Engine.goesOn kind a s := by
            simp only [Region.span, Prod.mk.injEq] at hrs
            simp only [Engine.goesOn, Region.stop, hrs]
          simp only [Engine.extendRegions, hgoes]
          split
          · rw [List.map_cons, List.map_cons, hpush r s hrs, hrest]
          · rw [List.map_cons, List.map_cons, List.map_cons, List.map_cons, hrs, hrest]
            exact congrArg (· :: _) (hpush _ _ rfl)

/-! ## Elementary operations -/

section Elementary

variable {rv rl : String → Cell → Cell → Prop} {ms : List Bool}

/-- What is popped is equal unless it is marked. -/
theorem pop_abreast :
    Relates (Engine.Abreast rv rl ms) Engine.pop Engine.pop fun a b e₁ e₂ =>
      ∃ m rest, ms = m :: rest ∧ (m = false → a = b) ∧ Engine.Abreast rv rl rest e₁ e₂ := by
  intro e₁ e₂ h a e₁' h₁ b e₂' h₂
  obtain ⟨as, hs₁, rfl⟩ := Engine.pop_eq_ok.mp h₁
  obtain ⟨bs, hs₂, rfl⟩ := Engine.pop_eq_ok.mp h₂
  have hstack := h.stack
  rw [hs₁, hs₂] at hstack
  cases hstack with
  | cons hab hrest => exact ⟨_, _, rfl, hab, { h with stack := hrest }⟩

/-- Pushing values that are equal unless they are marked. -/
theorem push_abreast {m : Bool} {a b : Int64} (hab : m = false → a = b) :
    Relates (Engine.Abreast rv rl ms) (Engine.push a) (Engine.push b) fun _ _ =>
      Engine.Abreast rv rl (m :: ms) := by
  intro e₁ e₂ h _ e₁' h₁ _ e₂' h₂
  obtain ⟨-, rfl⟩ := Engine.push_eq_ok.mp h₁
  obtain ⟨-, rfl⟩ := Engine.push_eq_ok.mp h₂
  exact { h with stack := .cons hab h.stack }

theorem startOperand_abreast :
    Relates (Engine.Abreast rv rl ms) Engine.startOperand Engine.startOperand fun _ _ =>
      Engine.Abreast rv rl ms := by
  intro e₁ e₂ h _ e₁' h₁ _ e₂' h₂
  obtain rfl := Engine.startOperand_eq_ok.mp h₁
  obtain rfl := Engine.startOperand_eq_ok.mp h₂
  exact { h with }

/-- A byte goes to the same place, whatever it is. -/
theorem emit_abreast (kind : RegionKind) (v₁ v₂ : Int64) :
    Relates (Engine.Abreast rv rl ms) (Engine.emit kind v₁) (Engine.emit kind v₂) fun _ _ =>
      Engine.Abreast rv rl ms := by
  intro e₁ e₂ h _ e₁' h₁ _ e₂' h₂
  obtain ⟨a, ha, -, -, rfl⟩ := Engine.emit_eq_ok.mp h₁
  obtain ⟨a', ha', -, -, rfl⟩ := Engine.emit_eq_ok.mp h₂
  rw [h.pcAddress?] at ha
  obtain rfl := Option.some.inj (ha.symm.trans ha')
  exact { h with
    pc := ⟨rfl, rfl⟩
    spans := extendRegions_span h.spans }

theorem emitSized_abreast (kind : RegionKind) (word : Bool) (v₁ v₂ : Int64) :
    Relates (Engine.Abreast rv rl ms) (Engine.emitSized kind word v₁)
      (Engine.emitSized kind word v₂) fun _ _ => Engine.Abreast rv rl ms := by
  unfold Engine.emitSized Engine.emitWord
  cases word with
  | false => exact emit_abreast kind v₁ v₂
  | true => exact (emit_abreast kind v₁ v₂).bind fun _ _ => emit_abreast kind _ _

theorem emitBytes_abreast (word : Bool) (bytes : List UInt8) :
    Relates (Engine.Abreast rv rl ms) (Engine.emitBytes word bytes) (Engine.emitBytes word bytes)
      fun _ _ => Engine.Abreast rv rl ms := by
  induction bytes with
  | nil => exact Relates.pure fun _ _ h => h
  | cons b rest ih => exact (emitSized_abreast .data word _ _).bind fun _ _ => ih

theorem emitBranch_abreast (v₁ v₂ : Int64) :
    Relates (Engine.Abreast rv rl ms) (Engine.emitBranch v₁) (Engine.emitBranch v₂) fun _ _ =>
      Engine.Abreast rv rl ms := by
  intro e₁ e₂ h _ e₁' h₁ _ e₂' h₂
  -- each side emits one byte, be the branch known or not
  have hone : ∀ {v : Int64} {u : Unit} {e e' : Engine}, Engine.emitBranch v e = .ok u e' →
      ∃ d, Engine.emit .code d e = .ok u e' := by
    intro v u e e' hrun
    obtain ⟨a, -, ⟨-, -, hemit⟩ | ⟨-, hemit⟩⟩ := Engine.emitBranch_eq_ok.mp hrun
    · exact ⟨_, hemit⟩
    · exact ⟨_, hemit⟩
  obtain ⟨d₁, h₁⟩ := hone h₁
  obtain ⟨d₂, h₂⟩ := hone h₂
  exact emit_abreast .code d₁ d₂ h h₁ h₂

theorem encode_abreast (op : Opcode) :
    Relates (Engine.Abreast rv rl ms) (Engine.encode op) (Engine.encode op) fun _ _ =>
      Engine.Abreast rv rl (if op.mode == .implied then ms else ms.tail) := by
  unfold Engine.encode
  split
  · exact emit_abreast .code _ _
  · refine pop_abreast.bind fun a b => ?_
    rintro e₁ e₂ ⟨m, rest, rfl, -, h⟩
    refine ((emit_abreast .code _ _).bind fun _ _ => ?_) h
    split
    · exact emitBranch_abreast a b
    · exact emitSized_abreast .code _ a b

section Symbols

variable (hv : Lasting rv) (hl : Lasting rl)

include hv hl

theorem readSymbol_abreast (name : String) :
    Relates (Engine.Abreast rv rl ms) (Engine.readSymbol name) (Engine.readSymbol name)
      fun _ _ => Engine.Abreast rv rl ms := by
  intro e₁ e₂ h a e₁' h₁ b e₂' h₂
  obtain ⟨full, c, -, -, -, hcase₁⟩ := Engine.readSymbol_eq_ok.mp h₁
  obtain ⟨full', d, -, -, -, hcase₂⟩ := Engine.readSymbol_eq_ok.mp h₂
  have hright : Engine.Abreast rv rl ms e₁ e₂' := by
    rcases hcase₂ with ⟨-, rfl⟩ | ⟨-, -, rfl⟩
    · exact h.markRead_right hv hl full' d
    · exact { h.markRead_right hv hl full' d with }
  rcases hcase₁ with ⟨-, rfl⟩ | ⟨-, -, rfl⟩
  · exact hright.markRead_left hv hl full c
  · exact { hright.markRead_left hv hl full c with }

/-- What is read is pushed with a mark, or is equal on both sides. -/
theorem get_abreast {name : String} {loc : Location} {m : Bool} {e₁ e₂ e₁' e₂' : Engine}
    (h : Engine.Abreast rv rl ms e₁ e₂)
    (hvalue : m = false → ∀ full c d, qualify name e₁.parent = .ok full →
      e₁.cell? full = some c → e₂.cell? full = some d → c.value = d.value)
    (h₁ : (Op.get name).run loc e₁ = .ok () e₁') (h₂ : (Op.get name).run loc e₂ = .ok () e₂') :
    Engine.Abreast rv rl (m :: ms) e₁' e₂' := by
  obtain ⟨_, _, hstart₁, h₁⟩ := bind_eq_ok.mp h₁
  obtain ⟨_, _, hstart₂, h₂⟩ := bind_eq_ok.mp h₂
  obtain ⟨a, _, hread₁, hpush₁⟩ := bind_eq_ok.mp h₁
  obtain ⟨b, _, hread₂, hpush₂⟩ := bind_eq_ok.mp h₂
  have hmid := startOperand_abreast h hstart₁ hstart₂
  refine push_abreast (fun hm => ?_) (readSymbol_abreast hv hl name hmid hread₁ hread₂) hpush₁
    hpush₂
  obtain rfl := Engine.startOperand_eq_ok.mp hstart₁
  obtain rfl := Engine.startOperand_eq_ok.mp hstart₂
  obtain ⟨full, c, hq, hc, rfl, -⟩ := Engine.readSymbol_eq_ok.mp hread₁
  obtain ⟨full', d, hq', hd, rfl, -⟩ := Engine.readSymbol_eq_ok.mp hread₂
  rw [← hmid.parent, hq] at hq'
  cases hq'
  exact hvalue hm full c d hq hc hd

end Symbols

theorem assign_abreast (hv : Lasting rv) (name : String) (v : Int64) :
    Relates (Engine.Abreast rv rl ms) (Engine.assign name v) (Engine.assign name v) fun _ _ =>
      Engine.Abreast rv rl ms := by
  intro e₁ e₂ h _ e₁' h₁ _ e₂' h₂
  obtain ⟨full, hq, hcase₁⟩ := Engine.assign_eq_ok.mp h₁
  obtain ⟨full', hq', hcase₂⟩ := Engine.assign_eq_ok.mp h₂
  rw [← h.parent, hq] at hq'
  cases hq'
  rcases hcase₁ with ⟨hp, rfl⟩ | ⟨hp, -, rfl⟩
  · rcases hcase₂ with ⟨-, rfl⟩ | ⟨hp', -, -⟩
    · exact { h with pc := ⟨rfl, rfl⟩ }
    · exact absurd hp hp'
  · rcases hcase₂ with ⟨hp', -⟩ | ⟨-, -, rfl⟩
    · exact absurd hp' hp
    · exact { h with vars := h.vars.update full fun _ _ _ => hv.assign _ _ _ _ }

theorem placeLabel_abreast (hl : Lasting rl) (name : String) (synthetic : Bool) :
    Relates (Engine.Abreast rv rl ms) (Engine.placeLabel name synthetic)
      (Engine.placeLabel name synthetic) fun _ _ => Engine.Abreast rv rl ms := by
  intro e₁ e₂ h _ e₁' h₁ _ e₂' h₂
  obtain ⟨full, a, hq, -, ha, rfl⟩ := Engine.placeLabel_eq_ok.mp h₁
  obtain ⟨full', a', hq', -, ha', rfl⟩ := Engine.placeLabel_eq_ok.mp h₂
  rw [← h.parent, hq] at hq'
  cases hq'
  rw [h.labelAddress?] at ha
  obtain rfl := Option.some.inj (ha.symm.trans ha')
  exact { h with
    labels := h.labels.update full fun _ _ _ => hl.assign _ _ _ _
    parent := by
      show (if _ then _ else _) = (if _ then _ else _)
      rw [h.parent] }

theorem requestJump_abreast (j : Int) :
    Relates (Engine.Abreast rv rl ms) (Engine.requestJump j) (Engine.requestJump j) fun _ _ =>
      Engine.Abreast rv rl ms := by
  intro e₁ e₂ h _ e₁' h₁ _ e₂' h₂
  obtain rfl := Engine.requestJump_eq_ok.mp h₁
  obtain rfl := Engine.requestJump_eq_ok.mp h₂
  exact { h with jump := rfl }

/-- A jump that is asked for on the same condition. -/
theorem requestJump_if_abreast (j : Int) (p : Prop) [Decidable p] :
    Relates (Engine.Abreast rv rl ms) (if p then Engine.requestJump j else pure ())
      (if p then Engine.requestJump j else pure ()) fun _ _ => Engine.Abreast rv rl ms := by
  split
  · exact requestJump_abreast j
  · exact Relates.pure fun _ _ h => h

theorem counter_abreast (c : Int) :
    Relates (Engine.Abreast rv rl ms) (Engine.counter c) (Engine.counter c) fun a b e₁ e₂ =>
      a = b ∧ Engine.Abreast rv rl ms e₁ e₂ := by
  intro e₁ e₂ h a e₁' h₁ b e₂' h₂
  obtain ⟨hc, rfl⟩ := Engine.counter_eq_ok.mp h₁
  obtain ⟨hc', rfl⟩ := Engine.counter_eq_ok.mp h₂
  refine ⟨?_, h⟩
  unfold Engine.counter? at hc hc'
  rw [h.counters] at hc
  exact Option.some.inj (hc.symm.trans hc')

theorem setCounter_abreast (c : Int) (v : Int64) :
    Relates (Engine.Abreast rv rl ms) (Engine.setCounter c v) (Engine.setCounter c v) fun _ _ =>
      Engine.Abreast rv rl ms := by
  intro e₁ e₂ h _ e₁' h₁ _ e₂' h₂
  obtain rfl := Engine.setCounter_eq_ok.mp h₁
  obtain rfl := Engine.setCounter_eq_ok.mp h₂
  exact { h with counters := by rw [h.counters] }

theorem applyBinary_abreast (op : BinaryOp) :
    Relates (Engine.Abreast rv rl ms) (Engine.applyBinary op) (Engine.applyBinary op)
      fun _ _ e₁ e₂ => ∃ right left rest, ms = right :: left :: rest ∧
        Engine.Abreast rv rl ((left || right) :: rest) e₁ e₂ := by
  intro e₁ e₂ h _ e₁' h₁ _ e₂' h₂
  obtain ⟨a, b, v₁, as, hs₁, hv₁, hpush₁⟩ := Engine.applyBinary_eq_ok.mp h₁
  obtain ⟨a', b', v₂, bs, hs₂, hv₂, hpush₂⟩ := Engine.applyBinary_eq_ok.mp h₂
  have hstack := h.stack
  rw [hs₁, hs₂] at hstack
  cases hstack with
  | @cons right _ _ _ _ _ hright hrest =>
      cases hrest with
      | @cons left rest _ _ _ _ hleft hrest =>
          refine ⟨right, left, rest, rfl, ?_⟩
          have hmid : Engine.Abreast rv rl rest { e₁ with stack := ⟨as⟩ }
              { e₂ with stack := ⟨bs⟩ } := { h with stack := hrest }
          refine push_abreast ?_ hmid hpush₁ hpush₂
          intro hmarks
          obtain ⟨hl, hr⟩ := Bool.or_eq_false_iff.mp hmarks
          rw [hleft hl, hright hr] at hv₁
          exact Option.some.inj (hv₁.symm.trans hv₂)

/-- What follows a pop goes on with values that are equal unless they were
marked. -/
theorem pop_bind_abreast {f₁ f₂ : Int64 → EngineM Unit} {e₁ e₂ e₁' e₂' : Engine} {u u' : Unit}
    (h : Engine.Abreast rv rl ms e₁ e₂) (h₁ : (Engine.pop >>= f₁) e₁ = .ok u e₁')
    (h₂ : (Engine.pop >>= f₂) e₂ = .ok u' e₂') :
    ∃ m rest a b d₁ d₂, ms = m :: rest ∧ (m = false → a = b) ∧ Engine.Abreast rv rl rest d₁ d₂ ∧
      f₁ a d₁ = .ok u e₁' ∧ f₂ b d₂ = .ok u' e₂' := by
  obtain ⟨a, d₁, hpop₁, h₁⟩ := bind_eq_ok.mp h₁
  obtain ⟨b, d₂, hpop₂, h₂⟩ := bind_eq_ok.mp h₂
  obtain ⟨m, rest, hms, hab, hmid⟩ := pop_abreast h hpop₁ hpop₂
  exact ⟨m, rest, a, b, d₁, d₂, hms, hab, hmid, h₁, h₂⟩

theorem loadCounter_abreast (c : Int) (hms : (ms.take 1).all (fun m => !m) = true) :
    Relates (Engine.Abreast rv rl ms) (Engine.loadCounter c) (Engine.loadCounter c) fun _ _ =>
      Engine.Abreast rv rl ms.tail := by
  intro e₁ e₂ h _ e₁' h₁ _ e₂' h₂
  obtain ⟨m, rest, a, b, d₁, d₂, rfl, hab, hmid, h₁, h₂⟩ :=
    pop_bind_abreast h (Engine.loadCounter_eq_ok.mp h₁).2 (Engine.loadCounter_eq_ok.mp h₂).2
  obtain rfl := hab (by simpa using hms)
  exact setCounter_abreast c a hmid h₁ h₂

theorem encodeWidth_abreast (mnemonic : String) (index : Index)
    (hms : (ms.take 1).all (fun m => !m) = true) :
    Relates (Engine.Abreast rv rl ms) (Engine.encodeWidth mnemonic index)
      (Engine.encodeWidth mnemonic index) fun _ _ => Engine.Abreast rv rl ms.tail := by
  intro e₁ e₂ h u e₁' h₁ u' e₂' h₂
  obtain ⟨a, as, op, hs₁, hop, hencode₁⟩ := Engine.encodeWidth_eq_ok.mp h₁
  obtain ⟨b, bs, op', hs₂, hop', hencode₂⟩ := Engine.encodeWidth_eq_ok.mp h₂
  obtain rfl : a = b := by
    have hstack := h.stack
    rw [hs₁, hs₂] at hstack
    cases hstack with
    | cons hab _ => exact hab (by simpa using hms)
  obtain rfl := Option.some.inj (hop.symm.trans hop')
  have hmode : (op.mode == .implied) = false := by
    obtain ⟨m, -, hm⟩ := Option.bind_eq_some_iff.mp hop
    rw [(Mnemonic.encoding?_eq_some hm).2]
    cases index <;> cases decide (a &&& 0xFFFF < 256) <;> rfl
  have hkept := encode_abreast op h hencode₁ hencode₂
  rw [hmode] at hkept
  exact hkept

end Elementary

/-! ## Actions -/

/-- Does the action read or assign a symbol? -/
def Op.accesses : Op → Bool
  | .get _ => true
  | .set _ => true
  | _ => false

/-- An action that no marked value steers keeps the engines abreast, unless it
reads or assigns a symbol or shows a message. -/
theorem Op.run_abreast {rv rl : String → Cell → Cell → Prop} (hl : Lasting rl)
    {ms : List Bool} {op : Op} {loc : Location} {e₁ e₂ e₁' e₂' : Engine}
    (h : Engine.Abreast rv rl ms e₁ e₂) (haccess : op.accesses = false)
    (hmsg : op.isMessage = false) (hsettled : op.settled ms = true)
    (h₁ : op.run loc e₁ = .ok () e₁') (h₂ : op.run loc e₂ = .ok () e₂') :
    Engine.Abreast rv rl (op.marks e₁ ms) e₁' e₂' := by
  cases hmeta : op.isMeta with
  | true =>
      rw [Op.run_of_isMeta hmeta] at h₁
      exact absurd h₁ throw_ne_ok
  | false =>
      cases op with
      | load v =>
          exact (startOperand_abreast.bind fun _ _ => push_abreast fun _ => rfl) h h₁ h₂
      | get => cases haccess
      | set => cases haccess
      | unary op =>
          obtain ⟨m, rest, a, b, d₁, d₂, rfl, hab, hmid, h₁, h₂⟩ := pop_bind_abreast h h₁ h₂
          exact push_abreast (fun hm => by rw [hab hm]) hmid h₁ h₂
      | binary op =>
          obtain ⟨right, left, rest, rfl, h'⟩ := applyBinary_abreast op h h₁ h₂
          exact h'
      | instruction code => exact encode_abreast _ h h₁ h₂
      | width mnemonic index => exact encodeWidth_abreast mnemonic index hsettled h h₁ h₂
      | data word =>
          -- the values may differ, their size does not
          obtain ⟨m, rest, a, b, d₁, d₂, rfl, -, hmid, h₁, h₂⟩ := pop_bind_abreast h h₁ h₂
          exact emitSized_abreast .data word a b hmid h₁ h₂
      | text word bytes => exact emitBytes_abreast word bytes h h₁ h₂
      | bytes name bytes =>
          obtain ⟨m, rest, a, b, d₁, d₂, rfl, hab, hmid, h₁, h₂⟩ := pop_bind_abreast h h₁ h₂
          obtain ⟨m', rest', c, d, d₁', d₂', rfl, hcd, hmid, h₁, h₂⟩ := pop_bind_abreast hmid h₁ h₂
          obtain ⟨hm, hm'⟩ : m = false ∧ m' = false := by
            simpa [Op.settled, Op.steers] using hsettled
          obtain rfl := hab hm
          obtain rfl := hcd hm'
          exact emitBytes_abreast false _ hmid h₁ h₂
      | label name synthetic => exact placeLabel_abreast hl name synthetic h h₁ h₂
      | jump j => exact requestJump_abreast j h h₁ h₂
      | jumpIfFalse j =>
          obtain ⟨m, rest, a, b, d₁, d₂, rfl, hab, hmid, h₁, h₂⟩ := pop_bind_abreast h h₁ h₂
          obtain rfl := hab (by simpa [Op.settled, Op.steers] using hsettled)
          exact (requestJump_if_abreast j _) hmid h₁ h₂
      | counterSet c => exact loadCounter_abreast c hsettled h h₁ h₂
      | counterTest c j =>
          obtain ⟨a, d₁, hc₁, h₁⟩ := bind_eq_ok.mp h₁
          obtain ⟨b, d₂, hc₂, h₂⟩ := bind_eq_ok.mp h₂
          obtain ⟨rfl, hmid⟩ := counter_abreast c h hc₁ hc₂
          exact (requestJump_if_abreast j _) hmid h₁ h₂
      | counterStep c j =>
          obtain ⟨a, d₁, hc₁, h₁⟩ := bind_eq_ok.mp h₁
          obtain ⟨b, d₂, hc₂, h₂⟩ := bind_eq_ok.mp h₂
          obtain ⟨rfl, hmid⟩ := counter_abreast c h hc₁ hc₂
          exact ((setCounter_abreast c _).bind fun _ _ => requestJump_abreast j) hmid h₁ h₂
      | message => cases hmsg
      | _ => cases hmeta

/-! ## The first pass after the warm-up pass -/

/-- Once a cell is set in the first of two passes, both hold the same value;
before that, the second still holds what the first will end with. -/
def Cell.Tracks (last : SymbolTable) (name : String) (c d : Cell) : Prop :=
  (c.isSet = true → d.isSet = true ∧ c.value = d.value) ∧
    (c.isSet = false → ∃ b, last.find? name = some b ∧ b.value = d.value)

/-- The first pass follows the warm-up pass, which ends with the symbols of
`w`. -/
structure Engine.Tracks (w : Engine) (ms : List Bool) (e₁ e₂ : Engine) : Prop where
  pass₁ : e₁.pass = .warmUp
  pass₂ : e₂.pass = .first
  vars : SymbolTable.Pointwise (Cell.Tracks w.vars) e₁.vars e₂.vars
  labels : SymbolTable.Pointwise (Cell.Tracks w.labels) e₁.labels e₂.labels
  pc : e₁.pc.Same e₂.pc
  stack : Agree ms e₁.stack.values e₂.stack.values
  spans : e₁.regions.map Region.span = e₂.regions.map Region.span
  parent : e₁.parent = e₂.parent
  jump : e₁.jump = e₂.jump
  jumps : e₁.jumps = e₂.jumps
  counters : e₁.counters = e₂.counters

namespace Engine.Tracks

variable {w e₁ e₂ : Engine} {ms : List Bool}

theorem abreast (h : Tracks w ms e₁ e₂) :
    Abreast (Cell.Tracks w.vars) (Cell.Tracks w.labels) ms e₁ e₂ := { h with }

theorem of_abreast (h : Abreast (Cell.Tracks w.vars) (Cell.Tracks w.labels) ms e₁ e₂)
    (h₁ : e₁.pass = .warmUp) (h₂ : e₂.pass = .first) : Tracks w ms e₁ e₂ :=
  { h with
    pass₁ := h₁
    pass₂ := h₂ }

end Engine.Tracks

theorem Cell.tracks_lasting (last : SymbolTable) : Lasting (Cell.Tracks last) where
  left := by
    rintro n b c d ⟨hv, hs⟩ ⟨hset, hunset⟩
    exact ⟨fun hb => hv ▸ hset (hs.trans hb), fun hb => hunset (hs.trans hb)⟩
  right := by
    rintro n b c d ⟨hset, hunset⟩ ⟨hv, hs⟩
    refine ⟨fun hb => ?_, fun hb => ?_⟩
    · exact ⟨hs ▸ (hset hb).1, (hset hb).2.trans hv⟩
    · obtain ⟨b', hfind, hvalue⟩ := hunset hb
      exact ⟨b', hfind, hvalue.trans hv⟩
  assign := fun _ _ _ _ => ⟨fun _ => ⟨rfl, rfl⟩, fun hs => nomatch hs⟩

/-- A symbol that is set in the first pass reads the same in the second. -/
theorem Engine.Tracks.cell? {w e₁ e₂ : Engine} {ms : List Bool} (h : Tracks w ms e₁ e₂)
    {full : String} {c d : Cell} (hc : e₁.cell? full = some c) (hd : e₂.cell? full = some d)
    (hset : c.isSet = true) : c.value = d.value := by
  have hweaken : ∀ (t : SymbolTable) (n : String) (c d : Cell),
      c.Tracks t n d → c.isSet = true → c.value = d.value := by
    intro t n c d hcd hs
    exact (hcd.1 hs).2
  exact Engine.related_of_cell? (h.vars.imp (hweaken w.vars)) (h.labels.imp (hweaken w.labels))
    (fun _ => h.pc.1) hc hd hset

/-- An action that no marked value steers keeps the passes side by side. -/
theorem Op.run_tracks {w : Engine} {ms : List Bool} {op : Op} {loc : Location}
    {e₁ e₂ e₁' e₂' : Engine} (h : Engine.Tracks w ms e₁ e₂) (hsettled : op.settled ms = true)
    (h₁ : op.run loc e₁ = .ok () e₁') (h₂ : op.run loc e₂ = .ok () e₂') :
    Engine.Tracks w (op.marks e₁ ms) e₁' e₂' := by
  cases hmsg : op.isMessage with
  | false =>
      refine .of_abreast ?_ ((op.run_symbolStep loc hmsg h₁).2.trans h.pass₁)
        ((op.run_symbolStep loc hmsg h₂).2.trans h.pass₂)
      have hv := Cell.tracks_lasting w.vars
      have hl := Cell.tracks_lasting w.labels
      cases haccess : op.accesses with
      | false => exact Op.run_abreast hl h.abreast haccess hmsg hsettled h₁ h₂
      | true =>
          cases op with
          | get name =>
              refine get_abreast hv hl h.abreast (fun hset full c d hq hc hd => ?_) h₁ h₂
              exact h.cell? hc hd (by simpa [Engine.isUnset, hq, hc] using hset)
          | set name =>
              obtain ⟨m, rest, a, b, d₁, d₂, rfl, hab, hmid, h₁, h₂⟩ :=
                pop_bind_abreast h.abreast h₁ h₂
              -- the value is not marked, so both passes assign the same one
              obtain rfl := hab (by simpa [Op.settled, Op.steers] using hsettled)
              exact assign_abreast hv name a hmid h₁ h₂
          | _ => cases haccess
  | true =>
      -- neither pass is final, so neither shows messages
      have hquiet : ∀ {e : Engine} {p : Pass}, e.pass = p → p ≠ .final → e.isFinal = false := by
        intro e p hp hnot
        unfold Engine.isFinal
        rw [hp]
        simpa using hnot
      cases op with
      | message level formatted args =>
          rcases Op.run_message_eq_ok.mp h₁ with ⟨-, rfl⟩ | ⟨hf, -⟩
          · rcases Op.run_message_eq_ok.mp h₂ with ⟨-, rfl⟩ | ⟨hf, -⟩
            · exact h
            · exact absurd ((hquiet h.pass₂ (by decide)).symm.trans hf) Bool.false_ne_true
          · exact absurd ((hquiet h.pass₁ (by decide)).symm.trans hf) Bool.false_ne_true
      | _ => cases hmsg

/-! ## Passes -/

/-- A fresh table is tracked by the one that it grows to. -/
theorem SymbolTable.Fresh.tracks {t u : SymbolTable} (hfresh : t.Fresh) (hgrows : t.Grows u)
    (hnodup : u.names.Nodup) : Pointwise (Cell.Tracks u) t u := by
  refine hgrows.imp_of_mem fun n c d hc hd _ => ?_
  obtain rfl : c = {} := hfresh _ hc
  refine ⟨?_, ?_⟩
  · intro hset
    cases hset
  · intro _
    exact ⟨d, find?_eq_some_of_mem hnodup hd, rfl⟩

/-- The two passes start side by side: the warm-up pass with no symbol set, the
first pass with all symbols as the warm-up pass left them. -/
theorem Code.start_tracks (code : Code) {e₀ w : Engine} (hdeclared : e₀.Declared)
    (hvars : e₀.vars.Grows w.vars) (hlabels : e₀.labels.Grows w.labels) (hw : w.NamesApart) :
    Engine.Tracks w [] (code.start .warmUp e₀) (code.start .first w) where
  pass₁ := rfl
  pass₂ := rfl
  vars := hdeclared.freshVars.tracks hvars hw.vars
  labels := hdeclared.freshLabels.tracks hlabels hw.labels
  pc := .refl _
  stack := .nil
  spans := rfl
  parent := rfl
  jump := rfl
  jumps := rfl
  counters := rfl

/-- A table that ends a pass agrees with the one that tracks it. -/
theorem SymbolTable.Pointwise.values_eq_of_tracks {t u : SymbolTable} (hnodup : t.names.Nodup)
    (h : Pointwise (Cell.Tracks t) t u) : t.values = u.values := by
  have hsame : Pointwise (fun _ c d => c.value = d.value) t u := by
    refine h.imp_of_mem fun n c d hc _ hcd => ?_
    cases hset : c.isSet with
    | true => exact (hcd.1 hset).2
    | false =>
        -- the first pass still has what the warm-up pass ended with, which is this table
        obtain ⟨b, hb, hbd⟩ := hcd.2 hset
        rw [find?_eq_some_of_mem hnodup hc] at hb
        cases hb
        exact hbd
  exact hsame.values_eq fun _ _ _ h => h

/-- At the end the two passes agree on the layout. -/
theorem Engine.Tracks.layout_eq {w e₁ e₂ : Engine} {ms : List Bool} (h : Tracks w ms e₁ e₂)
    (hw : w.NamesApart) (hvars : w.vars = e₁.vars) (hlabels : w.labels = e₁.labels) :
    Assembler.Layout.ofEngine e₁ = Assembler.Layout.ofEngine e₂ := by
  have hv := h.vars
  have hl := h.labels
  rw [← hvars] at hv
  rw [← hlabels] at hl
  unfold Assembler.Layout.ofEngine
  rw [← hvars, ← hlabels, hv.values_eq_of_tracks hw.vars, hl.values_eq_of_tracks hw.labels, h.pc.1]
  exact congrArg _ h.spans

/-- After a clean warm-up pass, a first pass that completes ends with the same
layout. -/
theorem Assembler.first_layout_eq {verbose : Bool} {code : Code} {e₀ w f : Engine}
    (hdeclared : e₀.Declared) (hwarmUp : runPass verbose code .warmUp e₀ = .ok () w)
    (hfirst : runPass verbose code .first w = .ok () f)
    (hclean : clean [] (code.passTrace .warmUp e₀) = true) :
    Layout.ofEngine w = Layout.ofEngine f := by
  obtain ⟨hvars, hlabels⟩ := runPass_grows hwarmUp
  have hw : w.NamesApart :=
    hdeclared.toNamesApart.of_names hvars.names_eq.symm hlabels.names_eq.symm
  obtain ⟨vs, e₁, hruns₁, hreport₁⟩ := runPass_eq_ok_iff.mp hwarmUp
  obtain ⟨ws, e₂, hruns₂, hreport₂⟩ := runPass_eq_ok_iff.mp hfirst
  rw [Code.passTrace, hruns₁.trace_eq] at hclean
  obtain ⟨ms, htracks⟩ := hruns₁.lockstep (R := fun ms e₁ e₂ => Engine.Tracks w ms e₁ e₂)
    (C := fun ms vs => clean ms vs = true) (S := fun _ => True)
    (by
      rintro ms ⟨loc, op, x⟩ d₁ d₂ d₁' d₂' vs - h hvs h₁ h₂
      obtain ⟨hsettled, hrest⟩ := Bool.and_eq_true_iff.mp hvs
      have hat : Engine.Tracks w ms (d₁.atAction ⟨loc, op, x⟩) (d₂.atAction ⟨loc, op, x⟩) :=
        { h with }
      exact ⟨_, Op.run_tracks hat hsettled h₁ h₂, hrest⟩)
    (by
      intro ms d₁ d₂ h
      unfold Engine.isFinal
      rw [h.pass₁]
      rfl)
    (fun _ _ _ h => h.jump)
    (fun _ _ _ h => { h with jump := rfl, jumps := congrArg (· + 1) h.jumps })
    (fun _ _ _ _ _ => trivial) hruns₂ (fun _ _ => trivial)
    (code.start_tracks hdeclared hvars hlabels hw) hclean
  have hend := htracks.layout_eq hw (by rw [hreport₁]) (by rw [hreport₁])
  rw [hreport₁, hreport₂]
  exact hend

end Mos6510
