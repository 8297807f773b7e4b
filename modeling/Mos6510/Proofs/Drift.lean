import Mos6510.Proofs.Reach
import Mos6510.Proofs.Slots

/-!
# Drift

Two passes over the same actions with other values for the symbols lay out
other addresses.  `Drift` says how far what the first computes with is from what
the second does: each value on the stack and each symbol is off by some amount,
or by an amount that is not known.  It is not known for a value that is computed
from a symbol without a value.

* `Drift.between`, `Drift.after`: the drift that two passes start with, and how
  an action changes it.  A label drifts with the address that it is placed at,
  and sums and differences drift with their operands.
* `Drift.Fits`: the drift is that of two engines; `Drift.Fits.run`: an action
  that both run keeps it so.
* `Code.Together`: two executions come to the same actions.
* `Code.Spurious`: a branch is reported out of reach in one execution while
  another, that is strict, completes.  The first has gone astray (`Code.Astray`),
  or it is not strict and the operand is not known (`Code.Provisional`), or it
  is, and the branch and its operand have moved (`Code.Moved`).
* `Code.Runs.spurious`: there is no other way.
* `Code.Steady.not_moved`: no branch moves where the addresses are the same.
-/

namespace Mos6510

open Outcome

/-! ## Amounts -/

/-- The first value is off the second by an amount, if that is known; it may have
to be known. -/
structure IsOff (known : Bool) (m : Option Int64) (a b : Int64) : Prop where
  eq_add : ∀ s, m = some s → a = b + s
  isSome : known = true → m.isSome = true

/-- How far one result is off the other, where there are two. -/
def difference : Option Int64 → Option Int64 → Option Int64
  | some v, some w => some (v - w)
  | _, _ => none

/-- How far a prefix operator carries the drift of its operand on, with its
results `v` and `w`. -/
def UnaryOp.drift (op : UnaryOp) (v w : Option Int64) : Option Int64 → Option Int64
  | none => none
  | some s =>
    match op with
    | .negate => some (-s)
    | .complement => some (-s)
    | _ => if s = 0 then some 0 else difference v w

/-- How far an infix operator carries the drifts of its operands on, with its
results `v` and `w`. -/
def BinaryOp.drift (op : BinaryOp) (v w : Option Int64) :
    Option Int64 → Option Int64 → Option Int64
  | some s, some t =>
    match op with
    | .add => some (s + t)
    | .sub => some (s - t)
    -- no other operator carries an amount on, unless there is nothing to carry
    | _ => if s = 0 ∧ t = 0 then some 0 else difference v w
  | _, _ => none

theorem isOff_some {known : Bool} {s a b : Int64} (h : a = b + s) : IsOff known (some s) a b where
  eq_add := by
    rintro t ⟨⟩
    exact h
  isSome _ := rfl

theorem isOff_zero {known : Bool} {a b : Int64} (h : a = b) : IsOff known (some 0) a b :=
  isOff_some (by rw [h, Int64.add_zero])

theorem isOff_sub (known : Bool) (a b : Int64) : IsOff known (some (a - b)) a b :=
  isOff_some (by grind)

theorem IsOff.unary {known : Bool} {m : Option Int64} {a b : Int64} (h : IsOff known m a b)
    (op : UnaryOp) : IsOff known (op.drift (some (op.apply a)) (some (op.apply b)) m) (op.apply a)
      (op.apply b) := by
  cases m with
  | none => exact ⟨nofun, h.isSome⟩
  | some s =>
      have hab := h.eq_add s rfl
      cases op with
      | negate =>
          refine isOff_some ?_
          show -a = -b + -s
          grind
      | complement =>
          -- a complement is a negation, less one
          refine isOff_some ?_
          show ~~~a = ~~~b + -s
          rw [Int64.not_eq_neg_sub, Int64.not_eq_neg_sub]
          grind
      | _ =>
          simp only [UnaryOp.drift]
          split
          · rename_i hs
            rw [hs, Int64.add_zero] at hab
            exact isOff_zero (by rw [hab])
          · exact isOff_sub _ _ _

theorem IsOff.binary {known : Bool} {m n : Option Int64} {a a' b b' v w : Int64}
    (ha : IsOff known m a a') (hb : IsOff known n b b') {op : BinaryOp}
    (hv : op.value? a b = some v) (hw : op.value? a' b' = some w) :
    IsOff known (op.drift (some v) (some w) m n) v w := by
  cases m with
  | none => exact ⟨nofun, ha.isSome⟩
  | some s =>
      cases n with
      | none => exact ⟨nofun, hb.isSome⟩
      | some t =>
          have ha := ha.eq_add s rfl
          have hb := hb.eq_add t rfl
          cases op with
          -- amounts add and subtract with the values
          | add =>
              cases hv
              cases hw
              exact isOff_some (by grind)
          | sub =>
              cases hv
              cases hw
              exact isOff_some (by grind)
          | _ =>
              simp only [BinaryOp.drift]
              split
              · rename_i hst
                rw [hst.1, Int64.add_zero] at ha
                rw [hst.2, Int64.add_zero] at hb
                rw [ha, hb, hw] at hv
                exact isOff_zero (Option.some.inj hv).symm
              · exact isOff_sub _ _ _

theorem UnaryOp.drift_zero {op : UnaryOp} {v w m : Option Int64} {s : Int64}
    (hm : ∀ s, m = some s → s = 0) (h : op.drift v w m = some s) : s = 0 := by
  cases m with
  | none => cases h
  | some t =>
      obtain rfl := hm t rfl
      cases op <;> cases h <;> rfl

theorem BinaryOp.drift_zero {op : BinaryOp} {v w m n : Option Int64} {s : Int64}
    (hm : ∀ s, m = some s → s = 0) (hn : ∀ s, n = some s → s = 0)
    (h : op.drift v w m n = some s) : s = 0 := by
  cases m with
  | none => cases h
  | some t =>
      cases n with
      | none => cases h
      | some r =>
          obtain rfl := hm t rfl
          obtain rfl := hn r rfl
          cases op <;> cases h <;> rfl

/-! ## Drift of two engines -/

/-- Two stacks of one depth, off by some amounts. -/
inductive Apart (known : Bool) : List (Option Int64) → List Int64 → List Int64 → Prop
  | nil : Apart known [] [] []
  | cons {m : Option Int64} {ms : List (Option Int64)} {a b : Int64} {as bs : List Int64} :
      IsOff known m a b → Apart known ms as bs → Apart known (m :: ms) (a :: as) (b :: bs)

theorem Apart.drop {known : Bool} {ms : List (Option Int64)} {as bs : List Int64}
    (h : Apart known ms as bs) (n : Nat) : Apart known (ms.drop n) (as.drop n) (bs.drop n) := by
  induction h generalizing n with
  | nil => simpa using Apart.nil
  | cons hab hrest ih =>
      cases n with
      | zero => exact .cons hab hrest
      | succ n => exact ih n

/-- What is on top of both stacks. -/
theorem Apart.top {known : Bool} {ms : List (Option Int64)} {as bs : List Int64}
    (h : Apart known ms as bs) {a b : Int64} (ha : as.head? = some a) (hb : bs.head? = some b) :
    IsOff known (ms.headD none) a b := by
  cases h with
  | nil => cases ha
  | cons hab _ =>
      cases ha
      cases hb
      exact hab

/-- The cell of a variable or label. -/
def Engine.symbol? (e : Engine) (full : String) : Option Cell :=
  (e.vars.find? full).or (e.labels.find? full)

/-- How far the values of one pass are off those of another: the values on the
stack, top first, and the symbols. -/
structure Drift where
  stack : List (Option Int64)
  symbols : String → Option Int64

namespace Drift

/-- The drift of two engines that are about to start.  A symbol that has no
value yet may end up anywhere. -/
def between (e d : Engine) : Drift where
  stack := []
  symbols full :=
    match e.symbol? full, d.symbol? full with
    | some c, some c' => if c.isSet then some (c.value - c'.value) else none
    | _, _ => none

/-- The drift of the value on top of the stack. -/
def top (δ : Drift) : Option Int64 := δ.stack.headD none

/-- The drift of what is read from a name.  The program counters show theirs. -/
def read (δ : Drift) (e d : Engine) (name : String) : Option Int64 :=
  match qualify name e.parent with
  | .ok full => if full = pcName then some (e.pc.value - d.pc.value) else δ.symbols full
  | .error _ => none

/-- The drift of labels that both engines place where they are. -/
def placed (e d : Engine) (synthetic : Bool) : Option Int64 :=
  match e.labelAddress? synthetic, d.labelAddress? synthetic with
  | some a, some b => some (Int64.ofNat a.toNat - Int64.ofNat b.toNat)
  | _, _ => none

/-- What a prefix operator makes of the value on top of a stack. -/
def unaryOn (op : UnaryOp) (s : Stack) : Option Int64 := s.values.head?.map op.apply

/-- What an infix operator makes of the two values on top of a stack. -/
def binaryOn (op : BinaryOp) (s : Stack) : Option Int64 :=
  match s.values with
  | b :: a :: _ => op.value? a b
  | _ => none

def stackAfter (δ : Drift) (e d : Engine) : Op → List (Option Int64)
  | .load _ => some 0 :: δ.stack
  | .get name => δ.read e d name :: δ.stack
  | .unary op => op.drift (unaryOn op e.stack) (unaryOn op d.stack) δ.top :: δ.stack.drop 1
  | .binary op =>
    op.drift (binaryOn op e.stack) (binaryOn op d.stack) ((δ.stack.drop 1).headD none) δ.top ::
      δ.stack.drop 2
  | op => δ.stack.drop op.operands

def symbolsAfter (δ : Drift) (e d : Engine) : Op → String → Option Int64
  | .set name =>
    match qualify name e.parent with
    | .ok full => if full = pcName then δ.symbols else Function.update δ.symbols full δ.top
    | .error _ => δ.symbols
  | .label name synthetic =>
    match qualify name e.parent with
    | .ok full => Function.update δ.symbols full (placed e d synthetic)
    | .error _ => δ.symbols
  | _ => δ.symbols

def after (δ : Drift) (e d : Engine) (op : Op) : Drift where
  stack := δ.stackAfter e d op
  symbols := δ.symbolsAfter e d op

/-- Two cells are off by an amount, which is known if there is a value in a strict
pass. -/
def IsOffCell (strict : Bool) (m : Option Int64) (c c' : Cell) : Prop :=
  IsOff (strict && c.isSet) m c.value c'.value

/-- Variables and labels are off by the amounts given, and the second engine is
strict. -/
structure FitsSymbols (f : String → Option Int64) (e d : Engine) : Prop where
  vars : SymbolTable.Pointwise (fun n => IsOffCell e.strict (f n)) e.vars d.vars
  labels : SymbolTable.Pointwise (fun n => IsOffCell e.strict (f n)) e.labels d.labels
  parent : e.parent = d.parent
  apart : e.NamesApart
  strict : d.strict = true

/-- The drift is that of two engines. -/
structure Fits (δ : Drift) (e d : Engine) : Prop where
  stack : Apart e.strict δ.stack e.stack.values d.stack.values
  symbols : FitsSymbols δ.symbols e d

/-! ## Symbols -/

/-- Of the symbols, nothing but the notes that they were read has changed. -/
structure Keeps (e e' : Engine) : Prop where
  vars : SymbolTable.Pointwise (fun _ => Cell.Same) e.vars e'.vars
  labels : SymbolTable.Pointwise (fun _ => Cell.Same) e.labels e'.labels
  parent : e'.parent = e.parent
  pass : e'.pass = e.pass

/-- Does the action give a symbol a value? -/
def defines : Op → Bool
  | .set _ => true
  | .label _ _ => true
  | _ => false

/-- No other action touches more of the symbols than that. -/
theorem keeps_of_run {a : Action} (hspeaks : a.Speaks) (hop : defines a.op = false) {e e' : Engine}
    (h : a.run e = .ok () e') : Keeps e e' := by
  obtain ⟨loc, op, x⟩ := a
  cases hmsg : op.isMessage with
  | true =>
      cases op with
      | message level formatted args =>
          obtain ⟨hkept, -⟩ := message_untouched (hspeaks level formatted args rfl) h
          exact ⟨hkept.vars, hkept.labels, hkept.parent, hkept.pass⟩
      | _ => cases hmsg
  | false =>
      obtain ⟨hstep, hpass⟩ := op.run_symbolStep loc hmsg h
      cases hstep with
      | read vars labels parent _ => exact ⟨vars, labels, parent, hpass⟩
      | assign name full v hset =>
          cases hset
          cases hop
      | place name full synthetic a hlabel =>
          cases hlabel
          cases hop

theorem IsOffCell.of_same {strict : Bool} {m : Option Int64} {c c' d d' : Cell}
    (h : IsOffCell strict m c d) (hc : c.Same c') (hd : d.Same d') : IsOffCell strict m c' d' := by
  unfold IsOffCell
  rw [← hc.1, ← hc.2, ← hd.1]
  exact h

theorem IsOffCell.assign {strict : Bool} {m : Option Int64} {v w : Int64} (h : IsOff strict m v w)
    (c c' : Cell) : IsOffCell strict m (c.assign v) (c'.assign w) := by
  unfold IsOffCell
  rw [show (c.assign v).isSet = true from rfl, Bool.and_true]
  exact h

namespace FitsSymbols

variable {f : String → Option Int64} {e d e' d' : Engine}

theorem of_keeps (h : FitsSymbols f e d) (he : Keeps e e') (hd : Keeps d d') :
    FitsSymbols f e' d' where
  vars := by
    rw [Engine.strict_of_pass_eq he.pass]
    exact (he.vars.flip.comp h.vars fun _ _ _ _ hc hcd => hcd.of_same hc (.refl _)).comp hd.vars
      fun _ _ _ _ hcd hd => hcd.of_same (.refl _) hd
  labels := by
    rw [Engine.strict_of_pass_eq he.pass]
    exact (he.labels.flip.comp h.labels fun _ _ _ _ hc hcd => hcd.of_same hc (.refl _)).comp
      hd.labels fun _ _ _ _ hcd hd => hcd.of_same (.refl _) hd
  parent := he.parent.trans (h.parent.trans hd.parent.symm)
  apart := h.apart.of_names he.vars.names_eq.symm he.labels.names_eq.symm
  strict := (Engine.strict_of_pass_eq hd.pass).trans h.strict

/-- A value that is stored in both is as far off as it was on the stack. -/
theorem assign (h : FitsSymbols f e d) {name full : String} {v w : Int64} {m : Option Int64}
    (hvw : IsOff e.strict m v w) (hq : qualify name e.parent = .ok full) {u u' : Unit}
    (he : Engine.assign name v e = .ok u e') (hd : Engine.assign name w d = .ok u' d') :
    FitsSymbols (if full = pcName then f else Function.update f full m) e' d' := by
  obtain ⟨full₁, hq₁, hcase₁⟩ := Engine.assign_eq_ok.mp he
  obtain ⟨full₂, hq₂, hcase₂⟩ := Engine.assign_eq_ok.mp hd
  rw [← h.parent, hq] at hq₂
  rw [hq] at hq₁
  cases hq₁
  cases hq₂
  rcases hcase₁ with ⟨hpc, rfl⟩ | ⟨hpc, hmem, rfl⟩
  · rcases hcase₂ with ⟨-, rfl⟩ | ⟨hpc', -, -⟩
    · rw [if_pos hpc]
      exact { h with apart := h.apart.of_names rfl rfl }
    · exact absurd hpc hpc'
  · rcases hcase₂ with ⟨hpc', -⟩ | ⟨-, -, rfl⟩
    · exact absurd hpc' hpc
    · rw [if_neg hpc]
      refine { h with vars := ?_, labels := ?_, apart := ?_ }
      · refine h.vars.update_of_ne h.apart.vars full (fun n c c' hne hcc => ?_) fun c c' _ => ?_
        · rw [Function.update_of_ne hne]
          exact hcc
        · rw [Function.update_self]
          exact .assign hvw c c'
      · -- a variable is not a label
        refine h.labels.imp_of_mem fun n c c' hc _ hcc => ?_
        rw [Function.update_of_ne]
        · exact hcc
        · rintro rfl
          exact (h.apart.apart n (List.mem_map.mpr ⟨(n, c), hc, rfl⟩)).2
            (SymbolTable.contains_iff.mp hmem)
      · exact h.apart.of_names (SymbolTable.names_update _ _ _) rfl

/-- A label that is placed in both is as far off as the program counters. -/
theorem place (h : FitsSymbols f e d) {name full : String} {synthetic : Bool}
    (hq : qualify name e.parent = .ok full) {u u' : Unit}
    (he : Engine.placeLabel name synthetic e = .ok u e')
    (hd : Engine.placeLabel name synthetic d = .ok u' d') :
    FitsSymbols (Function.update f full (placed e d synthetic)) e' d' := by
  obtain ⟨full₁, a, hq₁, hmem, ha, rfl⟩ := Engine.placeLabel_eq_ok.mp he
  obtain ⟨full₂, b, hq₂, -, hb, rfl⟩ := Engine.placeLabel_eq_ok.mp hd
  rw [← h.parent, hq] at hq₂
  rw [hq] at hq₁
  cases hq₁
  cases hq₂
  refine { h with vars := ?_, labels := ?_, parent := ?_, apart := ?_ }
  · refine h.vars.imp_of_mem fun n c c' hc _ hcc => ?_
    rw [Function.update_of_ne]
    · exact hcc
    · rintro rfl
      exact (h.apart.apart n (SymbolTable.contains_iff.mp hmem)).2
        (List.mem_map.mpr ⟨(n, c), hc, rfl⟩)
  · refine h.labels.update_of_ne h.apart.labels full (fun n c c' hne hcc => ?_) fun c c' _ => ?_
    · rw [Function.update_of_ne hne]
      exact hcc
    · rw [Function.update_self, placed, ha, hb]
      exact .assign (isOff_sub _ _ _) c c'
  · show (if _ then _ else _) = (if _ then _ else _)
    rw [h.parent]
  · exact h.apart.of_names rfl (SymbolTable.names_update _ _ _)

/-- What is read from a name is off by the drift that is read. -/
theorem read {δ : Drift} (h : FitsSymbols δ.symbols e d) {name full : String} {c c' : Cell}
    (hq : qualify name e.parent = .ok full) (hc : e.cell? full = some c)
    (hc' : d.cell? full = some c') : IsOffCell e.strict (δ.read e d name) c c' := by
  rw [Drift.read, hq]
  dsimp only
  split
  · rename_i hpc
    subst hpc
    cases hc
    cases hc'
    exact isOff_sub _ _ _
  · rename_i hpc
    exact Engine.related_of_cell?
      (r := fun n c c' => n ≠ pcName → IsOffCell e.strict (δ.symbols n) c c')
      (h.vars.imp fun _ _ _ hcc _ => hcc) (h.labels.imp fun _ _ _ hcc _ => hcc)
      (fun hne => absurd rfl hne) hc hc' hpc

end FitsSymbols

/-! ## Actions -/

variable {δ : Drift} {e d e' d' : Engine}

/-- An action that computes a value. -/
theorem Fits.compute (h : δ.Fits e d) {op : Op} {loc : Location} (hop : op.computes = true)
    (he : op.run loc e = .ok () e') (hd : op.run loc d = .ok () d') :
    Apart e.strict (δ.stackAfter e d op) e'.stack.values d'.stack.values := by
  cases op with
  | load v =>
      obtain ⟨_, _, hstart, hpush⟩ := bind_eq_ok.mp he
      obtain ⟨_, _, hstart', hpush'⟩ := bind_eq_ok.mp hd
      obtain rfl := Engine.startOperand_eq_ok.mp hstart
      obtain rfl := Engine.startOperand_eq_ok.mp hstart'
      obtain ⟨-, rfl⟩ := Engine.push_eq_ok.mp hpush
      obtain ⟨-, rfl⟩ := Engine.push_eq_ok.mp hpush'
      exact .cons (isOff_zero rfl) h.stack
  | get name =>
      obtain ⟨full, c, hq, hc, hset, hs, -⟩ := Op.run_get_eq_ok loc he
      obtain ⟨full', c', hq', hc', -, hs', -⟩ := Op.run_get_eq_ok loc hd
      rw [← h.symbols.parent, hq] at hq'
      cases hq'
      rw [hs, hs']
      -- a strict pass reads no symbol without a value, so the amount is known in one
      have hread := h.symbols.read hq hc hc'
      exact .cons ⟨hread.eq_add, fun hstrict => hread.isSome (by rw [hstrict, hset hstrict]; rfl)⟩
        h.stack
  | unary op =>
      obtain ⟨a, _, hpop, hpush⟩ := bind_eq_ok.mp he
      obtain ⟨b, _, hpop', hpush'⟩ := bind_eq_ok.mp hd
      obtain ⟨as, hs, rfl⟩ := Engine.pop_eq_ok.mp hpop
      obtain ⟨bs, hs', rfl⟩ := Engine.pop_eq_ok.mp hpop'
      obtain ⟨-, rfl⟩ := Engine.push_eq_ok.mp hpush
      obtain ⟨-, rfl⟩ := Engine.push_eq_ok.mp hpush'
      have htop := h.stack.top (by rw [hs]; rfl) (by rw [hs']; rfl)
      have hrest := h.stack.drop 1
      rw [hs, hs'] at hrest
      simp only [stackAfter, unaryOn, hs, hs']
      exact .cons (htop.unary op) hrest
  | binary op =>
      obtain ⟨a, b, v, as, hs, hv, hpush⟩ := Engine.applyBinary_eq_ok.mp he
      obtain ⟨a', b', v', bs, hs', hv', hpush'⟩ := Engine.applyBinary_eq_ok.mp hd
      obtain ⟨-, rfl⟩ := Engine.push_eq_ok.mp hpush
      obtain ⟨-, rfl⟩ := Engine.push_eq_ok.mp hpush'
      -- the right operand is on top, the left one below it
      have hright := h.stack.top (by rw [hs]; rfl) (by rw [hs']; rfl)
      have hbelow := h.stack.drop 1
      have hrest := h.stack.drop 2
      rw [hs, hs'] at hbelow hrest
      have hleft := hbelow.top rfl rfl
      simp only [stackAfter, binaryOn, hs, hs', hv, hv']
      exact .cons (hleft.binary hright hv hv') hrest
  | _ => cases hop

/-- An assignment. -/
theorem Fits.set (h : δ.Fits e d) {name : String} (loc : Location)
    (he : (Op.set name).run loc e = .ok () e') (hd : (Op.set name).run loc d = .ok () d') :
    FitsSymbols (δ.symbolsAfter e d (.set name)) e' d' := by
  obtain ⟨a, _, hpop, hassign⟩ := bind_eq_ok.mp he
  obtain ⟨b, _, hpop', hassign'⟩ := bind_eq_ok.mp hd
  obtain ⟨as, hs, rfl⟩ := Engine.pop_eq_ok.mp hpop
  obtain ⟨bs, hs', rfl⟩ := Engine.pop_eq_ok.mp hpop'
  obtain ⟨full, hq, -⟩ := Engine.assign_eq_ok.mp hassign
  have hq : qualify name e.parent = .ok full := hq
  have htop := h.stack.top (by rw [hs]; rfl) (by rw [hs']; rfl)
  have hmid : FitsSymbols δ.symbols { e with stack := ⟨as⟩ } { d with stack := ⟨bs⟩ } :=
    { h.symbols with apart := h.symbols.apart.of_names rfl rfl }
  simp only [symbolsAfter, hq]
  exact hmid.assign htop hq hassign hassign'

/-- A label. -/
theorem Fits.label (h : δ.Fits e d) {name : String} {synthetic : Bool} (loc : Location)
    (he : (Op.label name synthetic).run loc e = .ok () e')
    (hd : (Op.label name synthetic).run loc d = .ok () d') :
    FitsSymbols (δ.symbolsAfter e d (.label name synthetic)) e' d' := by
  obtain ⟨full, -, hq, -⟩ := Engine.placeLabel_eq_ok.mp he
  simp only [symbolsAfter, hq]
  exact h.symbols.place hq he hd

/-- Of the other actions none has to do with drift. -/
theorem stackAfter_of_not_computes {op : Op} (h : op.computes = false) :
    δ.stackAfter e d op = δ.stack.drop op.operands := by
  cases op <;> first | rfl | cases h

theorem symbolsAfter_of_not_defines {op : Op} (h : defines op = false) :
    δ.symbolsAfter e d op = δ.symbols := by
  cases op <;> first | rfl | cases h

/-- An action that both engines run. -/
theorem Fits.run (h : δ.Fits e d) {a : Action} (hspeaks : a.Speaks) (he : a.run e = .ok () e')
    (hd : a.run d = .ok () d') : (δ.after e d a.op).Fits e' d' := by
  obtain ⟨loc, op, x⟩ := a
  constructor
  · rw [Engine.strict_of_pass_eq (Action.run_pass hspeaks he)]
    show Apart e.strict (δ.stackAfter e d op) _ _
    cases hop : op.computes with
    | true => exact h.compute hop he hd
    | false =>
        rw [stackAfter_of_not_computes hop, Action.run_operands hspeaks hop he,
          Action.run_operands hspeaks hop hd]
        exact h.stack.drop _
  · show FitsSymbols (δ.symbolsAfter e d op) _ _
    cases hdef : defines op with
    | false =>
        rw [symbolsAfter_of_not_defines hdef]
        exact h.symbols.of_keeps (keeps_of_run hspeaks hdef he) (keeps_of_run hspeaks hdef hd)
    | true =>
        cases op with
        | set name => exact h.set loc he hd
        | label name synthetic => exact h.label loc he hd
        | _ => cases hdef

theorem Fits.atAction (h : δ.Fits e d) (a : Action) : δ.Fits (e.atAction a) (d.atAction a) where
  stack := h.stack
  symbols := { h.symbols with apart := h.symbols.apart.of_names rfl rfl }

theorem Fits.afterJump (h : δ.Fits e d) : δ.Fits e.afterJump d.afterJump where
  stack := h.stack
  symbols := { h.symbols with apart := h.symbols.apart.of_names rfl rfl }

/-! ## Nothing off -/

/-- Whatever is known to be off is off by nothing. -/
structure Still (δ : Drift) : Prop where
  stack : ∀ m ∈ δ.stack, ∀ s, m = some s → s = 0
  symbols : ∀ n s, δ.symbols n = some s → s = 0

theorem Still.headD (h : δ.Still) (n : Nat) {s : Int64}
    (hs : (δ.stack.drop n).headD none = some s) : s = 0 := by
  cases hstack : δ.stack.drop n with
  | nil =>
      rw [hstack] at hs
      cases hs
  | cons m ms =>
      rw [hstack] at hs
      exact h.stack m (List.mem_of_mem_drop (hstack ▸ List.mem_cons_self)) s hs

theorem Still.drop (h : δ.Still) (n : Nat) : ∀ m ∈ δ.stack.drop n, ∀ s, m = some s → s = 0 :=
  fun m hm => h.stack m (List.mem_of_mem_drop hm)

theorem placed_zero (hpc : e.pc.Same d.pc) {synthetic : Bool} {s : Int64}
    (hs : placed e d synthetic = some s) : s = 0 := by
  have haddress : e.labelAddress? synthetic = d.labelAddress? synthetic := by
    unfold Engine.labelAddress? Engine.pcAddress?
    rw [hpc.1, hpc.2]
  unfold placed at hs
  rw [haddress] at hs
  split at hs
  · rename_i a b ha hb
    rw [Option.some.inj (ha.symm.trans hb), Int64.sub_self] at hs
    exact (Option.some.inj hs).symm
  · cases hs

/-- Where the program counters are equal, nothing more is off. -/
theorem Still.after (h : δ.Still) (hpc : e.pc.Same d.pc) (op : Op) : (δ.after e d op).Still where
  stack := by
    show ∀ m ∈ δ.stackAfter e d op, _
    cases op with
    -- loads have no drift, and what is computed from still values is still
    | load v => exact List.forall_mem_cons.mpr ⟨fun s hs => (Option.some.inj hs).symm, h.stack⟩
    | get name =>
        refine List.forall_mem_cons.mpr ⟨fun s hs => ?_, h.stack⟩
        unfold read at hs
        split at hs
        · split at hs
          · rw [hpc.1, Int64.sub_self] at hs
            exact (Option.some.inj hs).symm
          · exact h.symbols _ s hs
        · cases hs
    | unary op =>
        exact List.forall_mem_cons.mpr
          ⟨fun s hs => UnaryOp.drift_zero (fun _ => h.headD 0) hs, h.drop 1⟩
    | binary op =>
        exact List.forall_mem_cons.mpr
          ⟨fun s hs => BinaryOp.drift_zero (fun _ => h.headD 1) (fun _ => h.headD 0) hs, h.drop 2⟩
    | _ => exact h.drop _
  symbols := by
    show ∀ n s, δ.symbolsAfter e d op n = some s → s = 0
    -- a symbol gets the drift of what is assigned to it
    have hupdate : ∀ {full m}, (∀ s, m = some s → s = 0) → ∀ n s,
        Function.update δ.symbols full m n = some s → s = 0 := by
      intro full m hm n s hs
      by_cases hn : n = full
      · subst hn
        rw [Function.update_self] at hs
        exact hm s hs
      · rw [Function.update_of_ne hn] at hs
        exact h.symbols n s hs
    cases op with
    | set name =>
        cases hq : qualify name e.parent with
        | error err =>
            simp only [symbolsAfter, hq]
            exact h.symbols
        | ok full =>
            simp only [symbolsAfter, hq]
            split
            · exact h.symbols
            · exact hupdate fun _ => h.headD 0
    | label name synthetic =>
        cases hq : qualify name e.parent with
        | error err =>
            simp only [symbolsAfter, hq]
            exact h.symbols
        | ok full =>
            simp only [symbolsAfter, hq]
            exact hupdate fun _ => placed_zero hpc
    | _ => exact h.symbols

end Drift

/-! ## Executions that go together -/

namespace Code

/-- Two executions come to the same actions, with as many jumps left, and drift
apart as they do. -/
inductive Together (code : Code) (n : Nat) (k : List Action) (e d : Engine) :
    Nat → List Action → Drift → Engine → Engine → Prop
  | start : Together code n k e d n k (.between e d) e d
  | next {m : Nat} {a : Action} {l : List Action} {δ : Drift} {e₁ e₂ d₁ d₂ : Engine} :
      Together code n k e d m (a :: l) δ e₁ d₁ → a.run (e₁.atAction a) = .ok () e₂ →
      a.run (d₁.atAction a) = .ok () d₂ → e₂.jump = none → d₂.jump = none →
      Together code n k e d m l (δ.after (e₁.atAction a) (d₁.atAction a) a.op) e₂ d₂
  | jump {m : Nat} {a : Action} {j : Int} {l l' : List Action} {δ : Drift} {e₁ e₂ d₁ d₂ : Engine} :
      Together code n k e d (m + 1) (a :: l) δ e₁ d₁ → a.run (e₁.atAction a) = .ok () e₂ →
      a.run (d₁.atAction a) = .ok () d₂ → e₂.jump = some j → d₂.jump = some j →
      code.target? j = some l' →
      Together code n k e d m l' (δ.after (e₁.atAction a) (d₁.atAction a) a.op) e₂.afterJump
        d₂.afterJump

/-- As far as they go together, two executions lay out the same addresses, from
symbols that are not off. -/
structure Steady (code : Code) (n : Nat) (k : List Action) (e d : Engine) : Prop where
  still : (Drift.between e d).Still
  pc : ∀ m l δ e₁ d₁, code.Together n k e d m l δ e₁ d₁ → e₁.pc.Same d₁.pc

section Runs

variable {code : Code} {n m : Nat} {a : Action} {k l : List Action} {e d e₁ d₁ : Engine}
  {δ : Drift}

/-- The drift along executions that go together is that of their engines. -/
theorem Together.fits (h : code.Together n k e d m l δ e₁ d₁) (hstart : (Drift.between e d).Fits e d)
    (hk : ∀ a ∈ k, a.Speaks) (htargets : ∀ j k, code.target? j = some k → ∀ a ∈ k, a.Speaks) :
    δ.Fits e₁ d₁ ∧ ∀ a ∈ l, a.Speaks := by
  induction h with
  | start => exact ⟨hstart, hk⟩
  | next _ he hd _ _ ih =>
      obtain ⟨hfits, hl⟩ := ih
      obtain ⟨ha, hl⟩ := List.forall_mem_cons.mp hl
      exact ⟨(hfits.atAction _).run ha he hd, hl⟩
  | jump _ he hd _ _ ht ih =>
      obtain ⟨hfits, hl⟩ := ih
      obtain ⟨ha, -⟩ := List.forall_mem_cons.mp hl
      exact ⟨((hfits.atAction _).run ha he hd).afterJump, htargets _ _ ht⟩

/-- Where an execution fails and another completes, the two go together up to
an action that fails in the first only, or jumps in one only. -/
inductive Parts (code : Code) (n : Nat) (k : List Action) (e d : Engine) (err : Error) : Prop
  | fails {m : Nat} {a : Action} {l : List Action} {δ : Drift} {e₁ e₂ d₁ d₂ : Engine}
      {err' : Error} :
      code.Together n k e d m (a :: l) δ e₁ d₁ → a.run (e₁.atAction a) = .error err' e₂ →
      a.run (d₁.atAction a) = .ok () d₂ → err = err'.atAction a → Parts code n k e d err
  | strays {m : Nat} {a : Action} {l : List Action} {δ : Drift} {e₁ e₂ e' d₁ d₂ : Engine} :
      code.Together n k e d m (a :: l) δ e₁ d₁ → a.run (e₁.atAction a) = .ok () e₂ →
      a.run (d₁.atAction a) = .ok () d₂ → e₂.jump ≠ d₂.jump →
      code.runFrom m (a :: l) e₁ = .error err e' → Parts code n k e d err

theorem Together.parts (h : code.Together n k e d m l δ e₁ d₁) {ws : List Visit} {e' d' : Engine}
    {err : Error} (hruns : code.Runs m l d₁ ws d') (hfail : code.runFrom m l e₁ = .error err e') :
    Parts code n k e d err := by
  -- the induction is on the execution that completes
  induction hruns generalizing δ e₁ with
  | done =>
      rw [runFrom_nil] at hfail
      cases hfail
  | @next m a l d₁ d₂ _ _ hd hj _ ih =>
      cases he : a.run (e₁.atAction a) with
      | error err' e₂ =>
          rw [runFrom_cons, he] at hfail
          cases hfail
          exact .fails h he hd rfl
      | ok u e₂ =>
          by_cases hjump : e₂.jump = d₂.jump
          · have hj' := hjump.trans hj
            rw [runFrom_next he hj'] at hfail
            exact ih (.next h he hd hj' hj) hfail
          · exact .strays h he hd hjump hfail
  | @jump m a j l l' d₁ d₂ _ _ hd hj ht _ ih =>
      cases he : a.run (e₁.atAction a) with
      | error err' e₂ =>
          rw [runFrom_cons, he] at hfail
          cases hfail
          exact .fails h he hd rfl
      | ok u e₂ =>
          by_cases hjump : e₂.jump = d₂.jump
          · have hj' := hjump.trans hj
            rw [runFrom_jump he hj' ht] at hfail
            exact ih (.jump h he hd hj' hj ht) hfail
          · exact .strays h he hd hjump hfail

theorem Together.still (h : code.Together n k e d m l δ e₁ d₁) (hsteady : code.Steady n k e d) :
    δ.Still := by
  induction h with
  | start => exact hsteady.still
  | next h _ _ _ _ ih => exact ih.after (hsteady.pc _ _ _ _ _ h) _
  | jump h _ _ _ _ _ ih => exact ih.after (hsteady.pc _ _ _ _ _ h) _

end Runs

end Code

end Mos6510
