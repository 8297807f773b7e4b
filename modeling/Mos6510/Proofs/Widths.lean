import Mos6510.Proofs.Emission
import Mos6510.Proofs.Folding
import Mos6510.Proofs.Modes

/-!
# Early and late choice of the width

The mode of a direct operand is settled when the instruction is read if the
value of the operand is known by then, and by the passes if it is not.

* `Mnemonic.earlyOpcode?`, `Mnemonic.lateOpcode?`: the encoding that each of
  the two chooses for a value;
* `lateOpcode?_eq`: they choose the same, but for large values where there is
  a zero page encoding and no absolute one;
* `direct_encodings_agree`: what is chosen for a value is encoded alike, be the value a
  constant or read from a symbol.
-/

namespace Mos6510

open Outcome

/-- Assemble an instruction with a direct operand: choose its actions, then
run them.  What cannot be chosen is reported at the instruction. -/
def assembleDirect (loc : Location) (mnemonic : String) (index : Index) (expr : List Action) :
    EngineM Unit := fun e =>
  match Operand.resolve loc mnemonic { form := .direct, index := index, expr := expr } with
  | .ok acts => performAll acts e
  | .error err => .error (err.atLocation loc) e

/-! ## The choices -/

/-- Is the value an address in the zero page? -/
def isShort (v : Int64) : Bool := decide (v &&& 0xFFFF < 256)

namespace Mnemonic

/-- The encoding for a direct operand whose value is known when the
instruction is read. -/
def earlyOpcode? (m : Mnemonic) (index : Index) (v : Int64) : Option Opcode :=
  if m.isBranch then if index = .none then m.encoding? .relative else none
  else m.encoding? (Engine.directMode index (isShort v && m.has (Engine.directMode index true)))

/-- The encoding for a direct operand whose value the passes find.  Only one
with both a zero page and an absolute encoding goes by the value. -/
def lateOpcode? (m : Mnemonic) (index : Index) (v : Int64) : Option Opcode :=
  if m.isBranch then if index = .none then m.encoding? .relative else none
  else if m.has (Engine.directMode index true) && m.has (Engine.directMode index false) then
    m.encoding? (Engine.directMode index (isShort v))
  else m.encoding? (Engine.directMode index (m.has (Engine.directMode index true)))

/-- Does the mnemonic have a zero page encoding for the index, and no absolute
one? -/
def shortOnly (m : Mnemonic) (index : Index) : Bool :=
  m.has (Engine.directMode index true) && !m.has (Engine.directMode index false)

/-- There are three such forms. -/
theorem shortOnly_iff (m : Mnemonic) (index : Index) :
    m.shortOnly index = true ↔ (m, index) ∈ [(stx, Index.y), (sty, .x), (sax, .y)] := by
  have hforms : ∀ index ∈ Index.all, ∀ m ∈ withMode (Engine.directMode index true),
      m ∉ withMode (Engine.directMode index false) →
        (m, index) ∈ [(stx, Index.y), (sty, .x), (sax, .y)] := by
    decide +kernel
  have hthree : ∀ form ∈ [(stx, Index.y), (sty, .x), (sax, .y)],
      form.1 ∈ withMode (Engine.directMode form.2 true) ∧
        form.1 ∉ withMode (Engine.directMode form.2 false) := by
    decide +kernel
  have hshort : m.shortOnly index = true ↔ m ∈ withMode (Engine.directMode index true) ∧
      m ∉ withMode (Engine.directMode index false) := by
    rw [← has_iff, ← has_iff]
    simp [shortOnly]
  rw [hshort]
  constructor
  · rintro ⟨hmem, hnot⟩
    exact hforms index (by cases index <;> decide) m hmem hnot
  · intro hmem
    exact hthree (m, index) hmem

/-- Both choices agree, unless a large value meets a mnemonic that has only a
zero page encoding. -/
theorem lateOpcode?_eq {m : Mnemonic} {index : Index} {v : Int64}
    (h : m.shortOnly index = false ∨ isShort v = true) :
    m.lateOpcode? index v = m.earlyOpcode? index v := by
  unfold lateOpcode? earlyOpcode?
  unfold shortOnly at h
  cases hbranch : m.isBranch with
  | true => rw [if_pos rfl, if_pos rfl]
  | false =>
      cases hshort : m.has (Engine.directMode index true) <;>
        cases hlong : m.has (Engine.directMode index false) <;>
          cases hv : isShort v <;> simp_all

/-- There the early choice has no encoding to take, the late one has. -/
theorem opcodes_of_shortOnly {m : Mnemonic} {index : Index} {v : Int64}
    (h : m.shortOnly index = true) (hv : isShort v = false) :
    m.earlyOpcode? index v = none ∧
      ∃ op, m.encoding? (Engine.directMode index true) = some op ∧
        m.lateOpcode? index v = some op := by
  simp only [shortOnly, Bool.and_eq_true, Bool.not_eq_true'] at h
  obtain ⟨hshort, hlong⟩ := h
  have hbranch := isBranch_of_has hshort (by cases index <;> nofun)
  obtain ⟨op, hop⟩ := Option.isSome_iff_exists.mp hshort
  have hnone : m.encoding? (Engine.directMode index false) = none := by
    simpa [has] using hlong
  refine ⟨?_, op, hop, ?_⟩
  · simp [earlyOpcode?, hbranch, hv, hnone]
  · simp [lateOpcode?, hbranch, hshort, hlong, hop]

/-- An encoding for a direct operand. -/
inductive EncodesDirect (m : Mnemonic) (index : Index) (op : Opcode) : Prop
  | branch : m.isBranch = true → m.encoding? .relative = some op → EncodesDirect m index op
  | plain (small : Bool) : m.encoding? (Engine.directMode index small) = some op →
      EncodesDirect m index op

namespace EncodesDirect

variable {m : Mnemonic} {index : Index} {v : Int64} {op : Opcode}

theorem of_early (h : m.earlyOpcode? index v = some op) : EncodesDirect m index op := by
  unfold earlyOpcode? at h
  split at h
  · rename_i hbranch
    split at h
    · exact .branch hbranch h
    · cases h
  · exact .plain _ h

theorem of_late (h : m.lateOpcode? index v = some op) : EncodesDirect m index op := by
  unfold lateOpcode? at h
  split at h
  · rename_i hbranch
    split at h
    · exact .branch hbranch h
    · cases h
  · split at h
    · exact .plain _ h
    · exact .plain _ h

/-- Its operand is on the stack. -/
theorem mode_ne_implied (h : EncodesDirect m index op) : op.mode ≠ .implied := by
  cases h with
  | branch _ hop =>
      rw [(encoding?_eq_some hop).2]
      nofun
  | plain small hop =>
      rw [(encoding?_eq_some hop).2]
      cases index <;> cases small <;> nofun

theorem isBranch (h : EncodesDirect m index op) (hmode : op.mode = .relative) :
    m.isBranch = true := by
  cases h with
  | branch hbranch _ => exact hbranch
  | plain small hop =>
      rw [(encoding?_eq_some hop).2] at hmode
      cases index <;> cases small <;> cases hmode

end EncodesDirect

/-- A branch without an index always has an encoding. -/
theorem lateOpcode?_ne_none {m : Mnemonic} (hbranch : m.isBranch = true) (v : Int64) :
    m.lateOpcode? .none v ≠ none := by
  have hmem : Mode.relative ∈ m.modes := by
    unfold isBranch at hbranch
    rw [beq_iff_eq.mp hbranch]
    exact List.mem_singleton_self _
  have hhas : m.has .relative = true := (List.mem_filter.mp hmem).2
  rw [lateOpcode?, if_pos hbranch, if_pos rfl]
  exact Option.isSome_iff_ne_none.mp hhas

end Mnemonic

/-! ## What is encoded -/

namespace Engine

/-- The pass, the bytes so far, and where the next one goes. -/
def place (e : Engine) : Pass × List Region × Option UInt16 := (e.pass, e.regions, e.pcAddress?)

theorem Untouched.place_eq {e e' : Engine} (h : e.Untouched e') : e'.place = e.place := by
  unfold place pcAddress?
  rw [h.pass, h.regions, h.pc.1, h.pc.2]

end Engine

/-- Evaluating an expression emits nothing. -/
theorem Expr.performAll_place (x : Expr) : Keeps Engine.place (performAll x.actions) := by
  have hplain : ∀ (loc : Location) (op : Op), Keeps Engine.place (op.run loc) →
      Keeps Engine.place (performAll [Action.plain loc op]) := by
    intro loc op hop e u e' h
    rw [performAll_single] at h
    have hkept := hop (perform_eq_ok.mp h)
    exact hkept
  induction x with
  | number loc value => exact hplain loc _ fun _ _ _ h => (load_pushed h).1.place_eq
  | symbol loc name => exact hplain loc _ fun _ _ _ h => (get_pushed h).1.place_eq
  | unary loc op x ih =>
      rw [actions, performAll_append]
      refine ih.bind fun _ => hplain loc _ fun e u e' h => ?_
      obtain ⟨v, e₁, hpop, hpush⟩ := bind_eq_ok.mp h
      obtain ⟨rest, -, rfl⟩ := Engine.pop_eq_ok.mp hpop
      obtain ⟨-, rfl⟩ := Engine.push_eq_ok.mp hpush
      rfl
  | binary loc op x y ihx ihy =>
      rw [actions, performAll_append, performAll_append]
      refine ihx.bind fun _ => ihy.bind fun _ => hplain loc _ fun e u e' h => ?_
      obtain ⟨a, b, v, rest, -, -, hpush⟩ := Engine.applyBinary_eq_ok.mp h
      obtain ⟨-, rfl⟩ := Engine.push_eq_ok.mp hpush
      rfl

/-- The outcome adds these bytes of code to some regions at an address, and the
program counter moves behind them. -/
def Assembles (rs : List Region) (a : UInt16) (bs : List UInt8)
    (r : EStateM.Result Error Engine Unit) : Prop :=
  ∃ e, r = .ok () e ∧ e.regions = Engine.extendAll .code a bs rs ∧
    e.pcAddress? = some (a + UInt16.ofNat bs.length)

/-- The outcome is an error. -/
def FailsWith (err : Error) (r : EStateM.Result Error Engine Unit) : Prop := ∃ e, r = .error err e

/-- What comes of a value at an address where an encoding was chosen, or none. -/
inductive Encodes (loc : Location) (v : Int64) (rs : List Region) (a : UInt16)
    (r : EStateM.Result Error Engine Unit) : Option Opcode → Prop
  /-- There is no encoding to choose. -/
  | illegal : FailsWith (.located loc .illegalMode) r → Encodes loc v rs a r none
  /-- The instruction is encoded. -/
  | bytes (op : Opcode) : op.Reaches a v → Assembles rs a (op.bytes a v) r →
      Encodes loc v rs a r (some op)
  /-- A branch does not reach. -/
  | unreachable (op : Opcode) : op.mode = .relative → ¬op.Reaches a v →
      FailsWith (.located loc (.branchReach (Engine.branchDistance v (a + 1)))) r →
      Encodes loc v rs a r (some op)

section Encoding

variable {loc : Location} {v : Int64} {a : UInt16} {op : Opcode} {d : Engine}

theorem encode_assembles (hmode : op.mode ≠ .implied) (hstack : d.stack.values = [v])
    (hstrict : d.strict = true) (ha : d.pcAddress? = some a) (hroom : a.toNat + 3 < 0x10000)
    (hreach : op.Reaches a v) : Assembles d.regions a (op.bytes a v) (Engine.encode op d) := by
  have htake : op.takeOperand? d.stack = some (v, ⟨[]⟩) := by
    rw [Opcode.takeOperand?, if_neg hmode, hstack]
  have hshort : op.length ≤ 3 := by
    unfold Opcode.length
    cases op.mode <;> decide
  have hemits : Engine.Emits .code (op.bytes a v) { d with stack := ⟨[]⟩ }
      ({ d with stack := ⟨[]⟩ }.emittedAll .code a (op.bytes a v)) := by
    refine ⟨a, ha, ?_, rfl⟩
    rw [Opcode.length_bytes]
    omega
  refine ⟨_, (Engine.encode_eq_ok_iff hstrict).mpr ⟨v, ⟨[]⟩, a, htake, ha, hreach, hemits⟩, ?_, ?_⟩
  · exact Engine.regions_emittedAll _ _ _ _
  · exact Engine.pcAddress?_emittedAll (e := { d with stack := ⟨[]⟩ }) ha .code _

/-- With its operand on the stack and enough room, an instruction is encoded
or its branch does not reach. -/
theorem perform_encodes {enc : Op} (hrun : ∀ d : Engine, d.stack.values = [v] →
      enc.run loc d = Engine.encode op d)
    (hmode : op.mode ≠ .implied) (hstack : d.stack.values = [v]) (hstrict : d.strict = true)
    (ha : d.pcAddress? = some a) (hroom : a.toNat + 3 < 0x10000) :
    Encodes loc v d.regions a ((Action.plain loc enc).perform d) (some op) := by
  have hlocated := hrun { d with location := loc } hstack
  by_cases hreach : op.Reaches a v
  · obtain ⟨e', hencode, hregions, hpc⟩ := encode_assembles (d := { d with location := loc }) hmode
      hstack hstrict ha hroom hreach
    exact .bytes op hreach ⟨e', perform_eq_ok.mpr (hlocated.trans hencode), hregions, hpc⟩
  · have hrelative : op.mode = .relative := by
      by_contra hnot
      exact hreach fun h => absurd h hnot
    obtain ⟨e', hfail⟩ := Engine.encode_unreachable (e := { d with location := loc }) hstrict hstack
      ha (by omega) hrelative fun h => hreach fun _ => h
    exact .unreachable op hrelative hreach ⟨e', perform_eq_error (hlocated.trans hfail)⟩

end Encoding

/-! ## Constants and symbols -/

section Choices

variable {loc : Location} {mnemonic : String} {m : Mnemonic} {index : Index} {v : Int64}
  {a : UInt16} {e d : Engine} {expr lowered : List Action}

/-- The outcome of a choice: the operand is followed by an action that encodes
its value, or there is no encoding. -/
inductive Chosen (loc : Location) (v : Int64) (lowered : List Action) :
    Except Error (List Action) → Option Opcode → Prop
  | illegal : Chosen loc v lowered (.error .illegalMode) none
  | encoder (op : Opcode) (enc : Op) :
      (∀ d : Engine, d.stack.values = [v] → enc.run loc d = Engine.encode op d) →
      Chosen loc v lowered (.ok (lowered ++ [Action.plain loc enc])) (some op)

theorem fixed_chosen (loc : Location) (m : Mnemonic) (lowered : List Action) (mode : Mode)
    (v : Int64) : Chosen loc v lowered (Operand.fixed loc m lowered mode) (m.encoding? mode) := by
  unfold Operand.fixed
  cases hop : m.encoding? mode with
  | none => exact .illegal
  | some op =>
      refine .encoder op _ fun d _ => ?_
      show Engine.encode (Opcode.ofCode op.code) d = Engine.encode op d
      rw [(Mnemonic.encoding?_eq_some hop).1]

/-- The actions of an instruction whose operand is folded to some actions. -/
theorem resolve_direct (hm : Mnemonic.ofName? mnemonic = some m)
    (hfold : foldConstant expr = .ok lowered) :
    Operand.resolve loc mnemonic { form := .direct, index := index, expr := expr } =
      if m.isBranch then
        if index = .none then Operand.fixed loc m lowered .relative else .error .illegalMode
      else Operand.direct loc m index lowered := by
  simp [Operand.resolve, hm, hfold, OperandForm.mode?]

/-- A constant operand settles the choice. -/
theorem resolve_constant (loc : Location) (index : Index) (hm : Mnemonic.ofName? mnemonic = some m)
    (hv : constantValue? expr = .ok (some v)) :
    ∃ loc', Chosen loc v [Action.load loc' v]
      (Operand.resolve loc mnemonic { form := .direct, index := index, expr := expr })
      (m.earlyOpcode? index v) := by
  obtain ⟨first, rest, rfl⟩ := List.exists_cons_of_ne_nil (constantValue?_eq_some hv).1
  have hfold : foldConstant (first :: rest) = .ok [Action.load first.location v] := by
    rw [foldConstant, hv]
  -- folding leaves one load, which is a constant again
  have hload : constantValue? [Action.load first.location v] = .ok (some v) := rfl
  refine ⟨first.location, ?_⟩
  rw [resolve_direct hm hfold, Mnemonic.earlyOpcode?]
  split
  · split
    · exact fixed_chosen loc m _ _ v
    · exact .illegal
  · unfold Operand.direct isShort
    rw [hload]
    dsimp only
    split
    · rename_i hneither
      rw [Bool.and_eq_true, Bool.not_eq_true', Bool.not_eq_true'] at hneither
      have hnone : m.encoding? (Engine.directMode index false) = none := by
        simpa [Mnemonic.has] using hneither.2
      rw [hneither.1, Bool.and_false, hnone]
      exact .illegal
    · split
      · rename_i hshort
        rw [hshort]
        exact fixed_chosen loc m _ _ v
      · rename_i hlong
        rw [(Bool.not_eq_true _).mp hlong]
        exact fixed_chosen loc m _ _ v

/-- Any other operand leaves the choice to its value, or to the only encoding
there is. -/
theorem resolve_symbolic (hm : Mnemonic.ofName? mnemonic = some m)
    (hnone : constantValue? expr = .ok none) (hfold : foldConstant expr = .ok expr) (v : Int64) :
    Chosen loc v expr
      (Operand.resolve loc mnemonic { form := .direct, index := index, expr := expr })
      (m.lateOpcode? index v) := by
  rw [resolve_direct hm hfold, Mnemonic.lateOpcode?]
  split
  · split
    · exact fixed_chosen loc m _ _ v
    · exact .illegal
  · unfold Operand.direct
    rw [hnone]
    dsimp only
    cases hshort : m.has (Engine.directMode index true) <;>
      cases hlong : m.has (Engine.directMode index false) <;>
        simp only [Bool.not_true, Bool.not_false, Bool.and_true, Bool.and_false, Bool.and_self,
          Bool.false_eq_true, if_true, if_false]
    · have hno : m.encoding? (Engine.directMode index false) = none := by
        simpa [Mnemonic.has] using hlong
      rw [hno]
      exact .illegal
    · exact fixed_chosen loc m expr _ v
    · exact fixed_chosen loc m expr _ v
    · -- the passes look at the value
      have hhas : m.has (Engine.directMode index (isShort v)) = true := by
        cases isShort v
        · exact hlong
        · exact hshort
      obtain ⟨op, hop⟩ := Option.isSome_iff_exists.mp hhas
      rw [hop]
      refine .encoder op _ fun d hd => ?_
      show Engine.encodeWidth m.name index d = Engine.encode op d
      have hpeek : Engine.peek d = .ok v d := Engine.peek_eq_ok.mpr ⟨⟨[], hd⟩, rfl⟩
      have hchoice : ((Mnemonic.ofName? m.name).bind fun m =>
          m.encoding? (Engine.directMode index (decide (v &&& 0xFFFF < 256)))) = some op := by
        rw [Mnemonic.ofName?_name, Option.bind_some]
        exact hop
      unfold Engine.encodeWidth
      rw [bind_of_ok hpeek]
      simp only [hchoice]

/-- The chosen actions encode the value that the operand leaves on the stack;
finding it emits nothing. -/
theorem Chosen.encodes {choice : Option Opcode}
    (h : Chosen loc v lowered
      (Operand.resolve loc mnemonic { form := .direct, index := index, expr := expr }) choice)
    (hmode : ∀ op, choice = some op → op.mode ≠ .implied)
    (hoperand : performAll lowered e = .ok () d) (hplace : d.place = e.place)
    (hstack : d.stack.values = [v]) (hstrict : e.strict = true) (ha : e.pcAddress? = some a)
    (hroom : a.toNat + 3 < 0x10000) :
    Encodes loc v e.regions a (assembleDirect loc mnemonic index expr e) choice := by
  simp only [Engine.place, Prod.mk.injEq] at hplace
  obtain ⟨hpass, hregions, hpc⟩ := hplace
  unfold assembleDirect
  generalize Operand.resolve loc mnemonic _ = acts at h ⊢
  cases h with
  | illegal => exact .illegal ⟨e, rfl⟩
  | encoder op enc hrun =>
      have hd : d.strict = true := (Engine.strict_of_pass_eq hpass).trans hstrict
      -- the operand stays on the stack for the instruction behind it
      have hlast := perform_encodes hrun (hmode op rfl) hstack hd (hpc.trans ha) hroom
      have hall : performAll (lowered ++ [Action.plain loc enc]) e =
          (Action.plain loc enc).perform d := by
        rw [performAll_append, performAll_single]
        exact bind_of_ok hoperand
      rw [hregions, ← hall] at hlast
      exact hlast

/-- An expression that reads a symbol is not constant. -/
theorem not_constant_of_get (h : ∃ loc name, Action.get loc name ∈ expr) :
    constantValue? expr = .ok none ∧ foldConstant expr = .ok expr := by
  obtain ⟨loc, name, hmem⟩ := h
  have hnot : isConstantExpr expr = false := by
    rw [isConstantExpr, Bool.and_eq_false_iff]
    right
    rw [List.all_eq_false]
    exact ⟨_, hmem, Bool.false_ne_true⟩
  obtain ⟨first, rest, rfl⟩ := List.exists_cons_of_ne_nil (List.ne_nil_of_mem hmem)
  have hnone : constantValue? (first :: rest) = .ok none := by
    rw [constantValue?, hnot, if_neg Bool.false_ne_true]
  exact ⟨hnone, by rw [foldConstant, hnone]⟩

theorem constant_encodes (loc : Location) (index : Index) (hm : Mnemonic.ofName? mnemonic = some m)
    (hv : constantValue? expr = .ok (some v)) (he : e.stack.values = []) (hstrict : e.strict = true)
    (ha : e.pcAddress? = some a) (hroom : a.toNat + 3 < 0x10000) :
    Encodes loc v e.regions a (assembleDirect loc mnemonic index expr e)
      (m.earlyOpcode? index v) := by
  obtain ⟨loc', hchosen⟩ := resolve_constant loc index hm hv
  exact hchosen.encodes (fun op hop => (Mnemonic.EncodesDirect.of_early hop).mode_ne_implied)
    (perform_load he) rfl rfl hstrict ha hroom

theorem symbolic_encodes (loc : Location) (index : Index)
    (hm : Mnemonic.ofName? mnemonic = some m) {x : Expr}
    (hget : ∃ loc name, Action.get loc name ∈ x.actions) (hx : performAll x.actions e = .ok () d)
    (hstack : d.stack.values = [v]) (hstrict : e.strict = true)
    (ha : e.pcAddress? = some a) (hroom : a.toNat + 3 < 0x10000) :
    Encodes loc v e.regions a (assembleDirect loc mnemonic index x.actions e)
      (m.lateOpcode? index v) := by
  obtain ⟨hnone, hfold⟩ := not_constant_of_get hget
  exact (resolve_symbolic hm hnone hfold v).encodes
    (fun op hop => (Mnemonic.EncodesDirect.of_late hop).mode_ne_implied)
    hx (x.performAll_place hx) hstack hstrict ha hroom

end Choices

/-! ## Agreement -/

/-- Two outcomes of an instruction at an address: the same bytes, or the same
refusal. -/
inductive SameEncoding (loc : Location) (branch : Bool) (index : Index) (rs : List Region)
    (a : UInt16) (r₁ r₂ : EStateM.Result Error Engine Unit) : Prop
  | bytes (bs : List UInt8) : bs ≠ [] → Assembles rs a bs r₁ → Assembles rs a bs r₂ →
      SameEncoding loc branch index rs a r₁ r₂
  /-- A branch is refused only for its index. -/
  | illegal : (branch = true → index ≠ .none) → FailsWith (.located loc .illegalMode) r₁ →
      FailsWith (.located loc .illegalMode) r₂ → SameEncoding loc branch index rs a r₁ r₂
  /-- Only a branch can be out of reach. -/
  | unreachable (d : Int64) : branch = true → FailsWith (.located loc (.branchReach d)) r₁ →
      FailsWith (.located loc (.branchReach d)) r₂ → SameEncoding loc branch index rs a r₁ r₂

/-- A refusal and some bytes are not the same outcome. -/
theorem SameEncoding.not_refused {loc : Location} {branch : Bool} {index : Index}
    {rs : List Region} {a : UInt16} {bs : List UInt8} {err : Error}
    {r₁ r₂ : EStateM.Result Error Engine Unit} (h : SameEncoding loc branch index rs a r₁ r₂)
    (h₁ : FailsWith err r₁) (h₂ : Assembles rs a bs r₂) : False := by
  obtain ⟨e₁, rfl⟩ := h₁
  obtain ⟨e₂, rfl, -, -⟩ := h₂
  cases h with
  | bytes _ _ hbytes _ =>
      obtain ⟨_, heq, -⟩ := hbytes
      cases heq
  | illegal _ _ hfails =>
      obtain ⟨_, heq⟩ := hfails
      cases heq
  | unreachable _ _ _ hfails =>
      obtain ⟨_, heq⟩ := hfails
      cases heq

/-- One choice has one outcome. -/
theorem Encodes.same {loc : Location} {m : Mnemonic} {index : Index} {v : Int64}
    {rs : List Region} {a : UInt16} {r₁ r₂ : EStateM.Result Error Engine Unit}
    (h₁ : Encodes loc v rs a r₁ (m.lateOpcode? index v))
    (h₂ : Encodes loc v rs a r₂ (m.lateOpcode? index v)) :
    SameEncoding loc m.isBranch index rs a r₁ r₂ := by
  cases hchoice : m.lateOpcode? index v with
  | none =>
      rw [hchoice] at h₁ h₂
      -- a branch without an index always has an encoding
      have hindex : m.isBranch = true → index ≠ .none := by
        rintro hbranch rfl
        exact Mnemonic.lateOpcode?_ne_none hbranch v hchoice
      cases h₁ with
      | illegal hf₁ =>
          cases h₂ with
          | illegal hf₂ => exact .illegal hindex hf₁ hf₂
  | some op =>
      rw [hchoice] at h₁ h₂
      cases h₁ with
      | bytes _ hreach hb₁ =>
          cases h₂ with
          | bytes _ _ hb₂ => exact .bytes _ (List.cons_ne_nil _ _) hb₁ hb₂
          | unreachable _ _ hnot _ => exact absurd hreach hnot
      | unreachable _ hmode hnot hf₁ =>
          cases h₂ with
          | bytes _ hreach _ => exact absurd hreach hnot
          | unreachable _ _ _ hf₂ =>
              exact .unreachable _ ((Mnemonic.EncodesDirect.of_late hchoice).isBranch hmode) hf₁ hf₂

/-- A zero page instruction takes the low byte of its operand. -/
theorem bytes_of_short {m : Mnemonic} {index : Index} {op : Opcode}
    (h : m.encoding? (Engine.directMode index true) = some op) (a : UInt16) (v : Int64) :
    op.bytes a v = [op.code, v.toUInt64.toUInt8] := by
  unfold Opcode.bytes Opcode.operandBytes
  rw [(Mnemonic.encoding?_eq_some h).2]
  cases index <;> rfl

/-- Where there is no absolute encoding for a large value, the early choice
refuses it and the late one takes its low byte. -/
theorem Encodes.of_shortOnly {loc : Location} {m : Mnemonic} {index : Index} {v : Int64}
    {rs : List Region} {a : UInt16} {r₁ r₂ : EStateM.Result Error Engine Unit}
    (honly : m.shortOnly index = true) (hlarge : ¬(v &&& 0xFFFF < 256))
    (h₁ : Encodes loc v rs a r₁ (m.earlyOpcode? index v))
    (h₂ : Encodes loc v rs a r₂ (m.lateOpcode? index v)) :
    FailsWith (.located loc .illegalMode) r₁ ∧
      ∃ op, m.encoding? (Engine.directMode index true) = some op ∧
        Assembles rs a [op.code, v.toUInt64.toUInt8] r₂ := by
  obtain ⟨hnone, op, hop, hchosen⟩ := Mnemonic.opcodes_of_shortOnly honly (decide_eq_false hlarge)
  rw [hnone] at h₁
  rw [hchosen] at h₂
  have hmode : op.mode ≠ .relative := by
    rw [(Mnemonic.encoding?_eq_some hop).2]
    cases index <;> nofun
  refine ⟨?_, op, hop, ?_⟩
  · cases h₁ with
    | illegal hfails => exact hfails
  · cases h₂ with
    | bytes _ _ hbytes => rwa [bytes_of_short hop] at hbytes
    | unreachable _ hrelative _ _ => exact absurd hrelative hmode

/-- In a strict pass, with enough room, a direct operand that is a constant
and one that reads a symbol are encoded alike if they have the same value, or
refused alike.  The exceptions are the three forms that have a zero page
encoding and no absolute one, with a value that is no address in the zero page:
there the constant is refused, while the instruction with the symbol has but
one encoding and gets the low byte. -/
theorem direct_encodings_agree (loc : Location) (mnemonic : String) (m : Mnemonic)
    (hm : Mnemonic.ofName? mnemonic = some m) (index : Index) (v : Int64)
    (constant : List Action) (hconstant : constantValue? constant = .ok (some v))
    (x : Expr) (hget : ∃ loc name, Action.get loc name ∈ x.actions)
    (e d : Engine) (hempty : e.stack.values = []) (hstrict : e.strict = true)
    (hx : performAll x.actions e = .ok () d) (hvalue : d.stack.values = [v])
    (a : UInt16) (ha : e.pcAddress? = some a) (hroom : a.toNat + 3 < 0x10000) :
    ((m, index) ∉ [(.stx, Index.y), (.sty, .x), (.sax, .y)] ∨ v &&& 0xFFFF < 256 →
      SameEncoding loc m.isBranch index e.regions a
        (assembleDirect loc mnemonic index constant e)
        (assembleDirect loc mnemonic index x.actions e)) ∧
    ((m, index) ∈ [(.stx, Index.y), (.sty, .x), (.sax, .y)] → ¬(v &&& 0xFFFF < 256) →
      FailsWith (.located loc .illegalMode) (assembleDirect loc mnemonic index constant e) ∧
      ∃ op, m.encoding? (Engine.directMode index true) = some op ∧
        Assembles e.regions a [op.code, v.toUInt64.toUInt8]
          (assembleDirect loc mnemonic index x.actions e)) := by
  have hearly := constant_encodes loc index hm hconstant hempty hstrict ha hroom
  have hlate := symbolic_encodes loc index hm hget hx hvalue hstrict ha hroom
  rw [← Mnemonic.shortOnly_iff]
  constructor
  · intro hagree
    -- outside the three lopsided forms, or below 256, both choose by the same value
    have hsame : m.lateOpcode? index v = m.earlyOpcode? index v := by
      refine Mnemonic.lateOpcode?_eq ?_
      rcases hagree with honly | hshort
      · exact .inl ((Bool.not_eq_true _).mp honly)
      · exact .inr (decide_eq_true hshort)
    rw [← hsame] at hearly
    exact hearly.same hlate
  · intro honly hlarge
    exact hearly.of_shortOnly honly hlarge hlate

/-- A strict pass at an address, with one variable. -/
def oneVariable (v : Int64) : Engine :=
  { pass := .first
    vars := ⟨[("V", { value := v, isSet := true })]⟩
    pc := { value := 0x1000, isSet := true } }

/-- A value that is negative and a zero page address modulo 2^16. -/
theorem direct_encodings_agree_ldx :
    ∃ d, performAll (Expr.symbol {} "V").actions (oneVariable (-0xFF80)) = .ok () d ∧
      d.stack.values = [-0xFF80] ∧
      SameEncoding {} Mnemonic.ldx.isBranch .y [] 0x1000
        (assembleDirect {} "ldx" .y [Action.load {} (-0xFF80)] (oneVariable (-0xFF80)))
        (assembleDirect {} "ldx" .y (Expr.symbol {} "V").actions (oneVariable (-0xFF80))) := by
  have hrun : isOkWith (fun _ d => d.stack.values == [-0xFF80])
      (performAll (Expr.symbol {} "V").actions (oneVariable (-0xFF80))) = true := by
    decide +kernel
  obtain ⟨_, d, hx, hvalue⟩ := exists_of_isOkWith hrun
  have hvalue : d.stack.values = [-0xFF80] := by simpa using hvalue
  refine ⟨d, hx, hvalue, ?_⟩
  refine (direct_encodings_agree {} "ldx" .ldx (by decide +kernel) .y (-0xFF80) _ rfl
    (.symbol {} "V") ⟨{}, "V", List.mem_singleton_self _⟩ (oneVariable (-0xFF80)) d rfl rfl hx
    hvalue 0x1000 rfl (by decide)).1 ?_
  exact .inr (by decide)

/-- `STX $1234,Y` is refused, while the same instruction with a variable of
that value stores to the zero page. -/
theorem stx_encodings_differ :
    FailsWith (.located {} .illegalMode)
      (assembleDirect {} "STX" .y [Action.load {} 0x1234] (oneVariable 0x1234)) ∧
    Assembles [] 0x1000 [0x96, 0x34]
      (assembleDirect {} "STX" .y [Action.get {} "V"] (oneVariable 0x1234)) ∧
    ¬SameEncoding {} Mnemonic.stx.isBranch .y [] 0x1000
      (assembleDirect {} "STX" .y [Action.load {} 0x1234] (oneVariable 0x1234))
      (assembleDirect {} "STX" .y [Action.get {} "V"] (oneVariable 0x1234)) := by
  have hm : Mnemonic.ofName? "STX" = some .stx := by decide +kernel
  have honly : Mnemonic.stx.shortOnly .y = true := (Mnemonic.shortOnly_iff _ _).mpr (by decide)
  have hrun : isOkWith (fun _ d => d.stack.values == [0x1234])
      (performAll (Expr.symbol {} "V").actions (oneVariable 0x1234)) = true := by
    decide +kernel
  obtain ⟨_, d, hx, hvalue⟩ := exists_of_isOkWith hrun
  have hconstant : constantValue? [Action.load {} 0x1234] = .ok (some 0x1234) := rfl
  obtain ⟨hrefused, op, hop, hstored⟩ := Encodes.of_shortOnly honly (by decide)
    (constant_encodes {} .y hm hconstant (a := 0x1000) (e := oneVariable 0x1234) rfl rfl rfl
      (by decide))
    (symbolic_encodes {} .y hm (x := .symbol {} "V") ⟨{}, "V", List.mem_singleton_self _⟩ hx
      (by simpa using hvalue) rfl rfl (by decide))
  have hcode : Mnemonic.stx.encoding? .zeroPageY = some (Opcode.ofCode 0x96) := by decide +kernel
  obtain rfl := Option.some.inj (hop.symm.trans hcode)
  exact ⟨hrefused, hstored, fun h => h.not_refused hrefused hstored⟩

end Mos6510
