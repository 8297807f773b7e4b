import Mos6510.Builder
import Mos6510.Proofs.Failure
import Mos6510.Source

/-!
# What lowering a statement adds

A statement that is lowered adds actions to the builder and may open or close
a block.

* `Operand.resolve_eq_ok`, `Statement.Lowers`: a statement that leaves the
  blocks alone becomes the expressions that it evaluates and one action that
  takes their values;
* `Builder.Adds`: so do those that open and close blocks, apart from their
  jumps, targets and counters;
* `Builder.Issued.of_issue`: this is all that lowering does, apart from the
  definition of macros, whose body is put together on its own;
* `Builder.issueAll_induction`: what every statement keeps, all keep;
* `Reader.actions_eq_ok`: the actions of a source file are those of its lines,
  with all blocks closed.
-/

namespace Mos6510

open Outcome

/-! ## Expressions -/

/-- All that the actions do is to compute values. -/
def Computes (acts : List Action) : Prop := ∀ a ∈ acts, a.op.computes = true

theorem Computes.nil : Computes [] := fun _ h => absurd h List.not_mem_nil

theorem IsExpr.computes {acts : List Action} (h : IsExpr acts) : Computes acts := by
  obtain ⟨x, rfl⟩ := h
  exact x.actions_compute

/-- The expressions of a message argument. -/
def MessageArg.exprs : MessageArg → List (List Action)
  | .text _ => []
  | .expr e => [e]

def Statement.exprs : Statement → List (List Action)
  | .assign _ expr => [expr]
  | .instruction _ operand => [operand.expr]
  | .data _ expr => [expr]
  | .openIf cond => [cond]
  | .elseIf cond => [cond]
  | .openRepeat count => [count]
  | .openWhile cond => [cond]
  | .call _ args => args
  | .message _ _ args => args.flatMap MessageArg.exprs
  | .includeBinary _ skip length => [skip, length]
  | _ => []

/-- The statement is not allowed in the body of a macro. -/
def Statement.isOutermost : Statement → Bool
  | .call _ _ | .includeSource _ | .includeBinary _ _ _ => true
  | _ => false

/-- Folding leaves an expression as it is, or loads its value. -/
theorem foldConstant_eq_ok {expr lowered : List Action} (h : foldConstant expr = .ok lowered) :
    lowered = expr ∨
      ∃ loc v, lowered = [Action.load loc v] ∧ constantValue? expr = .ok (some v) := by
  unfold foldConstant at h
  split at h
  · cases h
    exact .inl rfl
  · split at h
    · cases h
    · cases h
      exact .inl rfl
    · rename_i v hvalue
      cases h
      exact .inr ⟨_, v, rfl, hvalue⟩

/-- What holds of an expression, and of all loads, holds of the expression
folded. -/
theorem foldConstant_keeps {P : List Action → Prop} (hload : ∀ loc v, P [Action.load loc v])
    {acts acts' : List Action} (h : P acts) (hfold : foldConstant acts = .ok acts') : P acts' := by
  rcases foldConstant_eq_ok hfold with rfl | ⟨loc, v, rfl, -⟩
  · exact h
  · exact hload loc v

theorem Computes.foldConstant {acts acts' : List Action} (h : Computes acts)
    (hfold : Mos6510.foldConstant acts = .ok acts') : Computes acts' :=
  foldConstant_keeps (by simp [Computes, Action.load, Action.plain, Op.computes]) h hfold

theorem foldAt_eq_ok {loc : Location} {expr lowered : List Action}
    (h : Builder.foldAt loc expr = .ok lowered) : foldConstant expr = .ok lowered := by
  unfold Builder.foldAt at h
  split at h
  · rename_i hfold
    cases h
    exact hfold
  · cases h

namespace Builder

section

variable {P : List Action → Prop} (hload : ∀ loc v, P [Action.load loc v]) {loc : Location}

include hload

theorem foldAt_keeps {acts acts' : List Action} (h : P acts) (hfold : foldAt loc acts = .ok acts') :
    P acts' :=
  foldConstant_keeps hload h (foldAt_eq_ok hfold)

theorem foldAllAt_keeps {args args' : List (List Action)} (h : ∀ arg ∈ args, P arg)
    (hfold : foldAllAt loc args = .ok args') : ∀ arg ∈ args', P arg := by
  induction args generalizing args' with
  | nil =>
      cases hfold
      exact h
  | cons arg rest ih =>
      obtain ⟨harg, hrest⟩ := List.forall_mem_cons.mp h
      obtain ⟨arg', ha, hfold⟩ := except_bind_eq_ok.mp hfold
      obtain ⟨rest', hr, hfold⟩ := except_bind_eq_ok.mp hfold
      cases hfold
      exact List.forall_mem_cons.mpr ⟨foldAt_keeps hload harg ha, ih hrest hr⟩

/-- The arguments of a message are texts, or expressions that are folded. -/
theorem messageArgs_keeps {args : List MessageArg} {args' : List (List Action)}
    (h : ∀ arg ∈ args, ∀ e ∈ arg.exprs, P e) (hargs : messageArgs loc args = .ok args') :
    ∀ arg ∈ args', (∃ s, arg = [Action.plain loc (.string s)]) ∨ P arg := by
  induction args generalizing args' with
  | nil =>
      cases hargs
      exact fun _ h => absurd h List.not_mem_nil
  | cons arg rest ih =>
      obtain ⟨harg, hrest⟩ := List.forall_mem_cons.mp h
      obtain ⟨arg', ha, hargs⟩ := except_bind_eq_ok.mp hargs
      obtain ⟨rest', hr, hargs⟩ := except_bind_eq_ok.mp hargs
      cases hargs
      refine List.forall_mem_cons.mpr ⟨?_, ih hrest hr⟩
      cases arg with
      | text s =>
          cases ha
          exact .inl ⟨s, rfl⟩
      | expr e => exact .inr (foldAt_keeps hload (harg e List.mem_cons_self) ha)

end

end Builder

/-! ## Instructions -/

/-- An action that encodes an instruction, with or without an operand. -/
inductive Operand.Encodes (o : Operand) : Op → Prop
  | code {code : UInt8} :
      ((Opcode.ofCode code).mode = .implied ↔ o.form = .implied) → Operand.Encodes o (.instruction code)
  | width {mnemonic : String} {index : Index} :
      o.form ≠ .implied → Operand.Encodes o (.width mnemonic index)

theorem Operand.fixed_eq_ok {loc : Location} {m : Mnemonic} {expr acts : List Action} {mode : Mode}
    (h : fixed loc m expr mode = .ok acts) :
    ∃ code, (Opcode.ofCode code).mode = mode ∧
      acts = expr ++ [Action.plain loc (.instruction code)] := by
  unfold fixed at h
  split at h
  · rename_i op hop
    cases h
    obtain ⟨hcode, hmode⟩ := Mnemonic.encoding?_eq_some hop
    exact ⟨op.code, by rw [hcode, hmode], rfl⟩
  · cases h

theorem Operand.direct_eq_ok {loc : Location} {m : Mnemonic} {index : Index}
    {expr acts : List Action} (h : direct loc m index expr = .ok acts) :
    ∃ op, acts = expr ++ [Action.plain loc op] ∧
      ((∃ code, op = .instruction code ∧ (Opcode.ofCode code).mode ≠ .implied) ∨
        ∃ name, op = .width name index) := by
  have hdirect : ∀ small, Engine.directMode index small ≠ .implied := by
    intro small
    cases index <;> cases small <;> decide
  have hfixed : ∀ small, fixed loc m expr (Engine.directMode index small) = .ok acts →
      ∃ op, acts = expr ++ [Action.plain loc op] ∧
        ((∃ code, op = .instruction code ∧ (Opcode.ofCode code).mode ≠ .implied) ∨
          ∃ name, op = .width name index) := by
    intro small h
    obtain ⟨code, hmode, rfl⟩ := fixed_eq_ok h
    exact ⟨_, rfl, .inl ⟨code, rfl, by rw [hmode]; exact hdirect small⟩⟩
  unfold direct at h
  dsimp only at h
  split at h
  · cases h
  · split at h
    · cases h
    · split at h
      · exact hfixed true h
      · exact hfixed false h
    · split at h
      · cases h
        exact ⟨_, rfl, .inr ⟨m.name, rfl⟩⟩
      · split at h
        · exact hfixed true h
        · exact hfixed false h

/-- An instruction is its folded operand and one action that encodes it. -/
theorem Operand.resolve_eq_ok {loc : Location} {mnemonic : String} {o : Operand}
    {acts : List Action} (h : o.resolve loc mnemonic = .ok acts) :
    ∃ expr op, foldConstant o.expr = .ok expr ∧ o.Encodes op ∧
      acts = expr ++ [Action.plain loc op] := by
  unfold resolve at h
  split at h
  · cases h
  · rename_i m _
    split at h
    · cases h
    · rename_i expr hfold
      split at h
      · rename_i mode hform
        obtain ⟨code, hmode, rfl⟩ := fixed_eq_ok h
        refine ⟨expr, _, hfold, .code ?_, rfl⟩
        rw [hmode]
        cases hf : o.form <;> rw [hf] at hform <;> cases hform <;> simp
      · rename_i hform
        have hne : o.form ≠ .implied := by
          intro hf
          rw [hf] at hform
          cases hform
        split at h
        · split at h
          · obtain ⟨code, hmode, rfl⟩ := fixed_eq_ok h
            exact ⟨expr, _, hfold, .code (by simp [hmode, hne]), rfl⟩
          · cases h
        · obtain ⟨op, rfl, ⟨code, rfl, hmode⟩ | ⟨name, rfl⟩⟩ := direct_eq_ok h
          · exact ⟨expr, _, hfold, .code (by simp [hmode, hne]), rfl⟩
          · exact ⟨expr, _, hfold, .width hne, rfl⟩

/-! ## Statements -/

open Builder in
/-- A statement that leaves the blocks alone, what it evaluates before, and
the action that it is. -/
inductive Statement.Lowers (loc : Location) : Statement → List Action → Op → Prop
  | assign {name : String} {expr e : List Action} :
      foldAt loc expr = .ok e → Statement.Lowers loc (.assign name expr) e (.set name)
  | label {name : String} : Statement.Lowers loc (.label name) [] (.label name false)
  | instruction {mnemonic : String} {operand : Operand} {e : List Action} {op : Op} :
      foldConstant operand.expr = .ok e → operand.Encodes op →
        Statement.Lowers loc (.instruction mnemonic operand) e op
  | data {word : Bool} {expr e : List Action} :
      foldAt loc expr = .ok e → Statement.Lowers loc (.data word expr) e (.data word)
  | text {word : Bool} {bytes : List UInt8} :
      Statement.Lowers loc (.text word bytes) [] (.text word bytes)
  | call {name : String} {args args' : List (List Action)} :
      foldAllAt loc args = .ok args' →
        Statement.Lowers loc (.call name args) [] (.callMacro name args')
  | metaLabel {name : String} : Statement.Lowers loc (.metaLabel name) [] (.metaLabel name)
  | goto {name : String} : Statement.Lowers loc (.goto name) [] (.goto name)
  | message {level : Level} {formatted : Bool} {args : List MessageArg}
      {args' : List (List Action)} :
      messageArgs loc args = .ok args' →
        Statement.Lowers loc (.message level formatted args) [] (.message level formatted args')
  | includeSource {name : String} :
      Statement.Lowers loc (.includeSource name) [] (.includeSource name)
  | includeBinary {name : String} {skip length skip' length' : List Action} :
      foldAt loc skip = .ok skip' → foldAt loc length = .ok length' →
        Statement.Lowers loc (.includeBinary name skip length) []
          (.includeBinary name [skip', length'])

namespace Builder

/-- The actions that a statement adds, with the numbers given out and the open
blocks before and after it. -/
inductive Adds (loc : Location) (ids : Ids) :
    Statement → List Block → List Action → Ids → List Block → Prop
  | simple {stmt : Statement} {e : List Action} {op : Op} {blocks : List Block} :
      stmt.Lowers loc e op → Adds loc ids stmt blocks (e ++ [Action.plain loc op]) ids blocks
  | openIf {cond test : List Action} {blocks : List Block} :
      foldAt loc cond = .ok test →
        Adds loc ids (.openIf cond) blocks
          (test ++ [Action.plain loc (.jumpIfFalse ((ids.jump + 1 : Nat) : Int))])
          { ids with jump := ids.jump + 2 }
          (.condition loc ids.jump (some (ids.jump + 1)) :: blocks)
  | elseIf {cond test : List Action} {start : Location} {exit next : Nat} {outer : List Block} :
      foldAt loc cond = .ok test →
        Adds loc ids (.elseIf cond) (.condition start exit (some next) :: outer)
          ([Action.plain loc (.jump exit), Action.plain loc (.target next)] ++ test ++
            [Action.plain loc (.jumpIfFalse ids.jump)])
          { ids with jump := ids.jump + 1 }
          (.condition start exit (some ids.jump) :: outer)
  | otherwise {start : Location} {exit next : Nat} {outer : List Block} :
      Adds loc ids .otherwise (.condition start exit (some next) :: outer)
        [Action.plain loc (.jump exit), Action.plain loc (.target next)] ids
        (.condition start exit none :: outer)
  | closeIf {start : Location} {exit : Nat} {next : Option Nat} {outer : List Block} :
      Adds loc ids .closeIf (.condition start exit next :: outer)
        ((next.elim [] fun next => [Action.plain loc (.target next)]) ++
          [Action.plain loc (.target exit)]) ids outer
  | openRepeat {expr count : List Action} {blocks : List Block} :
      foldAt loc expr = .ok count →
        Adds loc ids (.openRepeat expr) blocks
          (count ++ [Action.plain loc (.counterSet ids.counter), Action.plain loc (.target ids.jump),
            Action.plain loc (.counterTest ids.counter ((ids.jump + 1 : Nat) : Int))])
          { ids with jump := ids.jump + 2, counter := ids.counter + 1 }
          (.repetition loc ids.jump (ids.jump + 1) ids.counter :: blocks)
  | closeRepeat {start : Location} {first exit counter : Nat} {outer : List Block} :
      Adds loc ids .closeRepeat (.repetition start first exit counter :: outer)
        [Action.plain loc (.counterStep counter first), Action.plain loc (.target exit)] ids outer
  | openWhile {cond test : List Action} {blocks : List Block} :
      foldAt loc cond = .ok test →
        Adds loc ids (.openWhile cond) blocks
          (Action.plain loc (.target ids.jump) :: test ++
            [Action.plain loc (.jumpIfFalse ((ids.jump + 1 : Nat) : Int))])
          { ids with jump := ids.jump + 2 } (.loop loc ids.jump (ids.jump + 1) :: blocks)
  | closeWhile {start : Location} {first exit : Nat} {outer : List Block} :
      Adds loc ids .closeWhile (.loop start first exit :: outer)
        [Action.plain loc (.jump first), Action.plain loc (.target exit)] ids outer

/-- What lowering a statement does. -/
inductive Issued (loc : Location) : Statement → Builder → Builder → Prop
  | adds {stmt : Statement} {b : Builder} {acts : List Action} {ids : Ids} {blocks : List Block} :
      Adds loc b.ids stmt b.blocks acts ids blocks → (b.inMacro && stmt.isOutermost) = false →
        Issued loc stmt b ⟨ids, b.actions ++ acts, blocks⟩
  | openMacro {name : String} {params : List String} {b : Builder} :
      b.blocks = [] →
        Issued loc (.openMacro name params) b
          ⟨b.ids, #[], [.definition loc name params b.actions]⟩
  | closeMacro {start : Location} {name : String} {params : List String} {before : Array Action}
      {b : Builder} {outer : List Block} :
      b.blocks = .definition start name params before :: outer →
        Issued loc .closeMacro b
          ⟨b.ids, before ++ [Action.plain start (.defineMacro name params b.actions.toList)], outer⟩

section

variable {loc : Location} {acts : List Action} {b b' : Builder} {u : Unit}

/-- A statement that neither opens nor closes a block. -/
theorem Issued.simple {stmt : Statement} {e : List Action} {op : Op}
    (hallowed : (b.inMacro && stmt.isOutermost) = false) (h : stmt.Lowers loc e op) :
    Issued loc stmt b (b.add (e ++ [Action.plain loc op])) :=
  .adds (.simple h) hallowed

/-- A statement that is allowed everywhere. -/
theorem Issued.everywhere {stmt : Statement} {e : List Action} {op : Op}
    (hstmt : stmt.isOutermost = false) (h : stmt.Lowers loc e op) :
    Issued loc stmt b (b.add (e ++ [Action.plain loc op])) :=
  .simple (by rw [hstmt, Bool.and_false]) h

theorem addResult_eq_ok {acts : Except Error (List Action)} (h : addResult acts b = .ok u b') :
    ∃ as, acts = .ok as ∧ b' = b.add as := by
  unfold addResult at h
  split at h
  · cases h
    exact ⟨_, rfl, rfl⟩
  · cases h

/-- A folded expression and the action that takes its value. -/
theorem addResult_fold_eq_ok {expr : List Action} {op : Op}
    (h : addResult (do let e ← foldAt loc expr; pure (e ++ [Action.plain loc op])) b = .ok u b') :
    ∃ e, foldAt loc expr = .ok e ∧ b' = b.add (e ++ [Action.plain loc op]) := by
  obtain ⟨as, has, rfl⟩ := addResult_eq_ok h
  obtain ⟨e, hfold, has⟩ := except_bind_eq_ok.mp has
  cases has
  exact ⟨e, hfold, rfl⟩

theorem Issued.of_openIf (h : openIf loc acts b = .ok u b') : Issued loc (.openIf acts) b b' := by
  unfold openIf at h
  dsimp only at h
  split at h
  · cases h
  · rename_i test hfold
    cases h
    exact .adds (.openIf hfold) (Bool.and_false _)

theorem Issued.of_elseIf (h : elseIf loc acts b = .ok u b') : Issued loc (.elseIf acts) b b' := by
  unfold elseIf at h
  split at h
  · rename_i start exit next outer hblocks
    split at h
    · cases h
    · rename_i test hfold
      cases h
      refine .adds ?_ (Bool.and_false _)
      rw [hblocks]
      exact .elseIf hfold
  · cases h
  · cases h

theorem Issued.of_otherwise (h : otherwise loc b = .ok u b') : Issued loc .otherwise b b' := by
  unfold otherwise at h
  split at h
  · rename_i start exit next outer hblocks
    cases h
    refine .adds ?_ (Bool.and_false _)
    rw [hblocks]
    exact .otherwise
  · cases h
  · cases h

theorem Issued.of_closeIf (h : closeIf loc b = .ok u b') : Issued loc .closeIf b b' := by
  unfold closeIf at h
  split at h
  · rename_i start exit next outer hblocks
    cases h
    refine .adds ?_ (Bool.and_false _)
    rw [hblocks]
    cases next <;> exact .closeIf
  · cases h

theorem Issued.of_openRepeat (h : openRepeat loc acts b = .ok u b') :
    Issued loc (.openRepeat acts) b b' := by
  unfold openRepeat at h
  dsimp only at h
  split at h
  · cases h
  · rename_i count hfold
    cases h
    exact .adds (.openRepeat hfold) (Bool.and_false _)

theorem Issued.of_closeRepeat (h : closeRepeat loc b = .ok u b') : Issued loc .closeRepeat b b' := by
  unfold closeRepeat at h
  split at h
  · rename_i start first exit counter outer hblocks
    cases h
    refine .adds ?_ (Bool.and_false _)
    rw [hblocks]
    exact .closeRepeat
  · cases h

theorem Issued.of_openWhile (h : openWhile loc acts b = .ok u b') :
    Issued loc (.openWhile acts) b b' := by
  unfold openWhile at h
  dsimp only at h
  split at h
  · cases h
  · rename_i test hfold
    cases h
    exact .adds (.openWhile hfold) (Bool.and_false _)

theorem Issued.of_closeWhile (h : closeWhile loc b = .ok u b') : Issued loc .closeWhile b b' := by
  unfold closeWhile at h
  split at h
  · rename_i start first exit outer hblocks
    cases h
    refine .adds ?_ (Bool.and_false _)
    rw [hblocks]
    exact .closeWhile
  · cases h

theorem Issued.of_openMacro {name : String} {params : List String}
    (h : Builder.openMacro loc name params b = .ok u b') : Issued loc (.openMacro name params) b b' := by
  unfold Builder.openMacro at h
  split at h
  · rename_i hblocks
    cases h
    exact .openMacro hblocks
  · cases h

theorem Issued.of_closeMacro (h : Builder.closeMacro loc b = .ok u b') : Issued loc .closeMacro b b' := by
  unfold Builder.closeMacro at h
  split at h
  · rename_i start name params before outer hblocks
    cases h
    exact .closeMacro hblocks
  · cases h

theorem Issued.of_call {name : String} {args : List (List Action)}
    (h : call loc name args b = .ok u b') : Issued loc (.call name args) b b' := by
  unfold call at h
  split at h
  · cases h
  · rename_i hallowed
    obtain ⟨as, has, rfl⟩ := addResult_eq_ok h
    obtain ⟨args', hargs, has⟩ := except_bind_eq_ok.mp has
    cases has
    exact .simple (by simp [hallowed]) (.call hargs)

theorem Issued.of_includeSource {name : String} (h : includeSource loc name b = .ok u b') :
    Issued loc (.includeSource name) b b' := by
  unfold includeSource at h
  split at h
  · cases h
  · rename_i hallowed
    cases h
    exact .simple (by simp [hallowed]) .includeSource

theorem Issued.of_includeBinary {name : String} {skip length : List Action}
    (h : includeBinary loc name skip length b = .ok u b') :
    Issued loc (.includeBinary name skip length) b b' := by
  unfold includeBinary at h
  split at h
  · cases h
  · rename_i hallowed
    obtain ⟨as, has, rfl⟩ := addResult_eq_ok h
    obtain ⟨skip', hskip, has⟩ := except_bind_eq_ok.mp has
    obtain ⟨length', hlength, has⟩ := except_bind_eq_ok.mp has
    cases has
    exact .simple (by simp [hallowed]) (.includeBinary hskip hlength)

/-- Where lowering succeeds, it does what `Issued` says. -/
theorem Issued.of_issue {stmt : Statement} (h : issue loc stmt b = .ok u b') :
    Issued loc stmt b b' := by
  cases stmt with
  | assign name expr =>
      obtain ⟨e, hfold, rfl⟩ := addResult_fold_eq_ok h
      exact .everywhere rfl (.assign hfold)
  | label name =>
      cases h
      exact .everywhere rfl .label
  | instruction mnemonic operand =>
      obtain ⟨as, has, rfl⟩ := addResult_eq_ok h
      split at has
      · rename_i acts hresolve
        cases has
        obtain ⟨e, op, hfold, hop, rfl⟩ := Operand.resolve_eq_ok hresolve
        exact .everywhere rfl (.instruction hfold hop)
      · cases has
  | data word expr =>
      obtain ⟨e, hfold, rfl⟩ := addResult_fold_eq_ok h
      exact .everywhere rfl (.data hfold)
  | text word bytes =>
      cases h
      exact .everywhere rfl .text
  | openIf cond => exact .of_openIf h
  | elseIf cond => exact .of_elseIf h
  | otherwise => exact .of_otherwise h
  | closeIf => exact .of_closeIf h
  | openRepeat count => exact .of_openRepeat h
  | closeRepeat => exact .of_closeRepeat h
  | openWhile cond => exact .of_openWhile h
  | closeWhile => exact .of_closeWhile h
  | openMacro name params => exact .of_openMacro h
  | closeMacro => exact .of_closeMacro h
  | call name args => exact .of_call h
  | metaLabel name =>
      cases h
      exact .everywhere rfl .metaLabel
  | goto name =>
      cases h
      exact .everywhere rfl .goto
  | message level formatted args =>
      obtain ⟨as, has, rfl⟩ := addResult_eq_ok h
      obtain ⟨args', hargs, has⟩ := except_bind_eq_ok.mp has
      cases has
      exact .everywhere rfl (.message hargs)
  | includeSource name => exact .of_includeSource h
  | includeBinary name skip length => exact .of_includeBinary h

end

/-- What holds of a builder and is kept by every statement holds in the end. -/
theorem issueAll_induction {P : Builder → Prop} {lines : List Line} {b b' : Builder} {u : Unit}
    (hstep : ∀ l ∈ lines, ∀ b b', P b → Issued l.location l.statement b b' → P b') (hb : P b)
    (h : issueAll lines b = .ok u b') : P b' := by
  induction lines generalizing b with
  | nil =>
      obtain ⟨-, rfl⟩ := pure_eq_ok.mp h
      exact hb
  | cons l rest ih =>
      obtain ⟨hl, hrest⟩ := List.forall_mem_cons.mp hstep
      obtain ⟨_, b₁, hissue, h⟩ := bind_eq_ok.mp h
      exact ih hrest (hl b b₁ hb (.of_issue hissue)) h

end Builder

/-! ## Reading -/

namespace Reader

theorem lower_eq_ok {lines : List Line} {err : Option Error} {acts : List Action}
    {s s' : Session} (h : lower lines err s = .ok acts s') :
    ∃ b, Builder.issueAll lines { ids := s.ids } = .ok () b ∧ b.blocks = [] ∧
      acts = b.actions.toList ∧ s' = { s with ids := b.ids } := by
  unfold lower Assembler.withIds at h
  dsimp only at h
  split at h
  · rename_i ids hm
    cases h
    split at hm
    · cases hm
    · rename_i b hissue
      split at hm
      · cases hm
      · split at hm
        · rename_i acts' hfinish
          cases hm
          unfold Builder.finish at hfinish
          split at hfinish
          · rename_i hblocks
            cases hfinish
            exact ⟨b, hissue, hblocks, rfl, rfl⟩
          · cases hfinish
        · cases hm
  · cases h

/-- The actions of a source file are those of its lines. -/
theorem actions_eq_ok {r : Reader} {file : String} {text : List Text.Glyph} {acts : List Action}
    {s s' : Session} (h : r.actions file text s = .ok acts s') :
    ∃ b, Builder.issueAll (linesOf file (Lexer.scan r.defines text).tokens).1 { ids := s.ids } =
        .ok () b ∧ b.blocks = [] ∧ acts = b.actions.toList ∧ s'.ids = b.ids := by
  unfold actions at h
  dsimp only at h
  cases hscan : (Lexer.scan r.defines text).error with
  | some err =>
      simp only [hscan] at h
      exact absurd h throw_ne_ok
  | none =>
      simp only [hscan] at h
      obtain ⟨_, s₁, hmodify, h⟩ := bind_eq_ok.mp h
      cases hmodify
      obtain ⟨b, hissue, hblocks, hacts, rfl⟩ := lower_eq_ok h
      exact ⟨b, hissue, hblocks, hacts, rfl⟩

end Reader

end Mos6510
