import Mos6510.Proofs.Hygiene
import Mos6510.Proofs.Lexing

/-!
# Clauses

A lowered program is a sequence of clauses.  A clause is some expressions and
one action that takes their values.

* `InClauses`: the actions are those of clauses, each of which fits;
* `Op.Written`: what the action of a clause can be where source text is
  lowered, with all its names written ones;
* `Lowered.written`: source text is lowered to clauses;
* `resolveIncludes_resolved`: so are the files that it includes.
-/

namespace Mos6510

open Outcome

/-- Expressions, and the action that takes their values. -/
structure Clause where
  exprs : List (List Action)
  action : Action

def Clause.actions (c : Clause) : List Action := c.exprs.flatten ++ [c.action]

/-- Expressions of one kind, as many as there are operands, and an action of
one kind. -/
structure Clause.Fits (E : List Action → Prop) (A : Action → Prop) (c : Clause) : Prop where
  exprs : ∀ e ∈ c.exprs, E e
  count : c.exprs.length = c.action.op.operands
  action : A c.action

theorem Clause.Fits.exprs_eq_nil {E : List Action → Prop} {A : Action → Prop} {c : Clause}
    (h : c.Fits E A) (hops : c.action.op.operands = 0) : c.exprs = [] :=
  List.length_eq_zero_iff.mp (h.count.trans hops)

/-- The actions are those of clauses that fit. -/
def InClauses (E : List Action → Prop) (A : Action → Prop) (acts : List Action) : Prop :=
  ∃ cs : List Clause, acts = cs.flatMap Clause.actions ∧ ∀ c ∈ cs, c.Fits E A

namespace InClauses

variable {E E' : List Action → Prop} {A A' : Action → Prop} {acts as bs : List Action}

theorem nil : InClauses E A [] := ⟨[], rfl, fun _ h => absurd h List.not_mem_nil⟩

theorem append (ha : InClauses E A as) (hb : InClauses E A bs) : InClauses E A (as ++ bs) := by
  obtain ⟨cs, rfl, hcs⟩ := ha
  obtain ⟨ds, rfl, hds⟩ := hb
  exact ⟨cs ++ ds, List.flatMap_append.symm, List.forall_mem_append.mpr ⟨hcs, hds⟩⟩

/-- A single clause. -/
theorem single {c : Clause} (h : c.Fits E A) : InClauses E A c.actions :=
  ⟨[c], by simp, fun _ hc => List.mem_singleton.mp hc ▸ h⟩

/-- A single action that takes no values. -/
theorem bare {a : Action} (h : A a) (hops : a.op.operands = 0) : InClauses E A [a] :=
  single (c := ⟨[], a⟩) ⟨fun _ h => absurd h List.not_mem_nil, hops.symm, h⟩

/-- An expression and an action that takes its value. -/
theorem expr {e : List Action} {a : Action} (he : E e) (h : A a) (hops : a.op.operands = 1) :
    InClauses E A (e ++ [a]) := by
  have hsingle := single (c := ⟨[e], a⟩) ⟨fun _ h => List.mem_singleton.mp h ▸ he, hops.symm, h⟩
  simpa [Clause.actions] using hsingle

theorem imp (h : InClauses E A acts) (hE : ∀ e, E e → E' e) (hA : ∀ a, A a → A' a) :
    InClauses E' A' acts := by
  obtain ⟨cs, rfl, hcs⟩ := h
  exact ⟨cs, rfl, fun c hc =>
    ⟨fun e he => hE e ((hcs c hc).exprs e he), (hcs c hc).count, hA _ (hcs c hc).action⟩⟩

/-- Each action is part of an expression or the action of a clause. -/
theorem mem (h : InClauses E A acts) {a : Action} (ha : a ∈ acts) : (∃ e, E e ∧ a ∈ e) ∨ A a := by
  obtain ⟨cs, rfl, hcs⟩ := h
  obtain ⟨c, hc, ha⟩ := List.mem_flatMap.mp ha
  rcases List.mem_append.mp ha with ha | ha
  · obtain ⟨e, he, ha⟩ := List.mem_flatten.mp ha
    exact .inl ⟨e, (hcs c hc).exprs e he, ha⟩
  · exact .inr (List.mem_singleton.mp ha ▸ (hcs c hc).action)

end InClauses

/-! ## Written actions -/

/-- A text, or an expression over written names. -/
def IsWrittenArg (acts : List Action) : Prop :=
  (∃ loc s, acts = [Action.plain loc (.string s)]) ∨ IsExprOver IsWritten acts

/-- What may stand in the body of a macro too. -/
inductive Op.Inner : Op → Prop
  | set {name : String} : IsWritten name → Inner (.set name)
  | label {name : String} : IsWritten name → Inner (.label name false)
  | instruction {code : UInt8} : Inner (.instruction code)
  | width {mnemonic : String} {index : Index} : Inner (.width mnemonic index)
  | data {word : Bool} : Inner (.data word)
  | text {word : Bool} {bytes : List UInt8} : Inner (.text word bytes)
  | target {j : Int} : Inner (.target j)
  | jump {j : Int} : Inner (.jump j)
  | jumpIfFalse {j : Int} : Inner (.jumpIfFalse j)
  | counterSet {c : Int} : Inner (.counterSet c)
  | counterTest {c j : Int} : Inner (.counterTest c j)
  | counterStep {c j : Int} : Inner (.counterStep c j)
  | message {level : Level} {formatted : Bool} {args : List (List Action)} :
      (∀ arg ∈ args, IsWrittenArg arg) → Inner (.message level formatted args)
  | metaLabel {name : String} : IsWritten name → Inner (.metaLabel name)
  | goto {name : String} : IsWritten name → Inner (.goto name)

/-- An action as it is written, not as it comes out of a macro call. -/
def Action.IsPlain (P : Op → Prop) (a : Action) : Prop := a.expansion = none ∧ P a.op

/-- Clauses over written names. -/
abbrev WrittenClauses (P : Op → Prop) : List Action → Prop :=
  InClauses (IsExprOver IsWritten) (Action.IsPlain P)

/-- The definition or the call of a macro. -/
inductive Op.OfMacro : Op → Prop
  | define {name : String} {params : List String} {body : List Action} :
      IsWritten name → (∀ p ∈ params, IsWritten p) → WrittenClauses Op.Inner body → Linked body →
        OfMacro (.defineMacro name params body)
  | call {name : String} {args : List (List Action)} :
      IsWritten name → (∀ arg ∈ args, IsExprOver IsWritten arg) → OfMacro (.callMacro name args)

/-- An include. -/
inductive Op.Includes : Op → Prop
  | source {name : String} : Includes (.includeSource name)
  | binary {name : String} {skip length : List Action} :
      IsExprOver IsWritten skip → IsExprOver IsWritten length →
        Includes (.includeBinary name [skip, length])

/-- What source text is lowered to. -/
def Op.Written (op : Op) : Prop := op.Inner ∨ op.OfMacro ∨ op.Includes

/-- What is left once all files are included. -/
def Op.Resolved (op : Op) : Prop := op.Inner ∨ op.OfMacro ∨ ∃ name bytes, op = .bytes name bytes

theorem Op.Inner.isOutermost {op : Op} (h : op.Inner) : op.isOutermost = false := by
  cases h <;> rfl

theorem IsExprOver.symbolNames {N : String → Prop} {acts : List Action} (h : IsExprOver N acts) :
    ∀ n ∈ symbolNamesAll acts, N n := by
  obtain ⟨x, rfl, hx⟩ := h
  intro n hn
  refine hx n ?_
  clear hx
  rw [mem_symbolNamesAll_iff] at hn
  induction x with
  | number loc value =>
      simp [Expr.actions, Action.load, Action.plain, Action.symbolNames, Op.symbolNames] at hn
  | symbol loc name => simpa [Expr.actions, Action.get, Action.plain, Action.symbolNames,
      Op.symbolNames, Expr.names] using hn
  | unary loc op x ih =>
      refine ih ?_
      simpa [Expr.actions, Action.plain, Action.symbolNames, Op.symbolNames] using hn
  | binary loc op x y ihx ihy =>
      refine List.mem_append.mpr ?_
      have hn : (∃ a ∈ x.actions, n ∈ a.symbolNames) ∨ ∃ a ∈ y.actions, n ∈ a.symbolNames := by
        simpa [Expr.actions, Action.plain, Action.symbolNames, Op.symbolNames, or_and_right,
          exists_or] using hn
      exact hn.imp ihx ihy

/-- All names that the action works with are written ones. -/
theorem Op.Inner.symbolNames {op : Op} (h : op.Inner) : ∀ n ∈ op.symbolNames, IsWritten n := by
  intro n hn
  cases h with
  | set hname | label hname =>
      obtain rfl := List.mem_singleton.mp hn
      exact hname
  | message hargs =>
      obtain ⟨arg, harg, hn⟩ := mem_symbolNamesArgs_iff.mp hn
      rcases hargs arg harg with ⟨loc, s, rfl⟩ | hexpr
      · cases hn
      · exact hexpr.symbolNames n hn
  | _ => cases hn

theorem WrittenClauses.symbolNames {acts : List Action} (h : WrittenClauses Op.Inner acts) :
    ∀ n ∈ symbolNamesAll acts, IsWritten n := by
  intro n hn
  obtain ⟨⟨loc, op, x⟩, ha, hn⟩ := mem_symbolNamesAll_iff.mp hn
  rcases h.mem ha with ⟨e, he, ha⟩ | hop
  · exact he.symbolNames n (mem_symbolNamesAll_iff.mpr ⟨_, ha, hn⟩)
  · exact hop.2.symbolNames n hn

theorem WrittenClauses.metaLabelNames {acts : List Action} (h : WrittenClauses Op.Inner acts) :
    ∀ n ∈ metaLabelNames acts, IsWritten n := by
  intro n hn
  obtain ⟨⟨loc, op, x⟩, ha, hn⟩ := List.mem_filterMap.mp hn
  rcases h.mem ha with ⟨e, he, ha⟩ | hop
  · have hop := he.isExpr.computes _ ha
    cases op with
    | metaLabel => cases hop
    | _ => cases hn
  · obtain ⟨-, hop⟩ := hop
    cases hop with
    | metaLabel hname =>
        cases hn
        exact hname
    | _ => cases hn

theorem WrittenClauses.isOutermost {acts : List Action} (h : WrittenClauses Op.Inner acts) :
    ∀ a ∈ acts, a.op.isOutermost = false := by
  rintro ⟨loc, op, x⟩ ha
  rcases h.mem ha with ⟨e, he, ha⟩ | hop
  · have hop := he.isExpr.computes _ ha
    cases op <;> first | rfl | cases hop
  · exact hop.2.isOutermost

theorem IsExprOver.load (N : String → Prop) (loc : Location) (v : Int64) :
    IsExprOver N [Action.load loc v] :=
  ⟨.number loc v, rfl, fun _ h => absurd h List.not_mem_nil⟩

/-! ## Lowering -/

/-- A statement that leaves the blocks alone is one clause. -/
theorem Statement.Lowers.written {loc : Location} {stmt : Statement} {e : List Action} {op : Op}
    (hstmt : stmt.Over IsWritten) (h : stmt.Lowers loc e op) :
    WrittenClauses (fun op => op.Inner ∨ (stmt.isOutermost = true ∧ op.Written))
      (e ++ [Action.plain loc op]) := by
  have hinner : ∀ {op : Op}, op.Inner →
      (Action.plain loc op).IsPlain fun op => op.Inner ∨ (stmt.isOutermost = true ∧ op.Written) :=
    fun h => ⟨rfl, .inl h⟩
  have hfold : ∀ {expr e : List Action}, IsExprOver IsWritten expr → foldConstant expr = .ok e →
      IsExprOver IsWritten e := fun h => foldConstant_keeps (.load _) h
  cases h with
  | assign h => exact .expr (hfold hstmt.2 (foldAt_eq_ok h)) (hinner (.set hstmt.1)) rfl
  | label => exact .bare (hinner (.label hstmt)) rfl
  | instruction h hop =>
      rcases hstmt with ⟨hform, hnone⟩ | ⟨hform, hexpr⟩
      · rw [hnone] at h
        cases h
        cases hop with
        | code hmode =>
            exact .bare (hinner .instruction) (by simp [Action.plain, Op.operands, hmode.mpr hform])
        | width hne => exact absurd hform hne
      · cases hop with
        | code hmode =>
            have hmode : (Opcode.ofCode _).mode ≠ .implied := fun h => hform (hmode.mp h)
            exact .expr (hfold hexpr h) (hinner .instruction)
              (by simp [Action.plain, Op.operands, hmode])
        | width => exact .expr (hfold hexpr h) (hinner .width) rfl
  | data h => exact .expr (hfold hstmt (foldAt_eq_ok h)) (hinner .data) rfl
  | text => exact .bare (hinner .text) rfl
  | call hargs =>
      have hargs := Builder.foldAllAt_keeps (.load _) hstmt.2 hargs
      exact .bare ⟨rfl, .inr ⟨rfl, .inr (.inl (.call hstmt.1 hargs))⟩⟩ rfl
  | metaLabel => exact .bare (hinner (.metaLabel hstmt)) rfl
  | goto => exact .bare (hinner (.goto hstmt)) rfl
  | message hargs =>
      refine .bare (hinner (.message fun arg harg => ?_)) rfl
      refine (Builder.messageArgs_keeps (.load _) (fun arg harg e he => ?_) hargs arg harg).imp_left
        (Exists.intro loc)
      have hover := hstmt arg harg
      cases arg with
      | text s => cases he
      | expr acts => exact List.mem_singleton.mp he ▸ hover
  | includeSource => exact .bare ⟨rfl, .inr ⟨rfl, .inr (.inr .source)⟩⟩ rfl
  | includeBinary hskip hlength =>
      have hskip := hfold hstmt.1 (foldAt_eq_ok hskip)
      have hlength := hfold hstmt.2 (foldAt_eq_ok hlength)
      exact .bare ⟨rfl, .inr ⟨rfl, .inr (.inr (.binary hskip hlength))⟩⟩ rfl

namespace Builder

/-- So are those that open and close blocks, apart from jumps and counters. -/
theorem Adds.written {loc : Location} {ids ids' : Ids} {stmt : Statement} {acts : List Action}
    {blocks blocks' : List Block} (hstmt : stmt.Over IsWritten)
    (h : Adds loc ids stmt blocks acts ids' blocks') :
    WrittenClauses (fun op => op.Inner ∨ (stmt.isOutermost = true ∧ op.Written)) acts := by
  have hplain : ∀ {op : Op}, op.Inner →
      (Action.plain loc op).IsPlain fun op => op.Inner ∨ (stmt.isOutermost = true ∧ op.Written) :=
    fun h => ⟨rfl, .inl h⟩
  have hfold : ∀ {expr e : List Action}, IsExprOver IsWritten expr → foldAt loc expr = .ok e →
      IsExprOver IsWritten e := fun h => foldAt_keeps (.load _) h
  cases h with
  | simple h => exact h.written hstmt
  | openIf h => exact .expr (hfold hstmt h) (hplain .jumpIfFalse) rfl
  | elseIf h =>
      rw [List.append_assoc]
      refine .append ?_ (.expr (hfold hstmt h) (hplain .jumpIfFalse) rfl)
      exact .append (.bare (hplain .jump) rfl) (.bare (hplain .target) rfl)
  | otherwise => exact .append (.bare (hplain .jump) rfl) (.bare (hplain .target) rfl)
  | @closeIf _ _ next _ =>
      refine .append ?_ (.bare (hplain .target) rfl)
      cases next with
      | none => exact .nil
      | some next => exact .bare (hplain .target) rfl
  | openRepeat h =>
      rw [List.append_cons]
      refine .append (.expr (hfold hstmt h) (hplain .counterSet) rfl) ?_
      exact .append (.bare (hplain .target) rfl) (.bare (hplain .counterTest) rfl)
  | closeRepeat => exact .append (.bare (hplain .counterStep) rfl) (.bare (hplain .target) rfl)
  | openWhile h =>
      rw [List.cons_append]
      exact .append (.bare (hplain .target) rfl) (.expr (hfold hstmt h) (hplain .jumpIfFalse) rfl)
  | closeWhile => exact .append (.bare (hplain .jump) rfl) (.bare (hplain .target) rfl)

end Builder

/-- The head of a macro definition and what was set aside for it are written. -/
def Block.Written : Block → Prop
  | .definition _ name params outer =>
    IsWritten name ∧ (∀ p ∈ params, IsWritten p) ∧ WrittenClauses Op.Written outer.toList
  | _ => True

/-- What the builder has put together are clauses, in the definition of a macro
such as may stand there. -/
structure Builder.Written (b : Builder) : Prop where
  actions : WrittenClauses (if b.inMacro then Op.Inner else Op.Written) b.actions.toList
  blocks : ∀ blk ∈ b.blocks, blk.Written

namespace Builder

theorem Adds.blocks_written {loc : Location} {ids ids' : Ids} {stmt : Statement}
    {acts : List Action} {blocks blocks' : List Block}
    (h : Adds loc ids stmt blocks acts ids' blocks') (hb : ∀ blk ∈ blocks, blk.Written) :
    ∀ blk ∈ blocks', blk.Written := by
  cases h with
  | simple => exact hb
  | openIf | openRepeat | openWhile => exact List.forall_mem_cons.mpr ⟨trivial, hb⟩
  | elseIf | otherwise =>
      exact List.forall_mem_cons.mpr ⟨trivial, (List.forall_mem_cons.mp hb).2⟩
  | closeIf | closeRepeat | closeWhile => exact (List.forall_mem_cons.mp hb).2

/-- Lowering a statement over written names keeps what is put together. -/
theorem Issued.written {loc : Location} {lo : Ids} {stmt : Statement} {b b' : Builder}
    (hstmt : stmt.Over IsWritten) (hnumbered : b.Numbered lo) (hb : b.Written)
    (h : Issued loc stmt b b') : b'.Written := by
  cases h with
  | @adds _ _ acts ids blocks hadds hallowed =>
      refine ⟨?_, hadds.blocks_written hb.blocks⟩
      rw [hadds.inMacro_eq _ rfl, Array.toList_appendList]
      refine hb.actions.append ((hadds.written hstmt).imp (fun _ h => h) fun a ha => ⟨ha.1, ?_⟩)
      cases hin : b.inMacro with
      | true =>
          rw [hin, Bool.true_and] at hallowed
          exact ha.2.resolve_right fun h => by rw [hallowed] at h; cases h.1
      | false => exact ha.2.elim .inl fun h => h.2
  | @openMacro name params _ hblocks =>
      refine ⟨.nil, List.forall_mem_cons.mpr ⟨⟨hstmt.1, hstmt.2, ?_⟩, fun _ h => absurd h List.not_mem_nil⟩⟩
      have hacts := hb.actions
      rwa [inMacro, hblocks] at hacts
  | @closeMacro start name params before _ outer hblocks =>
      -- the actions collected since the opening are the body, issued inside a definition
      have hin : b.inMacro = true := by simp [inMacro, hblocks, Block.kind]
      have hbody := hb.actions
      have hblks := hb.blocks
      have hlinked := hnumbered.linked_body hblocks
      have houter := hnumbered.blocks
      rw [hin] at hbody
      rw [hblocks] at hblks houter
      obtain ⟨⟨hname, hparams, hbefore⟩, hrest⟩ := List.forall_mem_cons.mp hblks
      obtain ⟨rfl, -, -⟩ := houter
      refine ⟨?_, hrest⟩
      show WrittenClauses Op.Written _
      rw [Array.toList_appendList]
      exact hbefore.append (.bare ⟨rfl, .inr (.inl (.define hname hparams hbody hlinked))⟩ rfl)

end Builder

/-! ## Reading -/

/-- Source text is lowered to clauses over written names. -/
theorem Lowered.written {acts : List Action} (h : Lowered acts) : WrittenClauses Op.Written acts := by
  obtain ⟨r, file, text, s, s', h⟩ := h
  obtain ⟨b, hissue, hblocks, rfl, -⟩ := Reader.actions_eq_ok h
  have hover := r.lines_over file text
  have hstart : ({ ids := s.ids } : Builder).Written := ⟨.nil, fun _ h => absurd h List.not_mem_nil⟩
  obtain ⟨-, hb⟩ := Builder.issueAll_induction (P := fun b => b.Numbered s.ids ∧ b.Written)
    (fun l hl b b' hb hissue =>
      ⟨(hissue.numbered (hover l hl).sound.computes hb.1).2, hissue.written (hover l hl) hb.1 hb.2⟩)
    ⟨.start s.ids, hstart⟩ hissue
  have hacts := hb.actions
  rwa [Builder.inMacro, hblocks] at hacts

/-! ## Includes -/

namespace Assembler

theorem locating_eq_ok {α : Type} {loc : Location} {m : SessionM α} {a : α} {s s' : Session} :
    locating loc m s = .ok a s' ↔ m s = .ok a s' :=
  tryCatch_eq_ok fun _ _ _ _ => throw_ne_ok

/-- What an include is replaced by, and that all else stays. -/
theorem replaceInclude_eq_ok {asm : Assembler} {nested : Option (List Action → SessionM (List Action))}
    {a : Action} {bs : List Action} {s s' : Session} (h : asm.replaceInclude nested a s = .ok bs s') :
    (bs = [a] ∧ s' = s ∧ ¬ a.op.Includes) ∨
      (∃ name inc f acts s₁ s₂, a.op = .includeSource name ∧ asm.includer = some inc ∧
        nested = some f ∧ inc.source name a.location s = .ok acts s₁ ∧ s₂.ids = s₁.ids ∧
        f acts s₂ = .ok bs s') ∨
      ∃ name args inc bytes s₁, a.op = .includeBinary name args ∧ asm.includer = some inc ∧
        inc.binary name a.location s = .ok bytes s₁ ∧ s'.ids = s₁.ids ∧
        bs = args.flatten ++ [Action.plain a.location (.bytes name bytes)] := by
  obtain ⟨loc, op, x⟩ := a
  cases op with
  | includeSource name =>
      cases hasm : asm.includer with
      | none =>
          simp only [replaceInclude, hasm] at h
          exact absurd h throw_ne_ok
      | some inc =>
          cases nested with
          | none =>
              simp only [replaceInclude, hasm] at h
              exact absurd h throw_ne_ok
          | some f =>
              simp only [replaceInclude, hasm] at h
              obtain ⟨acts, s₁, hsource, h⟩ := bind_eq_ok.mp h
              obtain ⟨_, s₂, hnote, h⟩ := bind_eq_ok.mp h
              cases hnote
              have hsource := locating_eq_ok.mp hsource
              refine .inr (.inl ⟨name, inc, f, acts, s₁, _, rfl, rfl, rfl, hsource, ?_, h⟩)
              rfl
  | includeBinary name args =>
      cases hasm : asm.includer with
      | none =>
          simp only [replaceInclude, hasm] at h
          exact absurd h throw_ne_ok
      | some inc =>
          simp only [replaceInclude, hasm] at h
          obtain ⟨bytes, s₁, hbinary, h⟩ := bind_eq_ok.mp h
          obtain ⟨_, s₂, hnote, h⟩ := bind_eq_ok.mp h
          cases hnote
          obtain ⟨rfl, rfl⟩ := pure_eq_ok.mp h
          have hbinary := locating_eq_ok.mp hbinary
          exact .inr (.inr ⟨name, args, inc, bytes, s₁, rfl, rfl, hbinary, rfl, rfl⟩)
  | _ =>
      obtain ⟨rfl, rfl⟩ := pure_eq_ok.mp h
      exact .inl ⟨rfl, rfl, nofun⟩

section

variable {f : Action → SessionM (List Action)}

theorem replaceEach_cons_eq_ok {a : Action} {rest r : List Action} {s s' : Session}
    (h : replaceEach f (a :: rest) s = .ok r s') :
    ∃ bs rest' s₁, f a s = .ok bs s₁ ∧ replaceEach f rest s₁ = .ok rest' s' ∧ r = bs ++ rest' := by
  rw [replaceEach] at h
  obtain ⟨bs, s₁, ha, h⟩ := bind_eq_ok.mp h
  obtain ⟨rest', s₂, hrest, h⟩ := bind_eq_ok.mp h
  obtain ⟨rfl, rfl⟩ := pure_eq_ok.mp h
  exact ⟨bs, rest', s₁, ha, hrest, rfl⟩

theorem replaceEach_append_eq_ok {as bs r : List Action} {s s' : Session}
    (h : replaceEach f (as ++ bs) s = .ok r s') :
    ∃ ra rb s₁, replaceEach f as s = .ok ra s₁ ∧ replaceEach f bs s₁ = .ok rb s' ∧ r = ra ++ rb := by
  induction as generalizing r s with
  | nil => exact ⟨[], r, s, rfl, h, rfl⟩
  | cons a rest ih =>
      obtain ⟨a', r', s₁, ha, htail, rfl⟩ := replaceEach_cons_eq_ok h
      obtain ⟨ra, rb, s₂, hrest, hbs, rfl⟩ := ih htail
      refine ⟨a' ++ ra, rb, s₂, ?_, hbs, (List.append_assoc _ _ _).symm⟩
      rw [replaceEach]
      exact bind_eq_ok.mpr ⟨a', s₁, ha, bind_eq_ok.mpr ⟨ra, s₂, hrest, rfl⟩⟩

/-- Actions that are each replaced by themselves stay. -/
theorem replaceEach_keep {e r : List Action} {s s' : Session}
    (hf : ∀ a ∈ e, ∀ bs s s', f a s = .ok bs s' → bs = [a])
    (h : replaceEach f e s = .ok r s') : r = e := by
  induction e generalizing r s with
  | nil => exact (pure_eq_ok.mp h).1
  | cons a rest ih =>
      obtain ⟨ha, hrest⟩ := List.forall_mem_cons.mp hf
      obtain ⟨bs, rest', s₁, hbs, htail, rfl⟩ := replaceEach_cons_eq_ok h
      rw [ha bs s s₁ hbs, ih hrest htail]
      rfl

/-- Clauses whose expressions stay, and whose actions are replaced by what
goes with these expressions. -/
theorem replaceEach_clauses {E E' : List Action → Prop} {A A' : Action → Prop}
    (hkeep : ∀ e, E e → ∀ a ∈ e, ∀ bs s s', f a s = .ok bs s' → bs = [a])
    (hreplace : ∀ c : Clause, c.Fits E A → ∀ bs s s', f c.action s = .ok bs s' →
      InClauses E' A' (c.exprs.flatten ++ bs))
    {acts r : List Action} {s s' : Session} (hacts : InClauses E A acts)
    (h : replaceEach f acts s = .ok r s') : InClauses E' A' r := by
  obtain ⟨cs, rfl, hcs⟩ := hacts
  induction cs generalizing r s with
  | nil =>
      obtain ⟨rfl, -⟩ := pure_eq_ok.mp h
      exact .nil
  | cons c rest ih =>
      obtain ⟨hc, hrest⟩ := List.forall_mem_cons.mp hcs
      rw [List.flatMap_cons, Clause.actions, List.append_assoc, List.singleton_append] at h
      obtain ⟨e, r', s₁, he, htail, rfl⟩ := replaceEach_append_eq_ok h
      obtain ⟨bs, rest', s₂, hbs, hlast, rfl⟩ := replaceEach_cons_eq_ok htail
      -- the expressions of a clause hold no include, so they pass through
      have hexprs : e = c.exprs.flatten := replaceEach_keep (fun a ha => by
        obtain ⟨e, he, ha⟩ := List.mem_flatten.mp ha
        exact hkeep e (hc.exprs e he) a ha) he
      rw [hexprs, ← List.append_assoc]
      exact (hreplace c hc bs s₁ s₂ hbs).append (ih hrest hlast)

end

theorem replaceInclude_resolved {asm : Assembler}
    {nested : Option (List Action → SessionM (List Action))}
    (hinc : ∀ inc, asm.includer = some inc → inc.Lowered)
    (hnested : ∀ f, nested = some f → ∀ acts r s s', WrittenClauses Op.Written acts →
      f acts s = .ok r s' → WrittenClauses Op.Resolved r)
    {c : Clause} (hc : c.Fits (IsExprOver IsWritten) (Action.IsPlain Op.Written)) {bs : List Action}
    {s s' : Session} (h : asm.replaceInclude nested c.action s = .ok bs s') :
    WrittenClauses Op.Resolved (c.exprs.flatten ++ bs) := by
  rcases replaceInclude_eq_ok h with ⟨rfl, -, hnot⟩ |
    ⟨name, inc, f, acts, s₁, s₂, hop, hasm, rfl, hsource, -, hacts⟩ |
    ⟨name, args, inc, bytes, s₁, hop, -, -, -, rfl⟩
  · have hop : c.action.op.Resolved := hc.action.2.imp_right fun h => .inl (h.resolve_right hnot)
    exact .single (c := c) ⟨hc.exprs, hc.count, hc.action.1, hop⟩
  -- an include of a source has no operand, so the text stands alone in its place
  · have hnone : c.exprs = [] := hc.exprs_eq_nil (by rw [hop]; rfl)
    rw [hnone]
    have hlowered := hinc inc hasm name _ acts ⟨s, s₁, hsource⟩
    exact hnested f rfl acts bs s₂ s' hlowered.written hacts
  · have hnone : c.exprs = [] := hc.exprs_eq_nil (by rw [hop]; rfl)
    have haction := hc.action.2
    rw [hop] at haction
    rw [hnone]
    obtain h | h | h := haction
    · cases h
    · cases h
    · cases h with
      | @binary _ skip length hskip hlength =>
          refine .single (c := ⟨[skip, length], _⟩) ⟨?_, rfl, rfl, .inr (.inr ⟨name, bytes, rfl⟩)⟩
          exact fun e he => (List.mem_pair.mp he).elim (· ▸ hskip) (· ▸ hlength)

/-- With all files included a program is clauses over written names. -/
theorem resolveIncludes_resolved {asm : Assembler}
    (hinc : ∀ inc, asm.includer = some inc → inc.Lowered) (levels : Nat) {acts r : List Action}
    {s s' : Session} (hacts : WrittenClauses Op.Written acts)
    (h : asm.resolveIncludes levels acts s = .ok r s') : WrittenClauses Op.Resolved r := by
  have hkeep : ∀ nested e, IsExprOver IsWritten e → ∀ a ∈ e, ∀ bs s s',
      asm.replaceInclude nested a s = .ok bs s' → bs = [a] := by
    intro nested e he a ha bs s s' h
    have hop := he.isExpr.computes a ha
    rcases replaceInclude_eq_ok h with ⟨rfl, -⟩ | ⟨_, _, _, _, _, _, hinclude, -⟩ |
      ⟨_, _, _, _, _, hinclude, -⟩
    · rfl
    · rw [hinclude] at hop
      cases hop
    · rw [hinclude] at hop
      cases hop
  induction levels generalizing acts r s s' with
  | zero =>
      rw [resolveIncludes] at h
      refine replaceEach_clauses (hkeep none) (fun c hc bs s s' hbs => ?_) hacts h
      exact replaceInclude_resolved hinc (fun f hf => by cases hf) hc hbs
  | succ levels ih =>
      rw [resolveIncludes] at h
      refine replaceEach_clauses (hkeep _) (fun c hc bs s s' hbs => ?_) hacts h
      refine replaceInclude_resolved hinc (fun f hf acts r s s' hacts h => ?_) hc hbs
      cases hf
      exact ih hacts h

end Assembler

end Mos6510
