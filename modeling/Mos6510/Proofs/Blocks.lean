import Mos6510.Proofs.Issue
import Mos6510.Proofs.Lowering

/-!
# The language of blocks

Whether lines can be lowered, if only their expressions fold and their instructions
can be encoded, depends on how they open and close blocks.

* `Nonterminal.Derives`: the grammar of properly nested lines;
* `Statement.next`: which blocks are open after a statement, and whether it may come;
  `Builder.issueAll_ok_iff`: the builder does just that;
* `runBlocks_iff`: the grammar and these steps accept the same lines;
* `Builder.issueAll_follows`: what lines become does not depend on the actions and the
  open blocks around them;
* `Builder.accepts_nested`: so the builder accepts the lines that the grammar derives,
  and a macro is made of what its lines become on their own.
-/

namespace Mos6510

open Outcome

/-! ## The grammar -/

/-- The statement opens, divides or closes a block. -/
def Statement.dividesBlock : Statement → Bool
  | .openIf _ | .elseIf _ | .otherwise | .closeIf | .openRepeat _ | .closeRepeat | .openWhile _
  | .closeWhile | .openMacro _ _ | .closeMacro => true
  | _ => false

/-- What lines are derived from. -/
inductive Nonterminal where
  /-- Lines outside all blocks. -/
  | program
  /-- Lines between the parts of a block, inside or outside a macro. -/
  | body (inMacro : Bool)
  /-- The branches of a condition after the first, with what closes it. -/
  | branches (inMacro : Bool)

/-- Properly nested lines. -/
inductive Nonterminal.Derives : Nonterminal → List Line → Prop
  | done : Nonterminal.Derives .program []
  | outside {ls rest : List Line} :
      Nonterminal.Derives (.body false) ls → Nonterminal.Derives .program rest →
        Nonterminal.Derives .program (ls ++ rest)
  | definition {loc close : Location} {name : String} {params : List String}
      {ls rest : List Line} :
      Nonterminal.Derives (.body true) ls → Nonterminal.Derives .program rest →
        Nonterminal.Derives .program
          (⟨loc, .openMacro name params⟩ :: (ls ++ ⟨close, .closeMacro⟩ :: rest))
  | empty {m : Bool} : Nonterminal.Derives (.body m) []
  | simple {m : Bool} {l : Line} {rest : List Line} :
      l.statement.dividesBlock = false → (m && l.statement.isOutermost) = false →
        Nonterminal.Derives (.body m) rest → Nonterminal.Derives (.body m) (l :: rest)
  | condition {m : Bool} {loc : Location} {cond : List Action} {ls others rest : List Line} :
      Nonterminal.Derives (.body m) ls → Nonterminal.Derives (.branches m) others →
        Nonterminal.Derives (.body m) rest →
          Nonterminal.Derives (.body m) (⟨loc, .openIf cond⟩ :: (ls ++ (others ++ rest)))
  | repetition {m : Bool} {loc close : Location} {count : List Action} {ls rest : List Line} :
      Nonterminal.Derives (.body m) ls → Nonterminal.Derives (.body m) rest →
        Nonterminal.Derives (.body m)
          (⟨loc, .openRepeat count⟩ :: (ls ++ ⟨close, .closeRepeat⟩ :: rest))
  | loop {m : Bool} {loc close : Location} {cond : List Action} {ls rest : List Line} :
      Nonterminal.Derives (.body m) ls → Nonterminal.Derives (.body m) rest →
        Nonterminal.Derives (.body m)
          (⟨loc, .openWhile cond⟩ :: (ls ++ ⟨close, .closeWhile⟩ :: rest))
  | elseIf {m : Bool} {loc : Location} {cond : List Action} {ls others : List Line} :
      Nonterminal.Derives (.body m) ls → Nonterminal.Derives (.branches m) others →
        Nonterminal.Derives (.branches m) (⟨loc, .elseIf cond⟩ :: (ls ++ others))
  | otherwise {m : Bool} {loc close : Location} {ls : List Line} :
      Nonterminal.Derives (.body m) ls →
        Nonterminal.Derives (.branches m) (⟨loc, .otherwise⟩ :: (ls ++ [⟨close, .closeIf⟩]))
  | close {m : Bool} {loc : Location} : Nonterminal.Derives (.branches m) [⟨loc, .closeIf⟩]

/-! ## Open blocks -/

/-- What of an open block decides which statements may come. -/
inductive Opened where
  /-- A condition, and whether it may have another branch. -/
  | condition (more : Bool)
  | repetition
  | loop
  | definition
  deriving DecidableEq

/-- An open block without its numbers. -/
def Block.opened : Block → Opened
  | .condition _ _ next => .condition next.isSome
  | .repetition _ _ _ _ => .repetition
  | .loop _ _ _ => .loop
  | .definition _ _ _ _ => .definition

/-- Is a macro among the open blocks? -/
def withinMacro (σ : List Opened) : Bool := σ.any (· == .definition)

/-- The open blocks after a statement, innermost first, if it may come. -/
def Statement.next (open? : List Opened) : Statement → Option (List Opened)
  | .openIf _ => some (.condition true :: open?)
  | .elseIf _ =>
    match open? with
    | .condition true :: _ => some open?
    | _ => none
  | .otherwise =>
    match open? with
    | .condition true :: outer => some (.condition false :: outer)
    | _ => none
  | .closeIf =>
    match open? with
    | .condition _ :: outer => some outer
    | _ => none
  | .openRepeat _ => some (.repetition :: open?)
  | .closeRepeat =>
    match open? with
    | .repetition :: outer => some outer
    | _ => none
  | .openWhile _ => some (.loop :: open?)
  | .closeWhile =>
    match open? with
    | .loop :: outer => some outer
    | _ => none
  | .openMacro _ _ =>
    match open? with
    | [] => some [.definition]
    | _ => none
  | .closeMacro =>
    match open? with
    | .definition :: outer => some outer
    | _ => none
  | .call _ _ | .includeSource _ | .includeBinary _ _ _ =>
    if withinMacro open? then none else some open?
  | _ => some open?

/-- The open blocks after some lines, if they may come. -/
def runBlocks : List Line → List Opened → Option (List Opened)
  | [], σ => some σ
  | l :: rest, σ => (l.statement.next σ).bind (runBlocks rest)

theorem runBlocks_append (as bs : List Line) (σ : List Opened) :
    runBlocks (as ++ bs) σ = (runBlocks as σ).bind (runBlocks bs) := by
  induction as generalizing σ with
  | nil => rfl
  | cons l rest ih =>
      rw [List.cons_append, runBlocks, runBlocks, Option.bind_assoc]
      exact congrArg (Option.bind _) (funext ih)

/-- A statement that leaves the blocks alone may come outside macros, and in them
unless it is outermost. -/
theorem Statement.next_simple {stmt : Statement} {σ : List Opened}
    (hdivides : stmt.dividesBlock = false) :
    stmt.next σ = if withinMacro σ && stmt.isOutermost then none else some σ := by
  cases stmt with
  | openIf | elseIf | otherwise | closeIf | openRepeat | closeRepeat | openWhile | closeWhile
  | openMacro | closeMacro => cases hdivides
  | call | includeSource | includeBinary => simp [next, isOutermost]
  | assign | label | instruction | data | text | metaLabel | goto | message =>
      simp [next, isOutermost]

/-! ## The builder and its blocks -/

/-- The expressions of a line fold, and its instruction can be encoded. -/
structure Line.Encodable (l : Line) : Prop where
  folds : ∀ e ∈ l.statement.exprs, ∃ e', foldConstant e = .ok e'
  encodes : ∀ mnemonic operand, l.statement = .instruction mnemonic operand →
    ∃ acts, operand.resolve l.location mnemonic = .ok acts

namespace Builder

/-- The open blocks without their numbers. -/
def opened (b : Builder) : List Opened := b.blocks.map Block.opened

variable {b b' c : Builder} {u : Unit} {loc : Location} {stmt : Statement}

theorem inMacro_eq : b.inMacro = withinMacro b.opened := by
  rw [inMacro, withinMacro, opened, List.any_map]
  refine congrArg (List.any _) (funext fun blk => ?_)
  cases blk <;> rfl

/-- What a statement does to the blocks, if it is lowered. -/
theorem Issued.next_eq (h : Issued loc stmt b b') : stmt.next b.opened = some b'.opened := by
  obtain ⟨ids, actions, blocks⟩ := b
  cases h with
  | adds hadds hallowed =>
      rw [inMacro_eq] at hallowed
      cases hadds with
      | simple hlowers =>
          have hdivides : stmt.dividesBlock = false := by cases hlowers <;> rfl
          rw [Statement.next_simple hdivides, hallowed]
          rfl
      | openIf | elseIf | otherwise | closeIf | openRepeat | closeRepeat | openWhile | closeWhile =>
          rfl
  | openMacro hblocks =>
      cases hblocks
      rfl
  | closeMacro hblocks =>
      cases hblocks
      rfl

/-- A folded expression can be put at a location. -/
theorem foldAt_ok {expr e : List Action} (loc : Location) (h : foldConstant expr = .ok e) :
    foldAt loc expr = .ok e := by
  rw [foldAt, h]

theorem foldAllAt_ok (loc : Location) {args : List (List Action)}
    (h : ∀ arg ∈ args, ∃ e, foldConstant arg = .ok e) : ∃ es, foldAllAt loc args = .ok es := by
  induction args with
  | nil => exact ⟨[], rfl⟩
  | cons arg rest ih =>
      obtain ⟨⟨e, he⟩, hrest⟩ := List.forall_mem_cons.mp h
      obtain ⟨es, hes⟩ := ih hrest
      exact ⟨e :: es, by rw [foldAllAt, foldAt_ok loc he, hes]; rfl⟩

theorem messageArgs_ok (loc : Location) {args : List MessageArg}
    (h : ∀ arg ∈ args, ∀ expr ∈ arg.exprs, ∃ e, foldConstant expr = .ok e) :
    ∃ es, messageArgs loc args = .ok es := by
  induction args with
  | nil => exact ⟨[], rfl⟩
  | cons arg rest ih =>
      obtain ⟨harg, hrest⟩ := List.forall_mem_cons.mp h
      obtain ⟨es, hes⟩ := ih hrest
      cases arg with
      | text s => exact ⟨_, by rw [messageArgs, hes]; rfl⟩
      | expr expr =>
          obtain ⟨e, he⟩ := harg expr List.mem_cons_self
          exact ⟨_, by rw [messageArgs, messageArg, foldAt_ok loc he, hes]; rfl⟩

theorem addResult_ok {acts : Except Error (List Action)} {as : List Action} (h : acts = .ok as) :
    addResult acts b = .ok () (b.add as) := by
  rw [h]
  rfl

/-- A statement that may come is lowered. -/
theorem issue_ok {l : Line} (hl : l.Encodable) {σ : List Opened}
    (h : l.statement.next b.opened = some σ) :
    ∃ b', issue l.location l.statement b = .ok () b' := by
  obtain ⟨loc, stmt⟩ := l
  obtain ⟨ids, actions, blocks⟩ := b
  obtain ⟨hfolds, hencodes⟩ := hl
  dsimp only at hfolds hencodes h ⊢
  have hfold : ∀ e ∈ stmt.exprs, ∃ e', foldAt loc e = .ok e' := fun e he =>
    (hfolds e he).imp fun _ h => foldAt_ok loc h
  -- what may stand outside macros only is not in one, by the grammar of open blocks
  have hallowed : stmt.dividesBlock = false → stmt.isOutermost = true →
      Builder.inMacro ⟨ids, actions, blocks⟩ = false := by
    intro hdivides houtermost
    rw [Statement.next_simple hdivides, houtermost, Bool.and_true, ← inMacro_eq] at h
    split at h
    · cases h
    · rename_i hin
      exact Bool.not_eq_true _ ▸ hin
  cases stmt with
  | label | text | metaLabel | goto => exact ⟨_, rfl⟩
  | assign | data =>
      obtain ⟨e, he⟩ := hfold _ List.mem_cons_self
      exact ⟨_, addResult_ok (except_bind_eq_ok.mpr ⟨e, he, rfl⟩)⟩
  | instruction mnemonic operand =>
      obtain ⟨acts, hacts⟩ := hencodes _ _ rfl
      exact ⟨_, addResult_ok (by rw [hacts])⟩
  | openIf =>
      obtain ⟨e, he⟩ := hfold _ List.mem_cons_self
      exact ⟨_, by rw [issue, openIf]; dsimp only; rw [he]⟩
  | openRepeat =>
      obtain ⟨e, he⟩ := hfold _ List.mem_cons_self
      exact ⟨_, by rw [issue, openRepeat]; dsimp only; rw [he]⟩
  | openWhile =>
      obtain ⟨e, he⟩ := hfold _ List.mem_cons_self
      exact ⟨_, by rw [issue, openWhile]; dsimp only; rw [he]⟩
  | elseIf =>
      obtain ⟨e, he⟩ := hfold _ List.mem_cons_self
      rcases blocks with _ | ⟨⟨_, _, _ | _⟩ | _ | _ | _, outer⟩ <;>
        first | exact ⟨_, by rw [issue, elseIf]; dsimp only; rw [he]⟩ | cases h
  | otherwise =>
      rcases blocks with _ | ⟨⟨_, _, _ | _⟩ | _ | _ | _, outer⟩ <;>
        first | exact ⟨_, rfl⟩ | cases h
  | closeIf | closeRepeat | closeWhile | closeMacro | openMacro =>
      rcases blocks with _ | ⟨_ | _ | _ | _, outer⟩ <;> first | exact ⟨_, rfl⟩ | cases h
  | call name args =>
      obtain ⟨es, hes⟩ := foldAllAt_ok loc hfolds
      refine ⟨_, (if_neg ?_).trans (addResult_ok (except_bind_eq_ok.mpr ⟨es, hes, rfl⟩))⟩
      rw [hallowed rfl rfl]
      exact Bool.false_ne_true
  | message level formatted args =>
      obtain ⟨es, hes⟩ := messageArgs_ok loc fun arg harg expr hexpr =>
        hfolds expr (List.mem_flatMap.mpr ⟨arg, harg, hexpr⟩)
      exact ⟨_, addResult_ok (except_bind_eq_ok.mpr ⟨es, hes, rfl⟩)⟩
  | includeSource =>
      refine ⟨_, (if_neg ?_).trans rfl⟩
      rw [hallowed rfl rfl]
      exact Bool.false_ne_true
  | includeBinary name skip length =>
      obtain ⟨e, he⟩ := hfold _ List.mem_cons_self
      obtain ⟨e', he'⟩ := hfold _ (List.mem_cons_of_mem _ List.mem_cons_self)
      refine ⟨_, (if_neg ?_).trans (addResult_ok (except_bind_eq_ok.mpr ⟨e, he,
        except_bind_eq_ok.mpr ⟨e', he', rfl⟩⟩))⟩
      rw [hallowed rfl rfl]
      exact Bool.false_ne_true

/-- Lines can be lowered just if they may come. -/
theorem issueAll_ok_iff {lines : List Line} (hlines : ∀ l ∈ lines, l.Encodable) {σ : List Opened} :
    (∃ b', issueAll lines b = .ok () b' ∧ b'.opened = σ) ↔ runBlocks lines b.opened = some σ := by
  induction lines generalizing b with
  | nil =>
      rw [runBlocks, Option.some_inj]
      exact ⟨fun ⟨b', h, hσ⟩ => by obtain ⟨-, rfl⟩ := pure_eq_ok.mp h; exact hσ,
        fun h => ⟨b, rfl, h⟩⟩
  | cons l rest ih =>
      obtain ⟨hl, hrest⟩ := List.forall_mem_cons.mp hlines
      rw [runBlocks, Option.bind_eq_some_iff]
      constructor
      · rintro ⟨b', h, hσ⟩
        obtain ⟨b₁, hissue, h⟩ := issueAll_cons_eq_ok h
        exact ⟨b₁.opened, (Issued.of_issue hissue).next_eq, (ih hrest).mp ⟨b', h, hσ⟩⟩
      · rintro ⟨σ₁, hnext, h⟩
        obtain ⟨b₁, hissue⟩ := issue_ok hl hnext
        obtain rfl : b₁.opened = σ₁ :=
          Option.some_inj.mp ((Issued.of_issue hissue).next_eq.symm.trans hnext)
        obtain ⟨b', hall, hσ⟩ := (ih hrest).mpr h
        exact ⟨b', bind_eq_ok.mpr ⟨(), b₁, hissue, hall⟩, hσ⟩

end Builder

/-! ## The grammar and its steps -/

/-- The lines that a nonterminal derives leave the open blocks as they are, or close
the condition that they belong to. -/
def Nonterminal.Runs : Nonterminal → List Line → Prop
  | .program, ls => runBlocks ls [] = some []
  | .body m, ls => ∀ σ, withinMacro σ = m → runBlocks ls σ = some σ
  | .branches m, ls => ∀ σ, withinMacro σ = m → runBlocks ls (.condition true :: σ) = some σ

theorem Nonterminal.Derives.runs {n : Nonterminal} {ls : List Line} (h : n.Derives ls) :
    n.Runs ls := by
  induction h with
  | done => rfl
  -- each rule opens a block at most once, and the lines inside it are run on top of that block
  | outside _ _ ihls ihrest =>
      rw [Runs, runBlocks_append, ihls [] rfl]
      exact ihrest
  | definition _ _ ihls ihrest =>
      have hls := ihls [.definition] rfl
      simp only [Runs, runBlocks, Statement.next, Option.bind_some, runBlocks_append, hls]
      exact ihrest
  | empty => exact fun _ _ => rfl
  | simple hdivides hallowed _ ih =>
      intro σ hσ
      rw [runBlocks, Statement.next_simple hdivides, hσ, hallowed]
      exact ih σ hσ
  | condition _ _ _ ihls ihothers ihrest =>
      intro σ hσ
      have hls := ihls (.condition true :: σ) hσ
      simp only [runBlocks, Statement.next, Option.bind_some, runBlocks_append, hls,
        ihothers σ hσ, ihrest σ hσ]
  | repetition _ _ ihls ihrest =>
      intro σ hσ
      have hls := ihls (.repetition :: σ) hσ
      simp only [runBlocks, Statement.next, Option.bind_some, runBlocks_append, hls, ihrest σ hσ]
  | loop _ _ ihls ihrest =>
      intro σ hσ
      have hls := ihls (.loop :: σ) hσ
      simp only [runBlocks, Statement.next, Option.bind_some, runBlocks_append, hls, ihrest σ hσ]
  | elseIf _ _ ihls ihothers =>
      intro σ hσ
      have hls := ihls (.condition true :: σ) hσ
      simp only [runBlocks, Statement.next, Option.bind_some, runBlocks_append, hls,
        ihothers σ hσ]
  | otherwise _ ihls =>
      intro σ hσ
      have hls := ihls (.condition false :: σ) hσ
      simp only [runBlocks, Statement.next, Option.bind_some, runBlocks_append, hls]
  | close => exact fun _ _ => rfl

/-- What closes an open block, from inside of it; `m` says whether it is in a macro. -/
inductive Opened.Closes (m : Bool) : Opened → List Line → Prop
  | branches {ls others : List Line} :
      Nonterminal.Derives (.body m) ls → Nonterminal.Derives (.branches m) others →
        Opened.Closes m (.condition true) (ls ++ others)
  | closeIf {ls : List Line} {loc : Location} :
      Nonterminal.Derives (.body m) ls →
        Opened.Closes m (.condition false) (ls ++ [⟨loc, .closeIf⟩])
  | closeRepeat {ls : List Line} {loc : Location} :
      Nonterminal.Derives (.body m) ls →
        Opened.Closes m .repetition (ls ++ [⟨loc, .closeRepeat⟩])
  | closeWhile {ls : List Line} {loc : Location} :
      Nonterminal.Derives (.body m) ls → Opened.Closes m .loop (ls ++ [⟨loc, .closeWhile⟩])
  | closeMacro {ls : List Line} {loc : Location} :
      Nonterminal.Derives (.body true) ls →
        Opened.Closes m .definition (ls ++ [⟨loc, .closeMacro⟩])

/-- What closes all open blocks, and goes on outside of them. -/
inductive Finishes : List Opened → List Line → Prop
  | nil {ls : List Line} : Nonterminal.Derives .program ls → Finishes [] ls
  | cons {o : Opened} {σ : List Opened} {ls rest : List Line} :
      o.Closes (withinMacro σ) ls → Finishes σ rest → Finishes (o :: σ) (ls ++ rest)

/-- Lines that may stand before those of any body. -/
def Prepends (m : Bool) (ls : List Line) : Prop :=
  ∀ rest, Nonterminal.Derives (.body m) rest → Nonterminal.Derives (.body m) (ls ++ rest)

theorem Opened.Closes.prepend {o : Opened} {σ : List Opened} {first ls : List Line}
    (h : o.Closes (withinMacro σ) ls) (hfirst : Prepends (withinMacro (o :: σ)) first) :
    o.Closes (withinMacro σ) (first ++ ls) := by
  cases h with
  | branches hls hothers =>
      rw [← List.append_assoc]
      exact .branches (hfirst _ hls) hothers
  | closeIf hls =>
      rw [← List.append_assoc]
      exact .closeIf (hfirst _ hls)
  | closeRepeat hls =>
      rw [← List.append_assoc]
      exact .closeRepeat (hfirst _ hls)
  | closeWhile hls =>
      rw [← List.append_assoc]
      exact .closeWhile (hfirst _ hls)
  | closeMacro hls =>
      rw [← List.append_assoc]
      exact .closeMacro (hfirst _ hls)

namespace Finishes

variable {σ : List Opened} {ls rest : List Line} {loc : Location} {cond : List Action}

theorem prepend (h : Finishes σ rest) (hls : Prepends (withinMacro σ) ls) :
    Finishes σ (ls ++ rest) := by
  cases h with
  | nil hrest =>
      have hbody := hls [] .empty
      rw [List.append_nil] at hbody
      exact .nil (.outside hbody hrest)
  | cons hcloses hrest =>
      rw [← List.append_assoc]
      exact .cons (hcloses.prepend hls) hrest

theorem openIf (h : Finishes (.condition true :: σ) rest) :
    Finishes σ (⟨loc, .openIf cond⟩ :: rest) := by
  cases h with
  | @cons _ _ _ rest' hcloses hrest =>
      cases hcloses with
      | @branches ls others hls hothers =>
          show Finishes σ (⟨loc, .openIf cond⟩ :: (ls ++ others) ++ rest')
          refine hrest.prepend fun more hmore => ?_
          rw [List.cons_append, List.append_assoc]
          exact .condition hls hothers hmore

theorem openRepeat (h : Finishes (.repetition :: σ) rest) :
    Finishes σ (⟨loc, .openRepeat cond⟩ :: rest) := by
  cases h with
  | @cons _ _ _ rest' hcloses hrest =>
      cases hcloses with
      | @closeRepeat ls close hls =>
          show Finishes σ (⟨loc, .openRepeat cond⟩ :: (ls ++ [⟨close, .closeRepeat⟩]) ++ rest')
          refine hrest.prepend fun more hmore => ?_
          rw [List.cons_append, List.append_assoc]
          exact .repetition hls hmore

theorem openWhile (h : Finishes (.loop :: σ) rest) :
    Finishes σ (⟨loc, .openWhile cond⟩ :: rest) := by
  cases h with
  | @cons _ _ _ rest' hcloses hrest =>
      cases hcloses with
      | @closeWhile ls close hls =>
          show Finishes σ (⟨loc, .openWhile cond⟩ :: (ls ++ [⟨close, .closeWhile⟩]) ++ rest')
          refine hrest.prepend fun more hmore => ?_
          rw [List.cons_append, List.append_assoc]
          exact .loop hls hmore

theorem openMacro {name : String} {params : List String} (h : Finishes [.definition] rest) :
    Finishes [] (⟨loc, .openMacro name params⟩ :: rest) := by
  cases h with
  | cons hcloses hrest =>
      cases hcloses with
      | closeMacro hls =>
          cases hrest with
          | nil hrest =>
              rw [List.append_assoc]
              exact .nil (.definition hls hrest)

theorem elseIf (h : Finishes (.condition true :: σ) rest) :
    Finishes (.condition true :: σ) (⟨loc, .elseIf cond⟩ :: rest) := by
  cases h with
  | @cons _ _ _ rest' hcloses hrest =>
      cases hcloses with
      | @branches ls others hls hothers =>
          show Finishes _ (([] ++ ⟨loc, .elseIf cond⟩ :: (ls ++ others)) ++ rest')
          exact .cons (.branches .empty (.elseIf hls hothers)) hrest

theorem otherwise (h : Finishes (.condition false :: σ) rest) :
    Finishes (.condition true :: σ) (⟨loc, .otherwise⟩ :: rest) := by
  cases h with
  | @cons _ _ _ rest' hcloses hrest =>
      cases hcloses with
      | @closeIf ls close hls =>
          show Finishes _ (([] ++ ⟨loc, .otherwise⟩ :: (ls ++ [⟨close, .closeIf⟩])) ++ rest')
          exact .cons (.branches .empty (.otherwise hls)) hrest

theorem closeIf (h : Finishes σ rest) (more : Bool) :
    Finishes (.condition more :: σ) (⟨loc, .closeIf⟩ :: rest) := by
  show Finishes _ (([] ++ [⟨loc, .closeIf⟩]) ++ rest)
  cases more with
  | false => exact .cons (.closeIf .empty) h
  | true => exact .cons (.branches .empty .close) h

theorem closeRepeat (h : Finishes σ rest) :
    Finishes (.repetition :: σ) (⟨loc, .closeRepeat⟩ :: rest) := by
  show Finishes _ (([] ++ [⟨loc, .closeRepeat⟩]) ++ rest)
  exact .cons (.closeRepeat .empty) h

theorem closeWhile (h : Finishes σ rest) : Finishes (.loop :: σ) (⟨loc, .closeWhile⟩ :: rest) := by
  show Finishes _ (([] ++ [⟨loc, .closeWhile⟩]) ++ rest)
  exact .cons (.closeWhile .empty) h

theorem closeMacro (h : Finishes σ rest) :
    Finishes (.definition :: σ) (⟨loc, .closeMacro⟩ :: rest) := by
  show Finishes _ (([] ++ [⟨loc, .closeMacro⟩]) ++ rest)
  exact .cons (.closeMacro .empty) h

/-- A statement that may come, before lines that close the blocks then open. -/
theorem step {l : Line} {σ₁ : List Opened} (hnext : l.statement.next σ = some σ₁)
    (h : Finishes σ₁ rest) : Finishes σ (l :: rest) := by
  obtain ⟨loc, stmt⟩ := l
  dsimp only at hnext
  cases hdivides : stmt.dividesBlock with
  | false =>
      rw [Statement.next_simple hdivides] at hnext
      split at hnext
      · cases hnext
      · rename_i hallowed
        cases hnext
        show Finishes σ ([⟨loc, stmt⟩] ++ rest)
        exact h.prepend fun _ hbody => .simple hdivides (Bool.not_eq_true _ ▸ hallowed) hbody
  | true =>
      -- a line that divides blocks fits one shape of the innermost open block only
      cases stmt with
      | openIf =>
          cases hnext
          exact h.openIf
      | openRepeat =>
          cases hnext
          exact h.openRepeat
      | openWhile =>
          cases hnext
          exact h.openWhile
      | openMacro =>
          cases σ <;> cases hnext
          exact h.openMacro
      | elseIf =>
          rcases σ with _ | ⟨⟨_ | _⟩ | _ | _ | _, σ⟩ <;> cases hnext
          exact h.elseIf
      | otherwise =>
          rcases σ with _ | ⟨⟨_ | _⟩ | _ | _ | _, σ⟩ <;> cases hnext
          exact h.otherwise
      | closeIf =>
          rcases σ with _ | ⟨_ | _ | _ | _, σ⟩ <;> cases hnext
          exact h.closeIf _
      | closeRepeat =>
          rcases σ with _ | ⟨_ | _ | _ | _, σ⟩ <;> cases hnext
          exact h.closeRepeat
      | closeWhile =>
          rcases σ with _ | ⟨_ | _ | _ | _, σ⟩ <;> cases hnext
          exact h.closeWhile
      | closeMacro =>
          rcases σ with _ | ⟨_ | _ | _ | _, σ⟩ <;> cases hnext
          exact h.closeMacro
      | _ => cases hdivides

/-- Lines that may come, and close all blocks, close the open blocks one after the
other. -/
theorem of_runBlocks (h : runBlocks ls σ = some []) : Finishes σ ls := by
  induction ls generalizing σ with
  | nil =>
      obtain rfl := Option.some_inj.mp h
      exact .nil .done
  | cons l rest ih =>
      obtain ⟨σ₁, hnext, hrest⟩ := Option.bind_eq_some_iff.mp h
      exact (ih hrest).step hnext

end Finishes

/-- The grammar derives the lines that may come and close all blocks. -/
theorem runBlocks_iff {ls : List Line} :
    runBlocks ls [] = some [] ↔ Nonterminal.Derives .program ls := by
  refine ⟨fun h => ?_, fun h => h.runs⟩
  cases Finishes.of_runBlocks h with
  | nil hderives => exact hderives

/-! ## What surrounds lines -/

/-- The statement opens or closes a macro. -/
def Statement.dividesMacro : Statement → Bool
  | .openMacro _ _ | .closeMacro => true
  | _ => false

/-- The statement may stand outside macros, or also within them, and opens and closes
none. -/
def Statement.fits (inMacro : Bool) (stmt : Statement) : Bool :=
  !stmt.dividesMacro && !(inMacro && stmt.isOutermost)

/-- A statement that may come, and opens and closes no macro, fits where it stands. -/
theorem Statement.next_fits {stmt : Statement} {σ σ₁ : List Opened}
    (hdivides : stmt.dividesMacro = false) (h : stmt.next σ = some σ₁) :
    withinMacro σ₁ = withinMacro σ ∧ stmt.fits (withinMacro σ) = true := by
  cases hblock : stmt.dividesBlock with
  | false =>
      rw [next_simple hblock] at h
      split at h
      · cases h
      · rename_i hallowed
        cases h
        exact ⟨rfl, by rw [fits, hdivides, Bool.eq_false_of_not_eq_true hallowed]; rfl⟩
  | true =>
      -- what opens or closes a block may stand anywhere
      have houtermost : stmt.isOutermost = false := by
        cases stmt <;> first | rfl | cases hblock
      refine ⟨?_, by rw [fits, hdivides, houtermost, Bool.and_false]; rfl⟩
      cases stmt with
      | openIf | openRepeat | openWhile =>
          cases h
          rfl
      | elseIf | otherwise | closeIf =>
          rcases σ with _ | ⟨⟨_ | _⟩ | _ | _ | _, σ⟩ <;> cases h <;> rfl
      | closeRepeat | closeWhile =>
          rcases σ with _ | ⟨_ | _ | _ | _, σ⟩ <;> cases h
          rfl
      | openMacro | closeMacro => cases hdivides
      | _ => cases hblock

theorem fits_of_runBlocks {ls : List Line} {σ σ₁ : List Opened}
    (hdivides : ∀ l ∈ ls, l.statement.dividesMacro = false) (h : runBlocks ls σ = some σ₁) :
    withinMacro σ₁ = withinMacro σ ∧ ∀ l ∈ ls, l.statement.fits (withinMacro σ) = true := by
  induction ls generalizing σ with
  | nil =>
      obtain rfl := Option.some_inj.mp h
      exact ⟨rfl, nofun⟩
  | cons l rest ih =>
      obtain ⟨hl, hrest⟩ := List.forall_mem_cons.mp hdivides
      obtain ⟨σ₂, hnext, h⟩ := Option.bind_eq_some_iff.mp h
      obtain ⟨hsame, hfits⟩ := Statement.next_fits hl hnext
      obtain ⟨hend, hall⟩ := ih hrest h
      rw [hsame] at hend hall
      exact ⟨hend, List.forall_mem_cons.mpr ⟨hfits, hall⟩⟩

/-- Within a macro that is not closed none is opened. -/
theorem dividesMacro_of_runBlocks {ls : List Line} {σ σ₁ : List Opened}
    (hclose : ∀ l ∈ ls, l.statement ≠ .closeMacro) (hσ : withinMacro σ = true)
    (h : runBlocks ls σ = some σ₁) : ∀ l ∈ ls, l.statement.dividesMacro = false := by
  induction ls generalizing σ with
  | nil => exact List.forall_mem_nil _
  | cons l rest ih =>
      obtain ⟨hl, hrest⟩ := List.forall_mem_cons.mp hclose
      obtain ⟨σ₂, hnext, h⟩ := Option.bind_eq_some_iff.mp h
      have hdivides : l.statement.dividesMacro = false := by
        generalize l.statement = stmt at hl hnext
        cases stmt with
        | closeMacro => exact absurd rfl hl
        | openMacro =>
            cases σ with
            | nil => cases hσ
            | cons => cases hnext
        | _ => rfl
      have hsame := (Statement.next_fits hdivides hnext).1
      exact List.forall_mem_cons.mpr ⟨hdivides, ih hrest (hsame.trans hσ) h⟩

/-- The lines of a body open and close no macros. -/
theorem Nonterminal.Derives.dividesMacro {n : Nonterminal} {ls : List Line} (h : n.Derives ls) :
    n = .program ∨ ∀ l ∈ ls, l.statement.dividesMacro = false := by
  induction h with
  | done | outside | definition => exact .inl rfl
  | empty => exact .inr nofun
  | @simple m l rest hdivides _ _ ih =>
      refine .inr (List.forall_mem_cons.mpr ⟨?_, ih.resolve_left nofun⟩)
      generalize l.statement = stmt at hdivides
      cases stmt <;> first | rfl | cases hdivides
  | condition _ _ _ ihls ihothers ihrest =>
      refine .inr (List.forall_mem_cons.mpr ⟨rfl, List.forall_mem_append.mpr
        ⟨ihls.resolve_left nofun, List.forall_mem_append.mpr
          ⟨ihothers.resolve_left nofun, ihrest.resolve_left nofun⟩⟩⟩)
  | repetition _ _ ihls ihrest | loop _ _ ihls ihrest =>
      exact .inr (List.forall_mem_cons.mpr ⟨rfl, List.forall_mem_append.mpr
        ⟨ihls.resolve_left nofun, List.forall_mem_cons.mpr ⟨rfl, ihrest.resolve_left nofun⟩⟩⟩)
  | elseIf _ _ ihls ihothers =>
      exact .inr (List.forall_mem_cons.mpr ⟨rfl, List.forall_mem_append.mpr
        ⟨ihls.resolve_left nofun, ihothers.resolve_left nofun⟩⟩)
  | otherwise _ ihls =>
      exact .inr (List.forall_mem_cons.mpr ⟨rfl, List.forall_mem_append.mpr
        ⟨ihls.resolve_left nofun, List.forall_mem_singleton.mpr rfl⟩⟩)
  | close => exact .inr (List.forall_mem_singleton.mpr rfl)

theorem Nonterminal.Derives.fits {m : Bool} {ls : List Line}
    (h : Nonterminal.Derives (.body m) ls) : ∀ l ∈ ls, l.statement.fits m = true := by
  have hdivides := h.dividesMacro.resolve_left nofun
  cases m with
  | false => exact (fits_of_runBlocks hdivides (h.runs [] rfl)).2
  | true => exact (fits_of_runBlocks hdivides (h.runs [.definition] rfl)).2

namespace Builder

/-- A builder with other actions before its own, and with other open blocks around. -/
def within (pre : Array Action) (around : List Block) (b : Builder) : Builder :=
  ⟨b.ids, pre ++ b.actions, b.blocks ++ around⟩

/-- An operation has the same outcome within other actions and blocks, apart from what
an error says. -/
inductive Follows (pre : Array Action) (around : List Block) :
    EStateM.Result Error Builder Unit → EStateM.Result Error Builder Unit → Prop
  | ok {b c : Builder} : c = b.within pre around → Follows pre around (.ok () b) (.ok () c)
  | error {err err' : Error} {b c : Builder} : Follows pre around (.error err b) (.error err' c)

theorem Follows.eq_ok_iff {pre : Array Action} {around : List Block}
    {r r' : EStateM.Result Error Builder Unit} (h : Follows pre around r r') {c : Builder} :
    r' = .ok () c ↔ ∃ b, r = .ok () b ∧ c = b.within pre around := by
  cases h with
  | @ok b c' hc =>
      rw [ok_eq_ok]
      refine ⟨fun ⟨_, h⟩ => ⟨b, rfl, h.trans hc⟩, fun ⟨b', hb, h⟩ => ⟨rfl, ?_⟩⟩
      cases hb
      exact h.trans hc.symm
  | error => exact iff_of_false nofun nofun

section Surroundings

variable {pre : Array Action} {around : List Block} {b : Builder} {loc : Location}
  {acts : List Action}

/-- More actions within other actions, with other numbers and open blocks. -/
theorem within_put (ids : Ids) (actions : Array Action) (acts : List Action) (blocks : List Block) :
    (⟨ids, pre ++ actions ++ acts, blocks ++ around⟩ : Builder) =
      within pre around ⟨ids, actions ++ acts, blocks⟩ := by
  rw [within, Builder.mk.injEq, ← Array.toList_inj]
  simp only [Array.toList_appendList, Array.toList_append, List.append_assoc, and_self]

theorem addResult_follows (acts : Except Error (List Action)) :
    Follows pre around (addResult acts b) (addResult acts (b.within pre around)) := by
  unfold addResult
  cases acts with
  | error err => exact .error
  | ok acts => exact .ok (within_put _ _ _ _)

theorem openIf_follows :
    Follows pre around (openIf loc acts b) (openIf loc acts (b.within pre around)) := by
  unfold openIf
  cases foldAt loc acts with
  | error err => exact .error
  | ok e => exact .ok (within_put _ _ _ (_ :: _))

theorem openRepeat_follows :
    Follows pre around (openRepeat loc acts b) (openRepeat loc acts (b.within pre around)) := by
  unfold openRepeat
  cases foldAt loc acts with
  | error err => exact .error
  | ok e => exact .ok (within_put _ _ _ (_ :: _))

theorem openWhile_follows :
    Follows pre around (openWhile loc acts b) (openWhile loc acts (b.within pre around)) := by
  unfold openWhile
  cases foldAt loc acts with
  | error err => exact .error
  | ok e => exact .ok (within_put _ _ _ (_ :: _))

/-- What is forbidden in a macro. -/
theorem outside_follows {m : BuilderM Unit} {err : Error}
    (hm : Follows pre [] (m b) (m (b.within pre []))) :
    Follows pre [] (if b.inMacro then .error err b else m b)
      (if (b.within pre []).inMacro then .error err (b.within pre []) else m (b.within pre [])) := by
  have hin : (b.within pre []).inMacro = b.inMacro := by
    rw [inMacro, within, List.append_nil]
    rfl
  rw [hin]
  split
  · exact .error
  · exact hm

theorem nil_or_definition (haround : ∀ blk ∈ around, blk.kind = .definition) :
    around = [] ∨ ∃ loc name params outer rest, around = .definition loc name params outer :: rest := by
  rcases around with _ | ⟨blk, rest⟩
  · exact .inl rfl
  · have hblk := haround blk List.mem_cons_self
    cases blk with
    | definition => exact .inr ⟨_, _, _, _, _, rfl⟩
    | _ => cases hblk

variable (haround : ∀ blk ∈ around, blk.kind = .definition)

include haround

theorem elseIf_follows :
    Follows pre around (elseIf loc acts b) (elseIf loc acts (b.within pre around)) := by
  obtain ⟨ids, actions, blocks⟩ := b
  unfold elseIf within
  rcases blocks with _ | ⟨⟨_, _, _ | _⟩ | _ | _ | _, outer⟩
  · rcases nil_or_definition haround with rfl | ⟨_, _, _, _, _, rfl⟩ <;> exact .error
  · exact .error
  · cases foldAt loc acts with
    | error err => exact .error
    | ok e => exact .ok (within_put _ _ _ (_ :: _))
  all_goals exact .error

theorem otherwise_follows :
    Follows pre around (otherwise loc b) (otherwise loc (b.within pre around)) := by
  obtain ⟨ids, actions, blocks⟩ := b
  unfold otherwise within
  rcases blocks with _ | ⟨⟨_, _, _ | _⟩ | _ | _ | _, outer⟩
  · rcases nil_or_definition haround with rfl | ⟨_, _, _, _, _, rfl⟩ <;> exact .error
  · exact .error
  · exact .ok (within_put _ _ _ (_ :: _))
  all_goals exact .error

theorem closeIf_follows : Follows pre around (closeIf loc b) (closeIf loc (b.within pre around)) := by
  obtain ⟨ids, actions, blocks⟩ := b
  unfold closeIf within
  rcases blocks with _ | ⟨_ | _ | _ | _, outer⟩
  · rcases nil_or_definition haround with rfl | ⟨_, _, _, _, _, rfl⟩ <;> exact .error
  · exact .ok (within_put _ _ _ _)
  all_goals exact .error

theorem closeRepeat_follows :
    Follows pre around (closeRepeat loc b) (closeRepeat loc (b.within pre around)) := by
  obtain ⟨ids, actions, blocks⟩ := b
  unfold closeRepeat within
  rcases blocks with _ | ⟨_ | _ | _ | _, outer⟩
  · rcases nil_or_definition haround with rfl | ⟨_, _, _, _, _, rfl⟩ <;> exact .error
  · exact .error
  · exact .ok (within_put _ _ _ _)
  all_goals exact .error

theorem closeWhile_follows :
    Follows pre around (closeWhile loc b) (closeWhile loc (b.within pre around)) := by
  obtain ⟨ids, actions, blocks⟩ := b
  unfold closeWhile within
  rcases blocks with _ | ⟨_ | _ | _ | _, outer⟩
  · rcases nil_or_definition haround with rfl | ⟨_, _, _, _, _, rfl⟩ <;> exact .error
  · exact .error
  · exact .error
  · exact .ok (within_put _ _ _ _)
  · exact .error

/-- A statement that fits has the same outcome within a macro, and after other
actions. -/
theorem issue_follows {stmt : Statement} (hstmt : stmt.fits (!around.isEmpty) = true) :
    Follows pre around (issue loc stmt b) (issue loc stmt (b.within pre around)) := by
  have houtside : stmt.isOutermost = true → around = [] := by
    intro houtermost
    simpa [Statement.fits, houtermost] using (Bool.and_eq_true_iff.mp hstmt).2
  cases stmt with
  | assign | instruction | data | message => exact addResult_follows _
  | label | text | metaLabel | goto => exact .ok (within_put _ _ _ _)
  | openIf => exact openIf_follows
  | elseIf => exact elseIf_follows haround
  | otherwise => exact otherwise_follows haround
  | closeIf => exact closeIf_follows haround
  | openRepeat => exact openRepeat_follows
  | closeRepeat => exact closeRepeat_follows haround
  | openWhile => exact openWhile_follows
  | closeWhile => exact closeWhile_follows haround
  | openMacro | closeMacro => cases hstmt
  | call | includeBinary =>
      obtain rfl := houtside rfl
      exact outside_follows (addResult_follows _)
  | includeSource =>
      obtain rfl := houtside rfl
      exact outside_follows (.ok (within_put _ _ _ _))

/-- So do lines that fit. -/
theorem issueAll_follows {ls : List Line}
    (hls : ∀ l ∈ ls, l.statement.fits (!around.isEmpty) = true) :
    Follows pre around (issueAll ls b) (issueAll ls (b.within pre around)) := by
  induction ls generalizing b with
  | nil => exact .ok rfl
  | cons l rest ih =>
      obtain ⟨hl, hrest⟩ := List.forall_mem_cons.mp hls
      have hissue : Follows pre around (issue l.location l.statement b)
          (issue l.location l.statement (b.within pre around)) := issue_follows haround hl
      show Follows _ _ (EStateM.bind _ _ b) (EStateM.bind _ _ (b.within pre around))
      unfold EStateM.bind
      generalize issue l.location l.statement b = r at hissue
      generalize issue l.location l.statement (b.within pre around) = r' at hissue
      cases hissue with
      | ok hc =>
          subst hc
          exact ih hrest
      | error => exact .error

end Surroundings

variable {b b' c : Builder} {loc close : Location} {name : String} {params : List String}
  {ls rest : List Line}

/-- What lines do to the blocks, if they are lowered. -/
theorem runBlocks_of_issueAll (h : issueAll ls b = .ok () b') :
    runBlocks ls b.opened = some b'.opened := by
  induction ls generalizing b with
  | nil =>
      obtain ⟨-, rfl⟩ := pure_eq_ok.mp h
      rfl
  | cons l rest ih =>
      obtain ⟨b₁, hissue, hrest⟩ := issueAll_cons_eq_ok h
      rw [runBlocks, (Issued.of_issue hissue).next_eq]
      exact ih hrest

theorem blocks_of_opened (h : b.opened = []) : b.blocks = [] := List.map_eq_nil_iff.mp h

/-- A macro is closed if all blocks in it are. -/
theorem closeMacro_within {start : Location} {actions : Array Action} (hb : b.inMacro = false) :
    closeMacro loc (b.within #[] [.definition start name params actions]) = .ok () c ↔
      b.blocks = [] ∧ c = ⟨b.ids, actions ++
        [Action.plain start (.defineMacro name params b.actions.toList)], []⟩ := by
  obtain ⟨ids, acts, blocks⟩ := b
  unfold closeMacro within
  rcases blocks with _ | ⟨_ | _ | _ | _, outer⟩
  · simp [add, eq_comm]
  · exact iff_of_false nofun nofun
  · exact iff_of_false nofun nofun
  · exact iff_of_false nofun nofun
  · cases hb

/-- A macro outside all blocks is made of what its lines become on their own. -/
theorem issueAll_definition (hls : ∀ l ∈ ls, l.statement.fits true = true) (hb : b.blocks = []) :
    issueAll (⟨loc, .openMacro name params⟩ :: (ls ++ ⟨close, .closeMacro⟩ :: rest)) b = .ok () c ↔
      ∃ inner, issueAll ls { ids := b.ids } = .ok () inner ∧ inner.blocks = [] ∧
        issueAll rest ⟨inner.ids, b.actions ++
          [Action.plain loc (.defineMacro name params inner.actions.toList)], []⟩ = .ok () c := by
  obtain ⟨ids, actions, blocks⟩ := b
  obtain rfl : blocks = [] := hb
  let around : List Block := [.definition loc name params actions]
  have hopen : issueAll (⟨loc, .openMacro name params⟩ :: (ls ++ ⟨close, .closeMacro⟩ :: rest))
      ⟨ids, actions, []⟩ = (issueAll ls >>= fun _ => issueAll (⟨close, .closeMacro⟩ :: rest))
        (within #[] around { ids := ids }) := by
    rw [← issueAll_append]
    rfl
  -- the body is lowered inside the definition as it would be on its own
  have hfollows : Follows #[] around (issueAll ls { ids := ids })
      (issueAll ls (within #[] around { ids := ids })) :=
    issueAll_follows (List.forall_mem_singleton.mpr rfl) hls
  have houter : ∀ inner, issueAll ls { ids := ids } = .ok () inner → inner.inMacro = false := by
    intro inner hinner
    have hdivides : ∀ l ∈ ls, l.statement.dividesMacro = false := fun l hl => by
      simpa using (Bool.and_eq_true_iff.mp (hls l hl)).1
    rw [inMacro_eq]
    exact (fits_of_runBlocks hdivides (runBlocks_of_issueAll hinner)).1
  rw [hopen, bind_eq_ok]
  constructor
  · rintro ⟨_, s, hbody, hrest⟩
    obtain ⟨inner, hinner, rfl⟩ := hfollows.eq_ok_iff.mp hbody
    obtain ⟨s₁, hclose, hrest⟩ := issueAll_cons_eq_ok hrest
    obtain ⟨hclosed, rfl⟩ := (closeMacro_within (houter inner hinner)).mp hclose
    exact ⟨inner, hinner, hclosed, hrest⟩
  · rintro ⟨inner, hinner, hclosed, hrest⟩
    have hbody := hfollows.eq_ok_iff.mpr ⟨inner, hinner, rfl⟩
    have hclose : closeMacro close (inner.within #[] around) = .ok () ⟨inner.ids, actions ++
        [Action.plain loc (.defineMacro name params inner.actions.toList)], []⟩ :=
      (closeMacro_within (houter inner hinner)).mpr ⟨hclosed, rfl⟩
    exact ⟨(), _, hbody, bind_eq_ok.mpr ⟨(), _, hclose, hrest⟩⟩

/-- What follows other lines is lowered to what it would be on its own. -/
theorem issueAll_after {pre : Array Action} (h : Nonterminal.Derives .program ls)
    (hb : b.blocks = []) (hissue : issueAll ls (b.within pre []) = .ok () c) :
    ∃ b', issueAll ls b = .ok () b' ∧ c = b'.within pre [] := by
  generalize hn : Nonterminal.program = n at h
  induction h generalizing b with
  | done =>
      obtain ⟨-, rfl⟩ := pure_eq_ok.mp hissue
      exact ⟨b, rfl, rfl⟩
  | outside hls _ _ ih =>
      obtain ⟨c₁, hbody, hrest⟩ := issueAll_append_eq_ok hissue
      -- outside blocks the actions already there change nothing
      have hfollows : Follows pre [] (issueAll _ b) (issueAll _ (b.within pre [])) :=
        issueAll_follows (List.forall_mem_nil _) hls.fits
      obtain ⟨b₁, hfirst, rfl⟩ := hfollows.eq_ok_iff.mp hbody
      have hopened := runBlocks_of_issueAll hfirst
      rw [opened, hb, List.map_nil, hls.runs [] rfl] at hopened
      have hclosed := blocks_of_opened (Option.some_inj.mp hopened).symm
      obtain ⟨b', hlast, rfl⟩ := ih hclosed hrest rfl
      exact ⟨b', by rw [issueAll_append]; exact bind_eq_ok.mpr ⟨(), b₁, hfirst, hlast⟩, rfl⟩
  | definition hls _ _ ih =>
      have hclosed : (b.within pre []).blocks = [] := by rw [within, hb]; rfl
      obtain ⟨inner, hinner, hinnermost, hrest⟩ := (issueAll_definition hls.fits hclosed).mp hissue
      rw [← List.append_nil [], within, within_put] at hrest
      obtain ⟨b', hlast, rfl⟩ := ih rfl hrest rfl
      exact ⟨b', (issueAll_definition hls.fits hb).mpr ⟨inner, hinner, hinnermost, hlast⟩, rfl⟩
  | _ => cases hn

/-- All lines are lowered and all blocks closed, with other numbers given out in the
end. -/
def Yields (ids : Ids) (lines : List Line) (acts : List Action) (ids' : Ids) : Prop :=
  ∃ b, issueAll lines { ids := ids } = .ok () b ∧ b.finish = .ok acts ∧ b.ids = ids'

theorem finish_eq_ok {acts : List Action} :
    b.finish = .ok acts ↔ b.blocks = [] ∧ b.actions.toList = acts := by
  unfold finish
  split <;> rename_i hblocks <;> simp [hblocks]

theorem Yields.of_issueAll {ids : Ids} (h : issueAll ls { ids := ids } = .ok () b)
    (hclosed : b.blocks = []) : Yields ids ls b.actions.toList b.ids :=
  ⟨b, h, finish_eq_ok.mpr ⟨hclosed, rfl⟩, rfl⟩

/-- A macro collects what its lines become on their own, between what comes before and
after it. -/
theorem Yields.of_definition {ids ids' : Ids} {before after : List Line} {acts : List Action}
    (hclose : ∀ l ∈ ls, l.statement ≠ .closeMacro)
    (h : Yields ids (before ++ ⟨loc, .openMacro name params⟩ :: (ls ++ ⟨close, .closeMacro⟩ :: after))
      acts ids') :
    ∃ ids₁ ids₂ outer inner rest, Yields ids before outer ids₁ ∧ Yields ids₁ ls inner ids₂ ∧
      Yields ids₂ after rest ids' ∧
      acts = outer ++ Action.plain loc (.defineMacro name params inner) :: rest := by
  obtain ⟨b, hissue, hfinish, rfl⟩ := h
  obtain ⟨hclosed, rfl⟩ := finish_eq_ok.mp hfinish
  obtain ⟨b₁, hbefore, hissue⟩ := issueAll_append_eq_ok hissue
  -- the macro is opened outside all blocks, so its lines fit into it
  obtain ⟨σ, hopen, hruns⟩ := Option.bind_eq_some_iff.mp (runBlocks_of_issueAll hissue)
  have houtside : b₁.blocks = [] := by
    refine blocks_of_opened ?_
    cases hσ : b₁.opened with
    | nil => rfl
    | cons o outer =>
        rw [hσ] at hopen
        cases hopen
  have hwithin : withinMacro σ = true := by
    rw [opened, houtside] at hopen
    cases hopen
    rfl
  rw [runBlocks_append] at hruns
  obtain ⟨σ₁, hbody, -⟩ := Option.bind_eq_some_iff.mp hruns
  have hdivides := dividesMacro_of_runBlocks hclose hwithin hbody
  have hfits := (fits_of_runBlocks hdivides hbody).2
  rw [hwithin] at hfits
  obtain ⟨inner, hinner, hinnermost, hrest⟩ := (issueAll_definition hfits houtside).mp hissue
  have hafter := runBlocks_of_issueAll hrest
  rw [opened, opened, hclosed] at hafter
  have hrest : issueAll after (within (b₁.actions ++
      [Action.plain loc (.defineMacro name params inner.actions.toList)]) [] { ids := inner.ids }) =
        .ok () b := hrest
  obtain ⟨b₂, hlast, hb⟩ := issueAll_after (runBlocks_iff.mp hafter) rfl hrest
  subst hb
  have hlastmost : b₂.blocks = [] := by simpa [within] using hclosed
  have hthird := Yields.of_issueAll hlast hlastmost
  refine ⟨_, _, _, _, _, .of_issueAll hbefore houtside, .of_issueAll hinner hinnermost, hthird, ?_⟩
  rw [within, Array.toList_append, Array.toList_appendList, List.append_assoc, List.singleton_append]

/-- Lines with sound expressions and instructions are lowered, and all blocks closed, just
if the grammar derives them.  And where a macro stands between other lines, it collects
what its lines become on their own, and the other lines become what they would be without
it. -/
theorem accepts_nested (ids : Ids) (lines : List Line) (hlines : ∀ l ∈ lines, l.Encodable) :
    ((∃ acts ids', Yields ids lines acts ids') ↔ Nonterminal.Derives .program lines) ∧
      ∀ (before ls after : List Line) (loc close : Location) (name : String)
        (params : List String) (acts : List Action) (ids' : Ids),
        lines = before ++ ⟨loc, .openMacro name params⟩ :: (ls ++ ⟨close, .closeMacro⟩ :: after) →
        (∀ l ∈ ls, l.statement ≠ .closeMacro) → Yields ids lines acts ids' →
          ∃ ids₁ ids₂ outer inner rest, Yields ids before outer ids₁ ∧
            Yields ids₁ ls inner ids₂ ∧ Yields ids₂ after rest ids' ∧
            acts = outer ++ Action.plain loc (.defineMacro name params inner) :: rest := by
  refine ⟨?_, ?_⟩
  · rw [← runBlocks_iff]
    constructor
    · rintro ⟨acts, ids', b, hissue, hfinish, rfl⟩
      have hruns := runBlocks_of_issueAll hissue
      rw [opened, opened, (finish_eq_ok.mp hfinish).1] at hruns
      exact hruns
    · intro hruns
      have haccepted : ∃ b, issueAll lines { ids := ids } = .ok () b ∧ b.opened = [] :=
        (issueAll_ok_iff hlines).mpr hruns
      obtain ⟨b, hissue, hopened⟩ := haccepted
      exact ⟨_, _, .of_issueAll hissue (blocks_of_opened hopened)⟩
  · rintro before ls after loc close name params acts ids' rfl hclose hyields
    exact hyields.of_definition hclose

/-- A condition inside a macro. -/
def macroLines : List Line :=
  [⟨⟨"", 3⟩, .openIf [.load ⟨"", 3⟩ 1]⟩, ⟨⟨"", 4⟩, .otherwise⟩, ⟨⟨"", 5⟩, .closeIf⟩]

/-- A loop that calls a macro. -/
def callingLines : List Line :=
  [⟨⟨"", 7⟩, .openWhile []⟩, ⟨⟨"", 8⟩, .call "twice" [[]]⟩, ⟨⟨"", 9⟩, .closeWhile⟩]

theorem accepts_nested_call :
    let lines : List Line := [⟨⟨"", 1⟩, .label "start"⟩] ++
      ⟨⟨"", 2⟩, .openMacro "twice" ["x"]⟩ :: (macroLines ++ ⟨⟨"", 6⟩, .closeMacro⟩ :: callingLines)
    (∀ l ∈ lines, l.Encodable) ∧ Nonterminal.Derives .program lines ∧
      (∀ l ∈ macroLines, l.statement ≠ .closeMacro) ∧
      ∃ acts ids' ids₁ ids₂ outer inner rest, Yields {} lines acts ids' ∧
        Yields ids₁ macroLines inner ids₂ ∧ Yields ids₂ callingLines rest ids' ∧
        acts = outer ++ Action.plain ⟨"", 2⟩ (.defineMacro "twice" ["x"] inner) :: rest := by
  intro lines
  have hencodable : ∀ l ∈ lines, l.Encodable := by
    intro l hl
    simp only [lines, macroLines, callingLines, List.mem_append, List.mem_cons, List.not_mem_nil,
      or_false] at hl
    refine ⟨fun e he => ?_, fun mnemonic operand hstmt => ?_⟩ <;>
      rcases hl with rfl | rfl | (rfl | rfl | rfl) | rfl | rfl | rfl | rfl
    all_goals first | cases hstmt | simp only [Statement.exprs, List.mem_cons, List.not_mem_nil,
      or_false] at he
    all_goals
      subst he
      exact ⟨_, rfl⟩
  have hderives : Nonterminal.Derives .program lines :=
    .outside (.simple rfl rfl .empty) (.definition (.condition .empty (.otherwise .empty) .empty)
      (.outside (.loop (.simple rfl rfl .empty) .empty) .done))
  have hclose : ∀ l ∈ macroLines, l.statement ≠ .closeMacro := by simp [macroLines]
  obtain ⟨hiff, hcollects⟩ := accepts_nested {} lines hencodable
  obtain ⟨acts, ids', hyields⟩ := hiff.mpr hderives
  obtain ⟨ids₁, ids₂, outer, inner, rest, -, hinner, hrest, hacts⟩ :=
    hcollects _ _ _ _ _ _ _ _ _ rfl hclose hyields
  exact ⟨hencodable, hderives, hclose, acts, ids', ids₁, ids₂, outer, inner, rest, hyields, hinner,
    hrest, hacts⟩

end Builder

end Mos6510
