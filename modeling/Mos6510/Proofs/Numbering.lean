import Mathlib.Data.List.Nodup
import Mathlib.Order.Basic
import Mos6510.Proofs.Lowered

/-!
# Numbers of jumps and counters

Jumps and loop counters have numbers.  A jump target gives a jump its number,
setting a counter gives the counter its number, and other actions take the
numbers that were given.

* `Linked`: no number is given twice, and all that are taken are given;
* `Builder.Numbered`: what the builder has put together is linked up to the
  numbers that its open blocks are still to give;
* `Reader.actions_numbers`: so the actions of a source file are linked, and the
  bodies of its macros are, each in itself.
-/

namespace Mos6510

open Outcome

/-! ## Numbers given and taken -/

/-- What has a number. -/
inductive Numbered where
  | jump
  | counter
  deriving DecidableEq, Repr

/-- The next number to be given out. -/
def Ids.next (ids : Ids) : Numbered → Nat
  | .jump => ids.jump
  | .counter => ids.counter

/-- Numbers are given out in order. -/
instance : Preorder Ids where
  le i j := i.jump ≤ j.jump ∧ i.counter ≤ j.counter ∧ i.seq ≤ j.seq
  le_refl i := ⟨Nat.le_refl _, Nat.le_refl _, Nat.le_refl _⟩
  le_trans i j k h h' :=
    ⟨Nat.le_trans h.1 h'.1, Nat.le_trans h.2.1 h'.2.1, Nat.le_trans h.2.2 h'.2.2⟩

theorem Ids.next_mono {i j : Ids} (h : i ≤ j) (κ : Numbered) : i.next κ ≤ j.next κ := by
  cases κ with
  | jump => exact h.1
  | counter => exact h.2.1

/-- The numbers given out between two states. -/
def Ids.upTo (i j : Ids) (κ : Numbered) : List Int :=
  (List.range' (i.next κ) (j.next κ - i.next κ)).map Int.ofNat

theorem Ids.nodup_upTo (i j : Ids) (κ : Numbered) : (i.upTo j κ).Nodup :=
  List.Nodup.map (fun _ _ h => Int.ofNat.inj h) List.nodup_range'

theorem Ids.mem_upTo {i j : Ids} {κ : Numbered} {n : Int} :
    n ∈ i.upTo j κ ↔ (i.next κ : Int) ≤ n ∧ n < j.next κ := by
  unfold upTo
  rw [List.mem_map]
  constructor
  · rintro ⟨m, hm, rfl⟩
    have := List.mem_range'_1.mp hm
    simp only [Int.ofNat_eq_natCast]
    omega
  · intro hn
    refine ⟨n.toNat, List.mem_range'_1.mpr ?_, ?_⟩
    · omega
    · simp only [Int.ofNat_eq_natCast]
      omega

/-- The number that an action gives. -/
def Op.given? : Numbered → Op → Option Int
  | .jump, .target j => some j
  | .counter, .counterSet c => some c
  | _, _ => none

/-- The number that an action takes. -/
def Op.taken? : Numbered → Op → Option Int
  | .jump, .jump j => some j
  | .jump, .jumpIfFalse j => some j
  | .jump, .counterTest _ j => some j
  | .jump, .counterStep _ j => some j
  | .counter, .counterTest c _ => some c
  | .counter, .counterStep c _ => some c
  | _, _ => none

/-- The numbers that actions give, in order. -/
def given (κ : Numbered) (acts : List Action) : List Int := acts.filterMap fun a => a.op.given? κ

/-- The numbers that actions take, in order. -/
def taken (κ : Numbered) (acts : List Action) : List Int := acts.filterMap fun a => a.op.taken? κ

section

variable (κ : Numbered)

@[simp] theorem given_nil : given κ [] = [] := rfl

@[simp] theorem taken_nil : taken κ [] = [] := rfl

@[simp] theorem given_append (as bs : List Action) : given κ (as ++ bs) = given κ as ++ given κ bs :=
  List.filterMap_append

@[simp] theorem taken_append (as bs : List Action) : taken κ (as ++ bs) = taken κ as ++ taken κ bs :=
  List.filterMap_append

@[simp] theorem given_cons (a : Action) (acts : List Action) :
    given κ (a :: acts) = (a.op.given? κ).toList ++ given κ acts := by
  unfold given
  rw [List.filterMap_cons]
  cases a.op.given? κ <;> rfl

@[simp] theorem taken_cons (a : Action) (acts : List Action) :
    taken κ (a :: acts) = (a.op.taken? κ).toList ++ taken κ acts := by
  unfold taken
  rw [List.filterMap_cons]
  cases a.op.taken? κ <;> rfl

end

/-- Actions that neither give nor take numbers. -/
def Unnumbered (acts : List Action) : Prop :=
  ∀ a ∈ acts, ∀ κ, a.op.given? κ = none ∧ a.op.taken? κ = none

theorem Unnumbered.given {acts : List Action} (h : Unnumbered acts) (κ : Numbered) :
    given κ acts = [] :=
  List.filterMap_eq_nil_iff.mpr fun a ha => (h a ha κ).1

theorem Unnumbered.taken {acts : List Action} (h : Unnumbered acts) (κ : Numbered) :
    taken κ acts = [] :=
  List.filterMap_eq_nil_iff.mpr fun a ha => (h a ha κ).2

theorem Computes.unnumbered {acts : List Action} (h : Computes acts) : Unnumbered acts := by
  intro a ha κ
  have hop := h a ha
  obtain ⟨loc, op, x⟩ := a
  cases κ <;> cases op <;> first | exact ⟨rfl, rfl⟩ | cases hop

/-- No number is given twice, and all that are taken are given. -/
structure Linked (acts : List Action) : Prop where
  apart : ∀ κ, (given κ acts).Nodup
  taken : ∀ κ, ∀ n ∈ taken κ acts, n ∈ given κ acts

/-! ## Open blocks -/

/-- The numbers that a block gives from here to where it is closed. -/
def Block.gives : Numbered → Block → List Int
  | .jump, .condition _ exit (some next) => [(next : Int), (exit : Int)]
  | .jump, .condition _ exit none => [(exit : Int)]
  | .jump, .repetition _ _ exit _ => [(exit : Int)]
  | .jump, .loop _ _ exit => [(exit : Int)]
  | _, _ => []

/-- The numbers given before that a block takes where it is closed. -/
def Block.takes : Numbered → Block → List Int
  | .jump, .repetition _ start _ _ => [(start : Int)]
  | .counter, .repetition _ _ _ counter => [(counter : Int)]
  | .jump, .loop _ start _ => [(start : Int)]
  | _, _ => []

/-- The numbers that open blocks are still to give. -/
def pending (κ : Numbered) (blocks : List Block) : List Int := blocks.flatMap (Block.gives κ)

/-- The numbers that open blocks are still to take. -/
def held (κ : Numbered) (blocks : List Block) : List Int := blocks.flatMap (Block.takes κ)

section

variable (κ : Numbered) (blk : Block) (blocks : List Block)

@[simp] theorem pending_nil : pending κ [] = [] := rfl

@[simp] theorem held_nil : held κ [] = [] := rfl

@[simp] theorem pending_cons : pending κ (blk :: blocks) = blk.gives κ ++ pending κ blocks :=
  List.flatMap_cons

@[simp] theorem held_cons : held κ (blk :: blocks) = blk.takes κ ++ held κ blocks :=
  List.flatMap_cons

end

/-- The numbers of actions and of the blocks that are open after them, given
out between two states. -/
structure Numbers (lo hi : Ids) (acts : List Action) (blocks : List Block) : Prop where
  apart : ∀ κ, (given κ acts ++ pending κ blocks).Nodup
  between : ∀ κ, ∀ n ∈ given κ acts ++ pending κ blocks, (lo.next κ : Int) ≤ n ∧ n < hi.next κ
  taken : ∀ κ, ∀ n ∈ taken κ acts, n ∈ given κ acts ++ pending κ blocks
  held : ∀ κ, ∀ n ∈ held κ blocks, n ∈ given κ acts

namespace Numbers

variable {lo hi hi' : Ids} {acts new : List Action} {blocks blocks' : List Block}

theorem nil (lo : Ids) : Numbers lo lo [] [] := by
  constructor <;> simp

theorem mono (h : Numbers lo hi acts blocks) (hle : hi ≤ hi') : Numbers lo hi' acts blocks where
  apart := h.apart
  between κ n hn := by
    have := h.between κ n hn
    have := Ids.next_mono hle κ
    omega
  taken := h.taken
  held := h.held

/-- The definition of a macro has no numbers of its own. -/
theorem definition_iff {loc : Location} {name : String} {params : List String}
    {outer : Array Action} :
    Numbers lo hi acts (.definition loc name params outer :: blocks) ↔ Numbers lo hi acts blocks := by
  have hpending : ∀ κ, pending κ (.definition loc name params outer :: blocks) = pending κ blocks := by
    rintro (_ | _) <;> rfl
  have hheld : ∀ κ, Mos6510.held κ (.definition loc name params outer :: blocks) =
      Mos6510.held κ blocks := by
    rintro (_ | _) <;> rfl
  constructor
  · rintro ⟨h₁, h₂, h₃, h₄⟩
    simp only [hpending, hheld] at h₁ h₂ h₃ h₄
    exact ⟨h₁, h₂, h₃, h₄⟩
  · rintro ⟨h₁, h₂, h₃, h₄⟩
    constructor <;> simpa only [hpending, hheld]

/-- With all blocks closed the actions are linked. -/
theorem linked (h : Numbers lo hi acts []) : Linked acts where
  apart κ := by simpa using h.apart κ
  taken κ := by simpa using h.taken κ

theorem mono_left {lo' : Ids} (h : Numbers lo hi acts blocks) (hle : lo' ≤ lo) :
    Numbers lo' hi acts blocks where
  apart := h.apart
  between κ n hn := by
    have := h.between κ n hn
    have := Ids.next_mono hle κ
    omega
  taken := h.taken
  held := h.held

/-- Other actions in place of some: they give new numbers besides those that
these gave, and take no others. -/
theorem grow {acts' : List Action} (new : Numbered → List Int) (h : Numbers lo hi acts [])
    (hlo : lo ≤ hi) (hle : hi ≤ hi')
    (hnew : ∀ κ, (new κ).Nodup ∧ ∀ n ∈ new κ, (hi.next κ : Int) ≤ n ∧ n < hi'.next κ)
    (hgiven : ∀ κ, (given κ acts').Perm (new κ ++ given κ acts))
    (htaken : ∀ κ, ∀ n ∈ Mos6510.taken κ acts', n ∈ given κ acts' ∨ n ∈ Mos6510.taken κ acts) :
    Numbers lo hi' acts' [] := by
  have hold := h.linked
  -- the new numbers lie beyond all that were given, so they are apart from them
  have hbetween : ∀ κ, ∀ n ∈ given κ acts, (lo.next κ : Int) ≤ n ∧ n < hi.next κ := by
    intro κ n hn
    exact h.between κ n (List.mem_append_left _ hn)
  constructor
  · intro κ
    rw [pending_nil, List.append_nil, (hgiven κ).nodup_iff, List.nodup_append]
    refine ⟨(hnew κ).1, hold.apart κ, ?_⟩
    rintro n hn m hm rfl
    have := (hnew κ).2 n hn
    have := hbetween κ n hm
    omega
  · intro κ n hn
    rw [pending_nil, List.append_nil, (hgiven κ).mem_iff] at hn
    have := Ids.next_mono hlo κ
    have := Ids.next_mono hle κ
    rcases List.mem_append.mp hn with hn | hn
    · have := (hnew κ).2 n hn
      omega
    · have := hbetween κ n hn
      omega
  · intro κ n hn
    rw [pending_nil, List.append_nil]
    rcases htaken κ n hn with hn | hn
    · exact hn
    · exact (hgiven κ).mem_iff.mpr (List.mem_append_right _ (hold.taken κ n hn))
  · intro κ n hn
    cases hn

/-- More actions: they give the numbers given out for them and those that were
pending, or leave these pending, and take no others than these and what was
held. -/
theorem step (h : Numbers lo hi acts blocks) (hlo : lo ≤ hi) (hle : hi ≤ hi')
    (hgiven : ∀ κ, (given κ new ++ pending κ blocks').Perm
      (hi.upTo hi' κ ++ pending κ blocks))
    (htaken : ∀ κ, ∀ n ∈ Mos6510.taken κ new,
      n ∈ given κ new ++ pending κ blocks' ∨ n ∈ Mos6510.held κ blocks)
    (hheld : ∀ κ, ∀ n ∈ Mos6510.held κ blocks', n ∈ Mos6510.held κ blocks ∨ n ∈ given κ new) :
    Numbers lo hi' (acts ++ new) blocks' := by
  -- what is given anew and what was pending before change places, and nothing is lost
  have hall : ∀ κ, (given κ (acts ++ new) ++ pending κ blocks').Perm
      (hi.upTo hi' κ ++ (given κ acts ++ pending κ blocks)) := by
    intro κ
    rw [given_append, List.append_assoc]
    exact ((hgiven κ).append_left _).trans (List.perm_append_comm_assoc _ _ _)
  constructor
  · intro κ
    rw [(hall κ).nodup_iff, List.nodup_append]
    refine ⟨Ids.nodup_upTo hi hi' κ, h.apart κ, ?_⟩
    rintro n hn m hm rfl
    have := h.between κ n hm
    have := Ids.mem_upTo.mp hn
    omega
  · intro κ n hn
    have := Ids.next_mono hlo κ
    have := Ids.next_mono hle κ
    rcases List.mem_append.mp ((hall κ).mem_iff.mp hn) with hn | hn
    · have := Ids.mem_upTo.mp hn
      omega
    · have := h.between κ n hn
      omega
  · intro κ n hn
    rw [taken_append] at hn
    rcases List.mem_append.mp hn with hn | hn
    · exact (hall κ).mem_iff.mpr (List.mem_append_right _ (h.taken κ n hn))
    · rw [given_append, List.append_assoc]
      rcases htaken κ n hn with hn | hn
      · exact List.mem_append_right _ hn
      · exact List.mem_append_left _ (h.held κ n hn)
  · intro κ n hn
    rw [given_append]
    rcases hheld κ n hn with hn | hn
    · exact List.mem_append_left _ (h.held κ n hn)
    · exact List.mem_append_right _ hn

end Numbers

/-! ## Statements -/

/-- The expressions of a statement compute values. -/
def Statement.Computes (s : Statement) : Prop := ∀ e ∈ s.exprs, Mos6510.Computes e

/-- Does the action stand for actions from elsewhere, or hold them? -/
def Op.isOutermost : Op → Bool
  | .defineMacro _ _ _ | .callMacro _ _ | .includeSource _ | .includeBinary _ _ => true
  | _ => false

theorem Statement.Lowers.computes {loc : Location} {stmt : Statement} {e : List Action} {op : Op}
    (hstmt : stmt.Computes) (h : stmt.Lowers loc e op) : Mos6510.Computes e := by
  have hfold : ∀ {expr e : List Action}, expr ∈ stmt.exprs → foldConstant expr = .ok e →
      Mos6510.Computes e := fun hexpr h => (hstmt _ hexpr).foldConstant h
  cases h with
  | assign h => exact hfold List.mem_cons_self (foldAt_eq_ok h)
  | instruction h => exact hfold List.mem_cons_self h
  | data h => exact hfold List.mem_cons_self (foldAt_eq_ok h)
  | _ => exact .nil

theorem Statement.Lowers.unnumbered {loc : Location} {stmt : Statement} {e : List Action} {op : Op}
    (hstmt : stmt.Computes) (h : stmt.Lowers loc e op) :
    Unnumbered (e ++ [Action.plain loc op]) := by
  refine List.forall_mem_append.mpr ⟨(h.computes hstmt).unnumbered, fun a ha κ => ?_⟩
  rw [List.mem_singleton.mp ha]
  cases κ with
  | jump => cases h <;> first | exact ⟨rfl, rfl⟩ | (rename_i hop; cases hop <;> exact ⟨rfl, rfl⟩)
  | counter =>
      cases h <;> first | exact ⟨rfl, rfl⟩ | (rename_i hop; cases hop <;> exact ⟨rfl, rfl⟩)

namespace Builder

/-- What a statement adds fits the numbers of what stands before it. -/
theorem Adds.numbers {loc : Location} {lo ids ids' : Ids} {stmt : Statement}
    {before acts : List Action} {blocks blocks' : List Block} (hstmt : stmt.Computes)
    (h : Adds loc ids stmt blocks acts ids' blocks') (hlo : lo ≤ ids)
    (hb : Numbers lo ids before blocks) :
    ids ≤ ids' ∧ Numbers lo ids' (before ++ acts) blocks' := by
  have hquiet : ∀ {expr e : List Action}, expr ∈ stmt.exprs → foldAt loc expr = .ok e →
      ∀ κ, given κ e = [] ∧ taken κ e = [] := by
    intro expr e hexpr hfold κ
    have hunnumbered := ((hstmt expr hexpr).foldConstant (foldAt_eq_ok hfold)).unnumbered
    exact ⟨hunnumbered.given κ, hunnumbered.taken κ⟩
  have hle : ∀ n m, ids ≤ { ids with jump := ids.jump + n, counter := ids.counter + m } :=
    fun _ _ => ⟨Nat.le_add_right _ _, Nat.le_add_right _ _, le_refl _⟩
  -- each directive gives the numbers that it takes from the counters, or that its block was to give
  cases h with
  | simple h =>
      have hnone := h.unnumbered hstmt
      refine ⟨hle 0 0, hb.step hlo (hle 0 0) ?_ ?_ ?_⟩ <;>
        simp [hnone.given, hnone.taken, Ids.upTo]
  | openIf hfold =>
      have hnone := hquiet List.mem_cons_self hfold
      refine ⟨hle 2 0, hb.step hlo (hle 2 0) ?_ ?_ ?_⟩ <;> rintro (_ | _) <;>
        simp [hnone, Op.given?, Op.taken?, Block.gives, Block.takes, Ids.next, Ids.upTo,
          Action.plain, List.range'_succ, List.Perm.swap]
  | elseIf hfold =>
      have hnone := hquiet List.mem_cons_self hfold
      refine ⟨hle 1 0, hb.step hlo (hle 1 0) ?_ ?_ ?_⟩ <;> rintro (_ | _) <;>
        simp [hnone, Op.given?, Op.taken?, Block.gives, Block.takes, Ids.next, Ids.upTo,
          Action.plain, List.Perm.swap]
      grind
  | otherwise =>
      refine ⟨hle 0 0, hb.step hlo (hle 0 0) ?_ ?_ ?_⟩ <;> rintro (_ | _) <;>
        simp [Op.given?, Op.taken?, Block.gives, Block.takes, Ids.upTo, Action.plain]
      grind
  | @closeIf _ _ next _ =>
      refine ⟨hle 0 0, hb.step hlo (hle 0 0) ?_ ?_ ?_⟩ <;> rintro (_ | _) <;> cases next <;>
        simp [Op.given?, Op.taken?, Block.gives, Block.takes, Ids.upTo, Action.plain]
      all_goals grind
  | openRepeat hfold =>
      have hnone := hquiet List.mem_cons_self hfold
      refine ⟨hle 2 1, hb.step hlo (hle 2 1) ?_ ?_ ?_⟩ <;> rintro (_ | _) <;>
        simp [hnone, Op.given?, Op.taken?, Block.gives, Block.takes, Ids.next, Ids.upTo,
          Action.plain, List.range'_succ]
      all_goals grind
  | closeRepeat =>
      refine ⟨hle 0 0, hb.step hlo (hle 0 0) ?_ ?_ ?_⟩ <;> rintro (_ | _) <;>
        simp [Op.given?, Op.taken?, Block.gives, Block.takes, Ids.upTo, Action.plain]
      all_goals grind
  | openWhile hfold =>
      have hnone := hquiet List.mem_cons_self hfold
      refine ⟨hle 2 0, hb.step hlo (hle 2 0) ?_ ?_ ?_⟩ <;> rintro (_ | _) <;>
        simp [hnone, Op.given?, Op.taken?, Block.gives, Block.takes, Ids.next, Ids.upTo,
          Action.plain, List.range'_succ]
      all_goals grind
  | closeWhile =>
      refine ⟨hle 0 0, hb.step hlo (hle 0 0) ?_ ?_ ?_⟩ <;> rintro (_ | _) <;>
        simp [Op.given?, Op.taken?, Block.gives, Block.takes, Ids.upTo, Action.plain]
      all_goals grind

end Builder

/-! ## The builder -/

/-- The bodies of macros are linked, and stand for themselves. -/
def BodiesLinked (acts : List Action) : Prop :=
  ∀ a ∈ acts, ∀ name params body, a.op = .defineMacro name params body →
    Linked body ∧ ∀ b ∈ body, b.op.isOutermost = false

/-- What was set aside for the definition of a macro, outside all blocks, is
numbered. -/
def Blocks.Numbered (lo hi : Ids) : List Block → Prop
  | [] => True
  | .definition _ _ _ outer :: rest =>
    rest = [] ∧ Numbers lo hi outer.toList [] ∧ BodiesLinked outer.toList
  | _ :: rest => Blocks.Numbered lo hi rest

/-- What the builder has put together is linked up to what its open blocks are
still to give. -/
structure Builder.Numbered (lo : Ids) (b : Builder) : Prop where
  le : lo ≤ b.ids
  numbers : Numbers lo b.ids b.actions.toList b.blocks
  bodies : BodiesLinked b.actions.toList
  blocks : Blocks.Numbered lo b.ids b.blocks
  inner : b.inMacro = true → ∀ a ∈ b.actions.toList, a.op.isOutermost = false

theorem Builder.Numbered.start (ids : Ids) : ({ ids := ids } : Builder).Numbered ids :=
  ⟨le_refl _, .nil _, fun _ h => absurd h List.not_mem_nil, trivial, fun h => by cases h⟩

theorem Blocks.Numbered.mono {lo hi hi' : Ids} {blocks : List Block}
    (h : Blocks.Numbered lo hi blocks) (hle : hi ≤ hi') : Blocks.Numbered lo hi' blocks := by
  induction blocks with
  | nil => trivial
  | cons blk rest ih =>
      cases blk with
      | definition loc name params outer => exact ⟨h.1, h.2.1.mono hle, h.2.2⟩
      | condition loc exit next => exact ih h
      | repetition loc start exit counter => exact ih h
      | loop loc start exit => exact ih h

/-- The body of a macro is linked where its definition is closed. -/
theorem Builder.Numbered.linked_body {lo : Ids} {b : Builder} {loc : Location} {name : String}
    {params : List String} {before : Array Action} {outer : List Block} (hb : b.Numbered lo)
    (hblocks : b.blocks = .definition loc name params before :: outer) : Linked b.actions.toList := by
  have hnumbers := hb.numbers
  have hblks := hb.blocks
  rw [hblocks] at hnumbers hblks
  obtain ⟨rfl, -, -⟩ := hblks
  exact (Numbers.definition_iff.mp hnumbers).linked

namespace Builder

theorem Adds.blocks_numbered {loc : Location} {lo hi ids ids' : Ids} {stmt : Statement}
    {acts : List Action} {blocks blocks' : List Block}
    (h : Adds loc ids stmt blocks acts ids' blocks') (hb : Blocks.Numbered lo hi blocks) :
    Blocks.Numbered lo hi blocks' := by
  cases h <;> exact hb

/-- A statement opens and closes no macro definition otherwise. -/
theorem Adds.inMacro_eq {loc : Location} {ids ids' : Ids} {stmt : Statement} {acts : List Action}
    {b : Builder} {blocks' : List Block} (h : Adds loc ids stmt b.blocks acts ids' blocks') (b' : Builder)
    (hb' : b'.blocks = blocks') : b'.inMacro = b.inMacro := by
  unfold inMacro
  rw [hb']
  generalize b.blocks = blocks at h
  cases h <;> rfl

/-- What a statement adds defines no macro, and stands for actions from
elsewhere only if the statement does. -/
theorem Adds.isOutermost {loc : Location} {ids ids' : Ids} {stmt : Statement} {acts : List Action}
    {blocks blocks' : List Block} (hstmt : stmt.Computes)
    (h : Adds loc ids stmt blocks acts ids' blocks') :
    ∀ a ∈ acts, a.op.kind ≠ .defineMacro ∧ (a.op.isOutermost = true → stmt.isOutermost = true) := by
  have hexpr : ∀ {expr e : List Action}, expr ∈ stmt.exprs → foldConstant expr = .ok e →
      ∀ a ∈ e, a.op.kind ≠ .defineMacro ∧ (a.op.isOutermost = true → stmt.isOutermost = true) := by
    intro expr e hexpr hfold a ha
    -- folding an expression leaves an expression, and those are no definitions
    have hop := (hstmt expr hexpr).foldConstant hfold a ha
    obtain ⟨loc, op, x⟩ := a
    cases op <;> cases hop <;> exact ⟨nofun, nofun⟩
  have hfold : ∀ {expr e : List Action}, expr ∈ stmt.exprs → foldAt loc expr = .ok e →
      ∀ a ∈ e, a.op.kind ≠ .defineMacro ∧ (a.op.isOutermost = true → stmt.isOutermost = true) :=
    fun hmem h => hexpr hmem (foldAt_eq_ok h)
  cases h with
  | simple h =>
      refine List.forall_mem_append.mpr ⟨?_, ?_⟩
      · cases h with
        | assign h => exact hfold List.mem_cons_self h
        | instruction h => exact hexpr List.mem_cons_self h
        | data h => exact hfold List.mem_cons_self h
        | _ => exact fun a ha => absurd ha List.not_mem_nil
      · cases h with
        | instruction _ hop => cases hop <;> simp [Op.kind, Op.isOutermost, Action.plain]
        | _ => simp [Op.kind, Op.isOutermost, Statement.isOutermost, Action.plain]
  | openIf h =>
      refine List.forall_mem_append.mpr ⟨hfold List.mem_cons_self h, ?_⟩
      simp [Op.kind, Op.isOutermost, Action.plain]
  | elseIf h =>
      refine List.forall_mem_append.mpr ⟨List.forall_mem_append.mpr ⟨?_, ?_⟩, ?_⟩
      · simp [Op.kind, Op.isOutermost, Action.plain]
      · exact hfold List.mem_cons_self h
      · simp [Op.kind, Op.isOutermost, Action.plain]
  | otherwise => simp [Op.kind, Op.isOutermost, Action.plain]
  | @closeIf _ _ next _ => cases next <;> simp [Op.kind, Op.isOutermost, Action.plain]
  | openRepeat h =>
      refine List.forall_mem_append.mpr ⟨hfold List.mem_cons_self h, ?_⟩
      simp [Op.kind, Op.isOutermost, Action.plain]
  | closeRepeat => simp [Op.kind, Op.isOutermost, Action.plain]
  | openWhile h =>
      refine List.forall_mem_append.mpr ⟨List.forall_mem_cons.mpr ⟨?_, ?_⟩, ?_⟩
      · simp [Op.kind, Op.isOutermost, Action.plain]
      · exact hfold List.mem_cons_self h
      · simp [Op.kind, Op.isOutermost, Action.plain]
  | closeWhile => simp [Op.kind, Op.isOutermost, Action.plain]

/-- Lowering a statement keeps the numbers in order. -/
theorem Issued.numbered {loc : Location} {lo : Ids} {stmt : Statement} {b b' : Builder}
    (hstmt : stmt.Computes) (hb : b.Numbered lo) (h : Issued loc stmt b b') :
    b.ids ≤ b'.ids ∧ b'.Numbered lo := by
  cases h with
  | @adds _ _ acts ids blocks hadds hallowed =>
      obtain ⟨hle, hnumbers⟩ := hadds.numbers hstmt hb.le hb.numbers
      refine ⟨hle, hb.le.trans hle, ?_, ?_, (hadds.blocks_numbered hb.blocks).mono hle, ?_⟩
      · rw [Array.toList_appendList]
        exact hnumbers
      · rw [Array.toList_appendList]
        refine List.forall_mem_append.mpr ⟨hb.bodies, fun a ha name params body hop => ?_⟩
        have := (hadds.isOutermost hstmt a ha).1
        rw [hop] at this
        exact absurd rfl this
      · intro hin
        have hwas : b.inMacro = true := (hadds.inMacro_eq _ rfl).symm.trans hin
        rw [Array.toList_appendList]
        refine List.forall_mem_append.mpr ⟨hb.inner hwas, fun a ha => ?_⟩
        rw [hwas, Bool.true_and] at hallowed
        have := (hadds.isOutermost hstmt a ha).2
        rw [hallowed] at this
        simpa using this
  | openMacro hblocks =>
      have hnumbers := hb.numbers
      rw [hblocks] at hnumbers
      exact ⟨le_refl _, hb.le, Numbers.definition_iff.mpr ((Numbers.nil lo).mono hb.le),
        fun a ha => absurd ha List.not_mem_nil, ⟨rfl, hnumbers, hb.bodies⟩,
        fun _ a ha => absurd ha List.not_mem_nil⟩
  -- the body has its numbers to itself, so they leave the program with it
  | @closeMacro start name params before _ outer hblocks =>
      have hblks := hb.blocks
      have hbody := hb.linked_body hblocks
      have hinner := hb.inner (by simp [inMacro, hblocks, Block.kind])
      rw [hblocks] at hblks
      obtain ⟨rfl, hbefore, hbodies⟩ := hblks
      refine ⟨le_refl _, hb.le, ?_, ?_, trivial, fun h => by cases h⟩
      · rw [Array.toList_appendList]
        refine hbefore.step hb.le (le_refl _) ?_ ?_ ?_ <;> rintro (_ | _) <;>
          simp [Op.given?, Op.taken?, Ids.upTo, Action.plain]
      · rw [Array.toList_appendList]
        refine List.forall_mem_append.mpr ⟨hbodies, ?_⟩
        rintro a ha name params body hop
        obtain rfl := List.mem_singleton.mp ha
        cases hop
        exact ⟨hbody, hinner⟩

theorem issueAll_numbered {lines : List Line} {lo : Ids} {b b' : Builder} {u : Unit}
    (hlines : ∀ l ∈ lines, l.statement.Computes) (hb : b.Numbered lo)
    (h : issueAll lines b = .ok u b') : b.ids ≤ b'.ids ∧ b'.Numbered lo :=
  issueAll_induction (P := fun b₁ => b.ids ≤ b₁.ids ∧ b₁.Numbered lo)
    (fun l hl _ _ hb₁ hissue =>
      let hstep := hissue.numbered (hlines l hl) hb₁.2
      ⟨hb₁.1.trans hstep.1, hstep.2⟩)
    ⟨le_refl _, hb⟩ h

end Builder

/-! ## Reading -/

theorem Statement.Sound.computes {s : Statement} (h : s.Sound) : s.Computes := by
  intro e he
  cases s with
  | instruction mnemonic operand =>
      obtain rfl := List.mem_singleton.mp he
      rcases h with hnone | hexpr
      · rw [hnone]
        exact .nil
      · exact hexpr.computes
  | call name args => exact (h e he).computes
  | message level formatted args =>
      obtain ⟨arg, harg, he⟩ := List.mem_flatMap.mp he
      cases arg with
      | text s => cases he
      | expr acts =>
          obtain rfl := List.mem_singleton.mp he
          exact (h _ harg).computes
  | includeBinary name skip length =>
      rcases List.mem_pair.mp he with rfl | rfl
      · exact h.1.computes
      · exact h.2.computes
  | assign | data | openIf | elseIf | openRepeat | openWhile =>
      obtain rfl := List.mem_singleton.mp he
      exact IsExpr.computes h
  | _ => cases he

/-- The actions of a source file are numbered from where the session was. -/
theorem Reader.actions_numbers {r : Reader} {file : String} {text : List Text.Glyph}
    {acts : List Action} {s s' : Session} (h : r.actions file text s = .ok acts s') :
    s.ids ≤ s'.ids ∧ Numbers s.ids s'.ids acts [] ∧ BodiesLinked acts := by
  obtain ⟨b, hissue, hblocks, rfl, hids⟩ := actions_eq_ok h
  obtain ⟨hle, hb⟩ := Builder.issueAll_numbered
    (fun l hl => (linesOf_sound file _ l hl).computes) (.start s.ids) hissue
  have hnumbers := hb.numbers
  rw [hblocks] at hnumbers
  rw [hids]
  exact ⟨hle, hnumbers, hb.bodies⟩

end Mos6510
