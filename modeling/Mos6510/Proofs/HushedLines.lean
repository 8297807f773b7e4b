import Mos6510.Proofs.Hushed

/-!
# Lines with messages taken out

The lines of a source without some of their notices, `Trimmed`, are lowered to the
actions of the source without these notices, wherever they stand: a notice adds one
action to those at hand, opens and closes no block and takes no number.

* `Builder.issue_hushed`: a statement does the same to two builders that differ in
  notices;
* `Reader.actions_trimmed`: so the trimmed lines of a source become its hushed actions.
-/

namespace Mos6510

open Outcome

/-- Does the statement show a message that does not stop the assembly? -/
def Statement.isNotice : Statement → Bool
  | .message level _ _ => level != .error
  | _ => false

/-- The second lines are the first ones without some of their notices. -/
inductive Trimmed : List Line → List Line → Prop
  | nil : Trimmed [] []
  | keep (l : Line) {lines lines' : List Line} : Trimmed lines lines' →
      Trimmed (l :: lines) (l :: lines')
  | drop {l : Line} {lines lines' : List Line} : l.statement.isNotice = true →
      Trimmed lines lines' → Trimmed (l :: lines) lines'

/-- The same block, up to notices in the actions before a macro definition. -/
inductive Block.Hushes : Block → Block → Prop
  | same (blk : Block) : Hushes blk blk
  | definition {loc : Location} {name : String} {params : List String} {outer outer' : Array Action} :
      Hushed outer.toList outer'.toList →
        Hushes (.definition loc name params outer) (.definition loc name params outer')

namespace Builder

/-- The second builder is the first one without some of its notices. -/
structure Hushes (b b' : Builder) : Prop where
  ids : b.ids = b'.ids
  actions : Hushed b.actions.toList b'.actions.toList
  blocks : List.Forall₂ Block.Hushes b.blocks b'.blocks

namespace Hushes

/-- The same actions are added to both builders. -/
theorem added {ids : Ids} {acts acts' : Array Action} {blocks blocks' : List Block}
    (as : List Action) (hacts : Hushed acts.toList acts'.toList)
    (hblocks : List.Forall₂ Block.Hushes blocks blocks') :
    Hushes ⟨ids, acts ++ as, blocks⟩ ⟨ids, acts' ++ as, blocks'⟩ where
  ids := rfl
  actions := by
    rw [Array.toList_appendList, Array.toList_appendList]
    exact hacts.append (.refl as)
  blocks := hblocks

variable {b b' : Builder} (h : b.Hushes b')

include h

theorem add (acts : List Action) : (b.add acts).Hushes (b'.add acts) := by
  obtain ⟨ids, as, blocks⟩ := b
  obtain ⟨_, as', blocks'⟩ := b'
  obtain ⟨rfl, has, hblocks⟩ := h
  exact .added acts has hblocks

theorem inMacro_eq : b.inMacro = b'.inMacro := by
  have hblocks := h.blocks
  unfold inMacro
  generalize b.blocks = blocks at hblocks ⊢
  generalize b'.blocks = blocks' at hblocks ⊢
  induction hblocks with
  | nil => rfl
  | cons hblk _ ih =>
      rw [List.any_cons, List.any_cons, ih]
      cases hblk <;> rfl

end Hushes

section

variable {loc : Location}

theorem addResult_hushed (acts : Except Error (List Action)) :
    InStep Eq Hushes (addResult acts) (addResult acts) (Same Hushes) := by
  intro b b' h
  cases acts with
  | ok acts => exact .ok ⟨rfl, h.add acts⟩
  | error err => exact .error rfl

theorem addOp_hushed (op : Op) : InStep Eq Hushes (addOp loc op) (addOp loc op) (Same Hushes) :=
  fun _ _ h => .ok ⟨rfl, h.add _⟩

/-- What is forbidden inside a macro is forbidden in both builders. -/
theorem outermost_hushed {err : Error} {m : BuilderM Unit}
    (hm : InStep Eq Hushes m m (Same Hushes)) :
    InStep Eq Hushes (fun b => if b.inMacro then .error err b else m b)
      (fun b => if b.inMacro then .error err b else m b) (Same Hushes) := by
  intro b b' h
  dsimp only
  rw [h.inMacro_eq]
  split
  · exact .error rfl
  · exact hm h

theorem openIf_hushed (cond : List Action) :
    InStep Eq Hushes (openIf loc cond) (openIf loc cond) (Same Hushes) := by
  rintro ⟨ids, acts, blocks⟩ ⟨_, acts', blocks'⟩ ⟨rfl, hacts, hblocks⟩
  unfold openIf
  dsimp only
  cases foldAt loc cond with
  | error err => exact .error rfl
  | ok cond => exact .ok ⟨rfl, .added _ hacts (.cons (.same _) hblocks)⟩

theorem openRepeat_hushed (count : List Action) :
    InStep Eq Hushes (openRepeat loc count) (openRepeat loc count) (Same Hushes) := by
  rintro ⟨ids, acts, blocks⟩ ⟨_, acts', blocks'⟩ ⟨rfl, hacts, hblocks⟩
  unfold openRepeat
  dsimp only
  cases foldAt loc count with
  | error err => exact .error rfl
  | ok count => exact .ok ⟨rfl, .added _ hacts (.cons (.same _) hblocks)⟩

theorem openWhile_hushed (cond : List Action) :
    InStep Eq Hushes (openWhile loc cond) (openWhile loc cond) (Same Hushes) := by
  rintro ⟨ids, acts, blocks⟩ ⟨_, acts', blocks'⟩ ⟨rfl, hacts, hblocks⟩
  unfold openWhile
  dsimp only
  cases foldAt loc cond with
  | error err => exact .error rfl
  | ok cond => exact .ok ⟨rfl, .added _ hacts (.cons (.same _) hblocks)⟩

theorem openMacro_hushed (name : String) (params : List String) :
    InStep Eq Hushes (openMacro loc name params) (openMacro loc name params) (Same Hushes) := by
  rintro ⟨ids, acts, blocks⟩ ⟨_, acts', blocks'⟩ ⟨rfl, hacts, hblocks⟩
  unfold openMacro
  cases hblocks with
  | nil => exact .ok ⟨rfl, rfl, .nil, .cons (.definition hacts) .nil⟩
  | cons => exact .error rfl

/-- What depends on the innermost block does the same to two builders, if it does so
where the innermost blocks are the same or both a macro definition. -/
theorem innermost_hushed {m : BuilderM Unit}
    (hnil : ∀ {ids acts acts'}, Hushed acts.toList acts'.toList →
      Accord Eq (Same Hushes) (m ⟨ids, acts, []⟩) (m ⟨ids, acts', []⟩))
    (hsame : ∀ {ids acts acts' outer outer'} (blk : Block), blk.kind ≠ .definition →
      Hushed acts.toList acts'.toList → List.Forall₂ Block.Hushes outer outer' →
      Accord Eq (Same Hushes) (m ⟨ids, acts, blk :: outer⟩) (m ⟨ids, acts', blk :: outer'⟩))
    (hdefinition : ∀ {ids acts acts' outer outer' loc name params before before'},
      Hushed before.toList before'.toList → Hushed acts.toList acts'.toList →
      List.Forall₂ Block.Hushes outer outer' →
      Accord Eq (Same Hushes) (m ⟨ids, acts, .definition loc name params before :: outer⟩)
        (m ⟨ids, acts', .definition loc name params before' :: outer'⟩)) :
    InStep Eq Hushes m m (Same Hushes) := by
  rintro ⟨ids, acts, blocks⟩ ⟨_, acts', blocks'⟩ ⟨rfl, hacts, hblocks⟩
  cases hblocks with
  | nil => exact hnil hacts
  | @cons blk _ _ _ hblk houter =>
      cases hblk with
      | definition hbefore => exact hdefinition hbefore hacts houter
      | same =>
          cases blk with
          | definition => exact hdefinition (.refl _) hacts houter
          | _ => exact hsame _ (by simp [Block.kind]) hacts houter

theorem elseIf_hushed (cond : List Action) :
    InStep Eq Hushes (elseIf loc cond) (elseIf loc cond) (Same Hushes) := by
  refine innermost_hushed (fun _ => .error rfl) (fun blk _ hacts houter => ?_)
    fun _ _ _ => .error rfl
  cases blk with
  | condition start exit next =>
      cases next with
      | none => exact .error rfl
      | some next =>
          unfold elseIf
          dsimp only
          cases foldAt loc cond with
          | error err => exact .error rfl
          | ok cond => exact .ok ⟨rfl, .added _ hacts (.cons (.same _) houter)⟩
  | _ => exact .error rfl

theorem otherwise_hushed : InStep Eq Hushes (otherwise loc) (otherwise loc) (Same Hushes) := by
  refine innermost_hushed (fun _ => .error rfl) (fun blk _ hacts houter => ?_)
    fun _ _ _ => .error rfl
  cases blk with
  | condition start exit next =>
      cases next with
      | none => exact .error rfl
      | some next => exact .ok ⟨rfl, .added _ hacts (.cons (.same _) houter)⟩
  | _ => exact .error rfl

theorem closeIf_hushed : InStep Eq Hushes (closeIf loc) (closeIf loc) (Same Hushes) := by
  refine innermost_hushed (fun _ => .error rfl) (fun blk _ hacts houter => ?_)
    fun _ _ _ => .error rfl
  cases blk with
  | condition start exit next => exact .ok ⟨rfl, .added _ hacts houter⟩
  | _ => exact .error rfl

theorem closeRepeat_hushed : InStep Eq Hushes (closeRepeat loc) (closeRepeat loc) (Same Hushes) := by
  refine innermost_hushed (fun _ => .error rfl) (fun blk _ hacts houter => ?_)
    fun _ _ _ => .error rfl
  cases blk with
  | repetition start first exit counter => exact .ok ⟨rfl, .added _ hacts houter⟩
  | _ => exact .error rfl

theorem closeWhile_hushed : InStep Eq Hushes (closeWhile loc) (closeWhile loc) (Same Hushes) := by
  refine innermost_hushed (fun _ => .error rfl) (fun blk _ hacts houter => ?_)
    fun _ _ _ => .error rfl
  cases blk with
  | loop start first exit => exact .ok ⟨rfl, .added _ hacts houter⟩
  | _ => exact .error rfl

/-- Closing a definition makes its actions the body of the macro. -/
theorem closeMacro_hushed : InStep Eq Hushes (closeMacro loc) (closeMacro loc) (Same Hushes) := by
  refine innermost_hushed (fun _ => .error rfl) (fun blk hkind _ _ => ?_)
    fun hbefore hacts houter => ?_
  · cases blk with
    | definition => exact absurd rfl hkind
    | _ => exact .error rfl
  · refine .ok ⟨rfl, rfl, ?_, houter⟩
    simp only [Builder.add, Array.toList_appendList]
    exact hbefore.append (.body hacts .nil)

/-- Each statement does the same to a builder and to the one without notices. -/
theorem issue_hushed (loc : Location) (stmt : Statement) :
    InStep Eq Hushes (issue loc stmt) (issue loc stmt) (Same Hushes) := by
  cases stmt with
  | assign name expr => exact addResult_hushed _
  | label name => exact addOp_hushed _
  | instruction mnemonic operand => exact addResult_hushed _
  | data word expr => exact addResult_hushed _
  | text word bytes => exact addOp_hushed _
  | openIf cond => exact openIf_hushed cond
  | elseIf cond => exact elseIf_hushed cond
  | otherwise => exact otherwise_hushed
  | closeIf => exact closeIf_hushed
  | openRepeat count => exact openRepeat_hushed count
  | closeRepeat => exact closeRepeat_hushed
  | openWhile cond => exact openWhile_hushed cond
  | closeWhile => exact closeWhile_hushed
  | openMacro name params => exact openMacro_hushed name params
  | closeMacro => exact closeMacro_hushed
  | call name args => exact outermost_hushed (addResult_hushed _)
  | metaLabel name => exact addOp_hushed _
  | goto name => exact addOp_hushed _
  | message level formatted args => exact addResult_hushed _
  | includeSource name => exact outermost_hushed (addOp_hushed _)
  | includeBinary name skip length => exact outermost_hushed (addResult_hushed _)

/-- A notice that is not issued is one that is not there. -/
theorem Hushes.issue_notice {stmt : Statement} {b b₁ b' : Builder} {u : Unit} (h : b.Hushes b')
    (hnotice : stmt.isNotice = true) (hissue : issue loc stmt b = .ok u b₁) : b₁.Hushes b' := by
  cases stmt with
  | message level formatted args =>
      obtain ⟨as, has, rfl⟩ := addResult_eq_ok hissue
      obtain ⟨args', -, has⟩ := except_bind_eq_ok.mp has
      cases has
      refine { h with actions := ?_ }
      simp only [Builder.add, Array.toList_appendList]
      rw [← List.append_nil b'.actions.toList]
      exact h.actions.append (.drop hnotice .nil)
  | _ => cases hnotice

end

/-- Trimmed lines are lowered where the lines are, to the same without notices. -/
theorem issueAll_trimmed {lines lines' : List Line} (h : Trimmed lines lines') {b b₁ b' : Builder}
    {u : Unit} (hb : b.Hushes b') (hissue : issueAll lines b = .ok u b₁) :
    ∃ b₁', issueAll lines' b' = .ok () b₁' ∧ b₁.Hushes b₁' := by
  induction h generalizing b b' with
  | nil =>
      obtain ⟨-, rfl⟩ := pure_eq_ok.mp hissue
      exact ⟨b', rfl, hb⟩
  | keep l _ ih =>
      obtain ⟨_, b₂, hhead, hrest⟩ := bind_eq_ok.mp hissue
      have hagree := issue_hushed l.location l.statement hb
      rw [hhead] at hagree
      generalize hhead' : issue l.location l.statement b' = r at hagree
      cases hagree with
      | ok hboth =>
          obtain ⟨b₁', hrest', hend⟩ := ih hboth.2 hrest
          exact ⟨b₁', bind_eq_ok.mpr ⟨_, _, hhead', hrest'⟩, hend⟩
  | drop hnotice _ ih =>
      obtain ⟨_, b₂, hhead, hrest⟩ := bind_eq_ok.mp hissue
      exact ih (hb.issue_notice hnotice hhead) hrest

end Builder

namespace Reader

/-- Where lines become actions, the lines without some notices become the actions
without them, and use up the same numbers. -/
theorem lower_trimmed {lines lines' : List Line} (h : Trimmed lines lines') {err : Option Error}
    {acts : List Action} {s s₁ : Session} (hlower : lower lines err s = .ok acts s₁) :
    ∃ acts', lower lines' none s = .ok acts' s₁ ∧ Hushed acts acts' := by
  obtain ⟨b, hissue, hblocks, rfl, rfl⟩ := lower_eq_ok hlower
  obtain ⟨b', hissue', hb⟩ := Builder.issueAll_trimmed h ⟨rfl, .refl _, .nil⟩ hissue
  have hblocks' : b'.blocks = [] := by
    have hpair := hb.blocks
    rw [hblocks] at hpair
    exact List.forall₂_nil_left_iff.mp hpair
  refine ⟨b'.actions.toList, ?_, hb.actions⟩
  unfold lower Assembler.withIds
  simp only [hissue', Builder.finish, hblocks', hb.ids]

/-- Where a source is read, its lines without some notices become its actions without
them, in the same session. -/
theorem actions_trimmed {r : Reader} {file : String} {text : List Text.Glyph} {acts : List Action}
    {s₀ s : Session} (h : r.actions file text s₀ = .ok acts s) {lines' : List Line}
    (htrimmed : Trimmed (linesOf file (Lexer.scan r.defines text).tokens).1 lines') :
    ∃ acts', lower lines' none { s₀ with log := s.log } = .ok acts' s ∧ Hushed acts acts' := by
  unfold actions at h
  dsimp only at h
  cases hscan : (Lexer.scan r.defines text).error with
  | some err =>
      simp only [hscan] at h
      exact absurd h throw_ne_ok
  | none =>
      simp only [hscan] at h
      obtain ⟨_, s₁, hmodify, hlower⟩ := bind_eq_ok.mp h
      cases hmodify
      have hlog := hlower
      obtain ⟨b, -, -, -, rfl⟩ := lower_eq_ok hlog
      exact lower_trimmed htrimmed hlower

end Reader

end Mos6510
