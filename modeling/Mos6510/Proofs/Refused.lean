import Mos6510.Proofs.Rebuild

/-!
# Refused statements

A statement that cannot be lowered leaves the builder as it was, but for numbers that
it has used up.  So whoever goes on after an error gets what there would be without the
statement that failed.

* `Builder.issue_refused`: the actions and the open blocks are those from before;
* `Renumbered ρ L`: actions that are the same but for numbers, which `ρ` pairs;
* `Builder.issue_alike`: on two builders that are the same but for numbers a statement
  succeeds and fails alike, and they stay so;
* `Builder.refused_without_trace`: so statements that fail can be left out.
-/

namespace Mos6510

open Outcome

namespace Builder

/-! ## Going on after errors -/

/-- Issue a statement, and go on with what it leaves even if it fails. -/
def attempt (l : Line) (b : Builder) : Except Error Unit × Builder :=
  match issue l.location l.statement b with
  | .ok _ b' => (.ok (), b')
  | .error err b' => (.error err, b')

/-- Issue statements one after the other, going on after those that fail. -/
def attemptAll : List Line → Builder → List (Except Error Unit) × Builder
  | [], b => ([], b)
  | l :: rest, b =>
    let (outcome, b) := attempt l b
    let (outcomes, b) := attemptAll rest b
    (outcome :: outcomes, b)

/-- The statements that succeed, with those that fail left out. -/
def kept : List Line → Builder → List Line
  | [], _ => []
  | l :: rest, b =>
    match issue l.location l.statement b with
    | .ok _ b' => l :: kept rest b'
    | .error _ b' => kept rest b'

/-- A builder that is the same but for the numbers that were given out. -/
def Later (b b' : Builder) : Prop := b.ids ≤ b'.ids ∧ b'.actions = b.actions ∧ b'.blocks = b.blocks

section Refusals

variable {loc : Location} {acts : List Action} {b b' : Builder} {err : Error} {u : Unit}

theorem Later.refl (b : Builder) : Later b b := ⟨le_refl _, rfl, rfl⟩

theorem Later.raise (b : Builder) (jumps counters : Nat) :
    Later b { b with ids := { b.ids with
      jump := b.ids.jump + jumps, counter := b.ids.counter + counters } } :=
  ⟨⟨Nat.le_add_right _ _, Nat.le_add_right _ _, Nat.le_refl _⟩, rfl, rfl⟩

theorem addResult_refused {acts : Except Error (List Action)}
    (h : addResult acts b = .error err b') : Later b b' := by
  unfold addResult at h
  split at h
  · cases h
  · cases h
    exact .refl b

theorem openIf_refused (h : openIf loc acts b = .error err b') : Later b b' := by
  unfold openIf at h
  dsimp only at h
  split at h
  · cases h
    exact .raise b 2 0
  · cases h

theorem openRepeat_refused (h : openRepeat loc acts b = .error err b') : Later b b' := by
  unfold openRepeat at h
  dsimp only at h
  split at h
  · cases h
    exact .raise b 2 1
  · cases h

theorem openWhile_refused (h : openWhile loc acts b = .error err b') : Later b b' := by
  unfold openWhile at h
  dsimp only at h
  split at h
  · cases h
    exact .raise b 2 0
  · cases h

theorem elseIf_refused (h : elseIf loc acts b = .error err b') : Later b b' := by
  unfold elseIf at h
  split at h
  · split at h
    · cases h
      exact .refl b
    · cases h
  · cases h
    exact .refl b
  · cases h
    exact .refl b

theorem otherwise_refused (h : otherwise loc b = .error err b') : Later b b' := by
  unfold otherwise at h
  split at h
  · cases h
  · cases h
    exact .refl b
  · cases h
    exact .refl b

theorem failClose_refused {directive : String} (h : failClose loc directive b = .error err b') :
    Later b b' := by
  cases h
  exact .refl b

theorem closeIf_refused (h : closeIf loc b = .error err b') : Later b b' := by
  unfold closeIf at h
  split at h
  · cases h
  · exact failClose_refused h

theorem closeRepeat_refused (h : closeRepeat loc b = .error err b') : Later b b' := by
  unfold closeRepeat at h
  split at h
  · cases h
  · exact failClose_refused h

theorem closeWhile_refused (h : closeWhile loc b = .error err b') : Later b b' := by
  unfold closeWhile at h
  split at h
  · cases h
  · exact failClose_refused h

theorem openMacro_refused {name : String} {params : List String}
    (h : openMacro loc name params b = .error err b') : Later b b' := by
  unfold openMacro at h
  split at h
  · cases h
  · cases h
    exact .refl b

theorem closeMacro_refused (h : closeMacro loc b = .error err b') : Later b b' := by
  unfold closeMacro at h
  split at h
  · cases h
  · exact failClose_refused h

/-- What is forbidden in a macro. -/
theorem outside_refused {m : BuilderM Unit} {err' : Error}
    (hm : m b = .error err b' → Later b b')
    (h : (if b.inMacro then .error err' b else m b) = .error err b') : Later b b' := by
  split at h
  · cases h
    exact .refl b
  · exact hm h

/-- A statement that fails leaves the builder as it was, but for numbers. -/
theorem issue_refused {stmt : Statement} (h : issue loc stmt b = .error err b') : Later b b' := by
  cases stmt with
  | assign | instruction | data | message => exact addResult_refused h
  | label | text | metaLabel | goto => cases h
  | openIf => exact openIf_refused h
  | elseIf => exact elseIf_refused h
  | otherwise => exact otherwise_refused h
  | closeIf => exact closeIf_refused h
  | openRepeat => exact openRepeat_refused h
  | closeRepeat => exact closeRepeat_refused h
  | openWhile => exact openWhile_refused h
  | closeWhile => exact closeWhile_refused h
  | openMacro => exact openMacro_refused h
  | closeMacro => exact closeMacro_refused h
  | call | includeBinary => exact outside_refused addResult_refused h
  | includeSource => exact outside_refused (fun h => by cases h) h

end Refusals

end Builder

/-! ## Actions up to numbers -/

/-- Does the action hold a number, itself or in the body of a macro? -/
def Op.holdsNumber : Op → Bool
  | .target _ | .jump _ | .jumpIfFalse _ => true
  | .counterSet _ | .counterTest _ _ | .counterStep _ _ => true
  | .defineMacro _ _ _ => true
  | _ => false

section

variable (ρ : Pairing) (L : Op → Prop)

mutual

/-- Two actions that are the same but for numbers that are paired.  What an expression
spells out, which `L` holds of, is the same even if it holds a number. -/
inductive Op.Renumbers : Op → Op → Prop
  | plain {op : Op} : op.holdsNumber = false → Op.Renumbers op op
  | spelled {op : Op} : L op → Op.Renumbers op op
  | target {j j' : Int} : ρ .jump j j' → Op.Renumbers (.target j) (.target j')
  | jump {j j' : Int} : ρ .jump j j' → Op.Renumbers (.jump j) (.jump j')
  | jumpIfFalse {j j' : Int} : ρ .jump j j' → Op.Renumbers (.jumpIfFalse j) (.jumpIfFalse j')
  | counterSet {c c' : Int} : ρ .counter c c' → Op.Renumbers (.counterSet c) (.counterSet c')
  | counterTest {c c' j j' : Int} : ρ .counter c c' → ρ .jump j j' →
      Op.Renumbers (.counterTest c j) (.counterTest c' j')
  | counterStep {c c' j j' : Int} : ρ .counter c c' → ρ .jump j j' →
      Op.Renumbers (.counterStep c j) (.counterStep c' j')
  | defineMacro {name : String} {params : List String} {body body' : List Action} :
      Renumbered body body' →
        Op.Renumbers (.defineMacro name params body) (.defineMacro name params body')

/-- The same actions at the same locations, but for numbers that are paired. -/
inductive Renumbered : List Action → List Action → Prop
  | nil : Renumbered [] []
  | cons {loc : Location} {op op' : Op} {x : Option Expansion} {rest rest' : List Action} :
      Op.Renumbers op op' → Renumbered rest rest' →
        Renumbered (⟨loc, op, x⟩ :: rest) (⟨loc, op', x⟩ :: rest')

end

/-- Each number has one partner, and is the partner of one. -/
def Pairing.OneToOne : Prop := ∀ κ n n' m m', ρ κ n n' → ρ κ m m' → (n = m ↔ n' = m')

/-- Two open blocks that are the same but for numbers that are paired. -/
inductive Block.Renumbers : Block → Block → Prop
  | condition {loc : Location} {exit exit' : Nat} {next next' : Option Nat} :
      ρ .jump exit exit' → Option.Rel (fun n n' : Nat => ρ .jump n n') next next' →
        Block.Renumbers (.condition loc exit next) (.condition loc exit' next')
  | repetition {loc : Location} {start start' exit exit' counter counter' : Nat} :
      ρ .jump start start' → ρ .jump exit exit' → ρ .counter counter counter' →
        Block.Renumbers (.repetition loc start exit counter) (.repetition loc start' exit' counter')
  | loop {loc : Location} {start start' exit exit' : Nat} :
      ρ .jump start start' → ρ .jump exit exit' →
        Block.Renumbers (.loop loc start exit) (.loop loc start' exit')
  | definition {loc : Location} {name : String} {params : List String}
      {outer outer' : Array Action} :
      Renumbered ρ L outer.toList outer'.toList →
        Block.Renumbers (.definition loc name params outer) (.definition loc name params outer')

/-- Two builders that are the same but for numbers.  All that are paired were given
out. -/
structure Builder.Renumbers (b b' : Builder) : Prop where
  actions : Renumbered ρ L b.actions.toList b'.actions.toList
  blocks : List.Forall₂ (Block.Renumbers ρ L) b.blocks b'.blocks
  given : ∀ κ n n', ρ κ n n' → n < b.ids.next κ ∧ n' < b'.ids.next κ
  oneToOne : ρ.OneToOne

/-- Two builders that are the same but for some pairing of numbers. -/
def Builder.Alike (b b' : Builder) : Prop := ∃ ρ, Builder.Renumbers ρ L b b'

end

variable {ρ τ : Pairing} {L : Op → Prop}

namespace Renumbered

variable {as as' bs bs' acts : List Action}

theorem append (h : Renumbered ρ L as as') (h' : Renumbered ρ L bs bs') :
    Renumbered ρ L (as ++ bs) (as' ++ bs') := by
  induction as generalizing as' with
  | nil =>
      cases h
      exact h'
  | cons a rest ih =>
      cases h with
      | cons hop hrest => exact .cons hop (ih hrest)

theorem single (loc : Location) {op op' : Op} (h : op.Renumbers ρ L op') :
    Renumbered ρ L [Action.plain loc op] [Action.plain loc op'] :=
  .cons h .nil

/-- Actions that hold no numbers, or are spelled out, stay as they are. -/
theorem of_plain (h : ∀ a ∈ acts, a.op.holdsNumber = false ∨ L a.op) : Renumbered ρ L acts acts := by
  induction acts with
  | nil => exact .nil
  | cons a rest ih =>
      obtain ⟨ha, hrest⟩ := List.forall_mem_cons.mp h
      obtain ⟨loc, op, x⟩ := a
      exact .cons (ha.elim .plain .spelled) (ih hrest)

theorem mono (hle : ∀ κ n n', ρ κ n n' → τ κ n n') (h : Renumbered ρ L as as') :
    Renumbered τ L as as' := by
  -- the body of a macro is renumbered as well
  refine Renumbered.rec (motive_1 := fun op op' _ => op.Renumbers τ L op')
    (motive_2 := fun as as' _ => Renumbered τ L as as') ?_ ?_ ?_ ?_ ?_ ?_ ?_ ?_ ?_ ?_ ?_ h
  · exact fun hplain => .plain hplain
  · exact fun hspelled => .spelled hspelled
  · exact fun hj => .target (hle _ _ _ hj)
  · exact fun hj => .jump (hle _ _ _ hj)
  · exact fun hj => .jumpIfFalse (hle _ _ _ hj)
  · exact fun hc => .counterSet (hle _ _ _ hc)
  · exact fun hc hj => .counterTest (hle _ _ _ hc) (hle _ _ _ hj)
  · exact fun hc hj => .counterStep (hle _ _ _ hc) (hle _ _ _ hj)
  · exact fun _ hbody => .defineMacro hbody
  · exact .nil
  · exact fun _ _ hop hrest => .cons hop hrest

end Renumbered

namespace Block.Renumbers

variable {blk blk' : Block}

theorem mono (hle : ∀ κ n n', ρ κ n n' → τ κ n n') (h : blk.Renumbers ρ L blk') :
    blk.Renumbers τ L blk' := by
  cases h with
  | condition hexit hnext =>
      refine .condition (hle _ _ _ hexit) ?_
      cases hnext with
      | none => exact .none
      | some hnext => exact .some (hle _ _ _ hnext)
  | repetition hstart hexit hcounter =>
      exact .repetition (hle _ _ _ hstart) (hle _ _ _ hexit) (hle _ _ _ hcounter)
  | loop hstart hexit => exact .loop (hle _ _ _ hstart) (hle _ _ _ hexit)
  | definition houter => exact .definition (houter.mono hle)

theorem kind_eq (h : blk.Renumbers ρ L blk') : blk'.kind = blk.kind := by
  cases h <;> rfl

theorem location_eq (h : blk.Renumbers ρ L blk') : blk'.location = blk.location := by
  cases h <;> rfl

end Block.Renumbers

/-- The numbers after the next one is given out. -/
def Ids.after (ids : Ids) : Numbered → Ids
  | .jump => { ids with jump := ids.jump + 1 }
  | .counter => { ids with counter := ids.counter + 1 }

theorem Ids.le_after (ids : Ids) (κ : Numbered) : ids ≤ ids.after κ := by
  cases κ
  · exact ⟨Nat.le_succ _, Nat.le_refl _, Nat.le_refl _⟩
  · exact ⟨Nat.le_refl _, Nat.le_succ _, Nat.le_refl _⟩

theorem Ids.next_after (ids : Ids) (κ : Numbered) : (ids.after κ).next κ = ids.next κ + 1 := by
  cases κ <;> rfl

namespace Builder

variable {b b' c : Builder} {acts acts' : List Action} {blocks blocks' : List Block}

namespace Renumbers

theorem kinds_eq (h : Renumbers ρ L b b') :
    b.blocks.map Block.kind = b'.blocks.map Block.kind := by
  have hblocks := h.blocks
  generalize b.blocks = blocks at hblocks
  generalize b'.blocks = blocks' at hblocks
  induction hblocks with
  | nil => rfl
  | cons hblk _ ih => rw [List.map_cons, List.map_cons, ih, hblk.kind_eq]

/-- Numbers may be given out and not used. -/
theorem of_later (h : Renumbers ρ L b b') (hb : Later b c) : Renumbers ρ L c b' := by
  obtain ⟨hids, hactions, hblocks⟩ := hb
  refine ⟨hactions ▸ h.actions, hblocks ▸ h.blocks, fun κ n n' hn => ?_, h.oneToOne⟩
  obtain ⟨hlt, hlt'⟩ := h.given κ n n' hn
  have hle := Ids.next_mono hids κ
  exact ⟨by omega, hlt'⟩

/-- More actions, and other open blocks. -/
theorem grow (h : Renumbers ρ L b b') (hacts : Renumbered ρ L acts acts')
    (hblocks : List.Forall₂ (Block.Renumbers ρ L) blocks blocks') :
    Renumbers ρ L ⟨b.ids, b.actions ++ acts, blocks⟩ ⟨b'.ids, b'.actions ++ acts', blocks'⟩ where
  actions := by
    rw [Array.toList_appendList, Array.toList_appendList]
    exact h.actions.append hacts
  blocks := hblocks
  given := h.given
  oneToOne := h.oneToOne

/-- The next number of the one builder is paired with that of the other. -/
theorem fresh (h : Renumbers ρ L b b') (κ : Mos6510.Numbered) :
    ∃ τ : Pairing, (∀ κ n n', ρ κ n n' → τ κ n n') ∧ τ κ (b.ids.next κ) (b'.ids.next κ) ∧
      Renumbers τ L { b with ids := b.ids.after κ } { b' with ids := b'.ids.after κ } := by
  let τ : Pairing := fun κ' n n' =>
    ρ κ' n n' ∨ κ' = κ ∧ n = b.ids.next κ ∧ n' = b'.ids.next κ
  have hle : ∀ κ n n', ρ κ n n' → τ κ n n' := fun _ _ _ hn => .inl hn
  refine ⟨τ, hle, .inr ⟨rfl, rfl, rfl⟩, ⟨h.actions.mono hle, ?_, ?_, ?_⟩⟩
  · exact h.blocks.imp fun _ _ hblk => hblk.mono hle
  · rintro κ' n n' (hn | ⟨rfl, rfl, rfl⟩)
    · obtain ⟨hlt, hlt'⟩ := h.given κ' n n' hn
      have hmono := Ids.next_mono (b.ids.le_after κ) κ'
      have hmono' := Ids.next_mono (b'.ids.le_after κ) κ'
      exact ⟨by dsimp only; omega, by dsimp only; omega⟩
    · exact ⟨by rw [Ids.next_after]; omega, by rw [Ids.next_after]; omega⟩
  · -- the new numbers are beyond all others
    rintro κ' n n' m m' (hn | ⟨rfl, rfl, rfl⟩) (hm | ⟨heq, rfl, rfl⟩)
    · exact h.oneToOne κ' n n' m m' hn hm
    · subst heq
      have hlt := h.given κ' n n' hn
      omega
    · have hlt := h.given κ' m m' hm
      omega
    · exact iff_of_true rfl rfl

end Renumbers

/-! ## Statements on two builders -/

/-- The same outcome, with builders that are the same but for numbers, also after an
error. -/
inductive Agree (L : Op → Prop) :
    EStateM.Result Error Builder Unit → EStateM.Result Error Builder Unit → Prop
  | ok {b b' : Builder} : Alike L b b' → Agree L (.ok () b) (.ok () b')
  | error {err : Error} {b b' : Builder} : Alike L b b' → Agree L (.error err b) (.error err b')

section Statements

variable {loc : Location} {expr : List Action}

/-- What holds no number, or is spelled out, still is so when it is folded. -/
theorem plain_foldAt (hexpr : ∀ a ∈ expr, L a.op) {e : List Action} (h : foldAt loc expr = .ok e) :
    ∀ a ∈ e, a.op.holdsNumber = false ∨ L a.op :=
  foldAt_keeps (P := fun acts => ∀ a ∈ acts, a.op.holdsNumber = false ∨ L a.op)
    (fun _ _ => by simp [Action.load, Action.plain, Op.holdsNumber]) (fun a ha => .inr (hexpr a ha)) h

theorem addResult_alike (h : Alike L b b') {acts : Except Error (List Action)}
    (hacts : ∀ as, acts = .ok as → ∀ a ∈ as, a.op.holdsNumber = false ∨ L a.op) :
    Agree L (addResult acts b) (addResult acts b') := by
  obtain ⟨ρ, hb⟩ := h
  unfold addResult
  cases acts with
  | error err => exact .error ⟨ρ, hb⟩
  | ok as => exact .ok ⟨ρ, hb.grow (.of_plain (hacts as rfl)) hb.blocks⟩

/-- A folded expression and an action without a number. -/
theorem addResult_fold_alike (h : Alike L b b') (hexpr : ∀ a ∈ expr, L a.op) {op : Op}
    (hop : op.holdsNumber = false) :
    let acts : Except Error (List Action) := do
      let e ← foldAt loc expr
      pure (e ++ [Action.plain loc op])
    Agree L (addResult acts b) (addResult acts b') := by
  intro acts
  refine addResult_alike h fun as has => ?_
  obtain ⟨e, hfold, has⟩ := except_bind_eq_ok.mp has
  cases has
  exact List.forall_mem_append.mpr
    ⟨plain_foldAt hexpr hfold, List.forall_mem_singleton.mpr (.inl hop)⟩

theorem addOp_alike (h : Alike L b b') {op : Op} (hop : op.holdsNumber = false) :
    Agree L (addOp loc op b) (addOp loc op b') := by
  obtain ⟨ρ, hb⟩ := h
  exact .ok ⟨ρ, hb.grow (.single loc (.plain hop)) hb.blocks⟩

/-- One action that is made of some results, and holds no number. -/
theorem addResult_single_alike (h : Alike L b b') {α : Type} {r : Except Error α} {op : α → Op}
    (hop : ∀ x, (op x).holdsNumber = false) :
    let acts : Except Error (List Action) := do
      let x ← r
      pure [Action.plain loc (op x)]
    Agree L (addResult acts b) (addResult acts b') := by
  intro acts
  refine addResult_alike h fun as has => ?_
  obtain ⟨x, -, has⟩ := except_bind_eq_ok.mp has
  cases has
  exact List.forall_mem_singleton.mpr (.inl (hop x))

theorem openIf_alike (h : Alike L b b') (hexpr : ∀ a ∈ expr, L a.op) :
    Agree L (openIf loc expr b) (openIf loc expr b') := by
  obtain ⟨ρ, hb⟩ := h
  obtain ⟨ρ₁, -, hexit, hb₁⟩ := hb.fresh .jump
  obtain ⟨ρ₂, hle, hnext, hb₂⟩ := hb₁.fresh .jump
  unfold openIf
  dsimp only
  cases hfold : foldAt loc expr with
  | error err => exact .error ⟨ρ₂, hb₂⟩
  | ok e =>
      refine .ok ⟨ρ₂, hb₂.grow ?_ (.cons (.condition (hle _ _ _ hexit) (.some hnext)) hb₂.blocks)⟩
      exact .append (.of_plain (plain_foldAt hexpr hfold)) (.single loc (.jumpIfFalse hnext))

theorem openWhile_alike (h : Alike L b b') (hexpr : ∀ a ∈ expr, L a.op) :
    Agree L (openWhile loc expr b) (openWhile loc expr b') := by
  obtain ⟨ρ, hb⟩ := h
  obtain ⟨ρ₁, -, hstart, hb₁⟩ := hb.fresh .jump
  obtain ⟨ρ₂, hle, hexit, hb₂⟩ := hb₁.fresh .jump
  have hstart := hle _ _ _ hstart
  unfold openWhile
  dsimp only
  cases hfold : foldAt loc expr with
  | error err => exact .error ⟨ρ₂, hb₂⟩
  | ok e =>
      refine .ok ⟨ρ₂, hb₂.grow ?_ (.cons (.loop hstart hexit) hb₂.blocks)⟩
      exact .append (.cons (.target hstart) (.of_plain (plain_foldAt hexpr hfold)))
        (.single loc (.jumpIfFalse hexit))

theorem openRepeat_alike (h : Alike L b b') (hexpr : ∀ a ∈ expr, L a.op) :
    Agree L (openRepeat loc expr b) (openRepeat loc expr b') := by
  obtain ⟨ρ, hb⟩ := h
  obtain ⟨ρ₁, -, hstart, hb₁⟩ := hb.fresh .jump
  obtain ⟨ρ₂, hle, hexit, hb₂⟩ := hb₁.fresh .jump
  obtain ⟨ρ₃, hle', hcounter, hb₃⟩ := hb₂.fresh .counter
  have hstart := hle' _ _ _ (hle _ _ _ hstart)
  have hexit := hle' _ _ _ hexit
  unfold openRepeat
  dsimp only
  cases hfold : foldAt loc expr with
  | error err => exact .error ⟨ρ₃, hb₃⟩
  | ok e =>
      refine .ok ⟨ρ₃, hb₃.grow ?_ (.cons (.repetition hstart hexit hcounter) hb₃.blocks)⟩
      exact .append (.of_plain (plain_foldAt hexpr hfold))
        (.cons (.counterSet hcounter) (.cons (.target hstart) (.single loc (.counterTest hcounter hexit))))

theorem elseIf_alike (h : Alike L b b') (hexpr : ∀ a ∈ expr, L a.op) :
    Agree L (elseIf loc expr b) (elseIf loc expr b') := by
  obtain ⟨ρ, hb⟩ := h
  obtain ⟨ids, actions, blocks⟩ := b
  obtain ⟨ids', actions', blocks'⟩ := b'
  obtain ⟨ρ₁, hle, hafter, hb₁⟩ := hb.fresh .jump
  have hblocks : List.Forall₂ (Block.Renumbers ρ L) blocks blocks' := hb.blocks
  unfold elseIf
  cases hblocks with
  | nil => exact .error ⟨ρ, hb⟩
  | cons hblk houter =>
      cases hblk with
      | condition hexit hnext =>
          cases hnext with
          | none => exact .error ⟨ρ, hb⟩
          | some hnext =>
              dsimp only
              cases hfold : foldAt loc expr with
              | error err => exact .error ⟨ρ, hb⟩
              | ok e =>
                  -- the pairing grows by the number drawn here, which keeps all pairs made before
                  have houter := houter.imp fun _ _ hblk => hblk.mono hle
                  have hexit := hle _ _ _ hexit
                  refine .ok ⟨ρ₁, hb₁.grow ?_ (.cons (.condition hexit (.some hafter)) houter)⟩
                  refine .append (.append ?_ (.of_plain (plain_foldAt hexpr hfold))) ?_
                  · exact .cons (.jump hexit) (.single loc (.target (hle _ _ _ hnext)))
                  · exact .single loc (.jumpIfFalse hafter)
      | _ => exact .error ⟨ρ, hb⟩

theorem otherwise_alike (h : Alike L b b') : Agree L (otherwise loc b) (otherwise loc b') := by
  obtain ⟨ρ, hb⟩ := h
  obtain ⟨ids, actions, blocks⟩ := b
  obtain ⟨ids', actions', blocks'⟩ := b'
  have hblocks : List.Forall₂ (Block.Renumbers ρ L) blocks blocks' := hb.blocks
  unfold otherwise
  cases hblocks with
  | nil => exact .error ⟨ρ, hb⟩
  | cons hblk houter =>
      cases hblk with
      | condition hexit hnext =>
          cases hnext with
          | none => exact .error ⟨ρ, hb⟩
          | some hnext =>
              refine .ok ⟨ρ, hb.grow ?_ (.cons (.condition hexit .none) houter)⟩
              exact .cons (.jump hexit) (.single loc (.target hnext))
      | _ => exact .error ⟨ρ, hb⟩

theorem failClose_alike (h : Alike L b b') {directive : String} :
    Agree L (failClose loc directive b) (failClose loc directive b') := by
  have hhead : b'.blocks.head?.map Block.kind = b.blocks.head?.map Block.kind := by
    obtain ⟨ρ, hb⟩ := h
    rw [← List.head?_map, ← List.head?_map, hb.kinds_eq]
  unfold failClose
  rw [hhead]
  exact .error h

theorem closeIf_alike (h : Alike L b b') : Agree L (closeIf loc b) (closeIf loc b') := by
  have hfail := @failClose_alike _ _ _ loc h ".ENDIF"
  obtain ⟨ρ, hb⟩ := h
  obtain ⟨ids, actions, blocks⟩ := b
  obtain ⟨ids', actions', blocks'⟩ := b'
  have hblocks : List.Forall₂ (Block.Renumbers ρ L) blocks blocks' := hb.blocks
  unfold closeIf
  cases hblocks with
  | nil => exact hfail
  | cons hblk houter =>
      cases hblk with
      | condition hexit hnext =>
          refine .ok ⟨ρ, hb.grow (.append ?_ (.single loc (.target hexit))) houter⟩
          cases hnext with
          | none => exact .nil
          | some hnext => exact .single loc (.target hnext)
      | _ => exact hfail

theorem closeRepeat_alike (h : Alike L b b') : Agree L (closeRepeat loc b) (closeRepeat loc b') := by
  have hfail := @failClose_alike _ _ _ loc h ".ENDREP"
  obtain ⟨ρ, hb⟩ := h
  obtain ⟨ids, actions, blocks⟩ := b
  obtain ⟨ids', actions', blocks'⟩ := b'
  have hblocks : List.Forall₂ (Block.Renumbers ρ L) blocks blocks' := hb.blocks
  unfold closeRepeat
  cases hblocks with
  | nil => exact hfail
  | cons hblk houter =>
      cases hblk with
      | repetition hstart hexit hcounter =>
          refine .ok ⟨ρ, hb.grow ?_ houter⟩
          exact .cons (.counterStep hcounter hstart) (.single loc (.target hexit))
      | _ => exact hfail

theorem closeWhile_alike (h : Alike L b b') : Agree L (closeWhile loc b) (closeWhile loc b') := by
  have hfail := @failClose_alike _ _ _ loc h ".ENDWHILE"
  obtain ⟨ρ, hb⟩ := h
  obtain ⟨ids, actions, blocks⟩ := b
  obtain ⟨ids', actions', blocks'⟩ := b'
  have hblocks : List.Forall₂ (Block.Renumbers ρ L) blocks blocks' := hb.blocks
  unfold closeWhile
  cases hblocks with
  | nil => exact hfail
  | cons hblk houter =>
      cases hblk with
      | loop hstart hexit =>
          refine .ok ⟨ρ, hb.grow ?_ houter⟩
          exact .cons (.jump hstart) (.single loc (.target hexit))
      | _ => exact hfail

theorem openMacro_alike (h : Alike L b b') {name : String} {params : List String} :
    Agree L (openMacro loc name params b) (openMacro loc name params b') := by
  obtain ⟨ρ, hb⟩ := h
  obtain ⟨ids, actions, blocks⟩ := b
  obtain ⟨ids', actions', blocks'⟩ := b'
  have hblocks : List.Forall₂ (Block.Renumbers ρ L) blocks blocks' := hb.blocks
  unfold openMacro
  cases hblocks with
  | nil =>
      exact .ok ⟨ρ, .nil, .cons (.definition hb.actions) .nil, hb.given, hb.oneToOne⟩
  | cons => exact .error ⟨ρ, hb⟩

theorem closeMacro_alike (h : Alike L b b') : Agree L (closeMacro loc b) (closeMacro loc b') := by
  have hfail := @failClose_alike _ _ _ loc h ".ENDMACRO"
  obtain ⟨ρ, hb⟩ := h
  obtain ⟨ids, actions, blocks⟩ := b
  obtain ⟨ids', actions', blocks'⟩ := b'
  have hblocks : List.Forall₂ (Block.Renumbers ρ L) blocks blocks' := hb.blocks
  unfold closeMacro
  cases hblocks with
  | nil => exact hfail
  | cons hblk houter =>
      cases hblk with
      | definition hbefore =>
          refine .ok ⟨ρ, ?_, houter, hb.given, hb.oneToOne⟩
          rw [add, add, Array.toList_appendList, Array.toList_appendList]
          exact hbefore.append (.single _ (.defineMacro hb.actions))
      | _ => exact hfail

/-- What is forbidden in a macro is so on both. -/
theorem outside_alike (h : Alike L b b') {m : BuilderM Unit} {err : Error}
    (hm : Agree L (m b) (m b')) :
    Agree L (if b.inMacro then .error err b else m b) (if b'.inMacro then .error err b' else m b') := by
  have hin : b.inMacro = b'.inMacro := by
    obtain ⟨ρ, hb⟩ := h
    exact inMacro_congr hb.kinds_eq
  rw [hin]
  split
  · exact .error h
  · exact hm

/-- A statement has the same outcome on builders that are the same but for numbers,
and they stay the same but for numbers. -/
theorem issue_alike (h : Alike L b b') {stmt : Statement}
    (hstmt : ∀ e ∈ stmt.exprs, ∀ a ∈ e, L a.op) : Agree L (issue loc stmt b) (issue loc stmt b') := by
  cases stmt with
  | assign name expr => exact addResult_fold_alike h (hstmt _ List.mem_cons_self) rfl
  | label | text | metaLabel | goto => exact addOp_alike h rfl
  | instruction mnemonic operand =>
      refine addResult_alike h fun as has => ?_
      split at has
      · rename_i acts hresolve
        cases has
        obtain ⟨e, op, hfold, hop, rfl⟩ := Operand.resolve_eq_ok hresolve
        have hexpr := hstmt _ List.mem_cons_self
        refine List.forall_mem_append.mpr ⟨?_, List.forall_mem_singleton.mpr (.inl ?_)⟩
        · have hfold : foldAt loc operand.expr = .ok e := by rw [foldAt, hfold]
          exact plain_foldAt hexpr hfold
        · cases hop <;> rfl
      · cases has
  | data word expr => exact addResult_fold_alike h (hstmt _ List.mem_cons_self) rfl
  | openIf cond => exact openIf_alike h (hstmt _ List.mem_cons_self)
  | elseIf cond => exact elseIf_alike h (hstmt _ List.mem_cons_self)
  | otherwise => exact otherwise_alike h
  | closeIf => exact closeIf_alike h
  | openRepeat count => exact openRepeat_alike h (hstmt _ List.mem_cons_self)
  | closeRepeat => exact closeRepeat_alike h
  | openWhile cond => exact openWhile_alike h (hstmt _ List.mem_cons_self)
  | closeWhile => exact closeWhile_alike h
  | openMacro => exact openMacro_alike h
  | closeMacro => exact closeMacro_alike h
  | call => exact outside_alike h (addResult_single_alike h fun _ => rfl)
  | message => exact addResult_single_alike h fun _ => rfl
  | includeSource => exact outside_alike h (addOp_alike h rfl)
  | includeBinary name skip length =>
      refine outside_alike h (addResult_alike h fun as has => ?_)
      obtain ⟨skip', -, has⟩ := except_bind_eq_ok.mp has
      obtain ⟨length', -, has⟩ := except_bind_eq_ok.mp has
      cases has
      exact List.forall_mem_singleton.mpr (.inl rfl)

end Statements

/-! ## Runs of statements -/

/-- The action is spelled out in an expression of the statements. -/
def SpelledOut (lines : List Line) (op : Op) : Prop :=
  ∃ l ∈ lines, ∃ e ∈ l.statement.exprs, ∃ a ∈ e, a.op = op

variable {l : Line} {lines : List Line}

theorem attempt_alike (h : Alike L b b') (hl : ∀ e ∈ l.statement.exprs, ∀ a ∈ e, L a.op) :
    (attempt l b').1 = (attempt l b).1 ∧ Alike L (attempt l b).2 (attempt l b').2 := by
  have hagree : Agree L (issue l.location l.statement b) (issue l.location l.statement b') :=
    issue_alike h hl
  unfold attempt
  cases hm : issue l.location l.statement b <;> cases hm' : issue l.location l.statement b' <;>
    rw [hm, hm'] at hagree <;> cases hagree <;> exact ⟨rfl, ‹_›⟩

theorem attemptAll_alike (h : Alike L b b')
    (hlines : ∀ l ∈ lines, ∀ e ∈ l.statement.exprs, ∀ a ∈ e, L a.op) :
    (attemptAll lines b').1 = (attemptAll lines b).1 ∧
      Alike L (attemptAll lines b).2 (attemptAll lines b').2 := by
  induction lines generalizing b b' with
  | nil => exact ⟨rfl, h⟩
  | cons l rest ih =>
      obtain ⟨hl, hrest⟩ := List.forall_mem_cons.mp hlines
      obtain ⟨houtcome, hnext⟩ := attempt_alike h hl
      obtain ⟨houtcomes, hlast⟩ := ih hnext hrest
      exact ⟨congrArg₂ List.cons houtcome houtcomes, hlast⟩

/-- Without the statements that fail, all others succeed, and the builder is the same
but for numbers. -/
theorem kept_alike (h : Alike L b b')
    (hlines : ∀ l ∈ lines, ∀ e ∈ l.statement.exprs, ∀ a ∈ e, L a.op) :
    (∀ outcome ∈ (attemptAll (kept lines b) b').1, outcome = .ok ()) ∧
      Alike L (attemptAll lines b).2 (attemptAll (kept lines b) b').2 := by
  induction lines generalizing b b' with
  | nil => exact ⟨nofun, h⟩
  | cons l rest ih =>
      obtain ⟨hl, hrest⟩ := List.forall_mem_cons.mp hlines
      cases hissue : issue l.location l.statement b with
      | ok u c =>
          have hfirst : attempt l b = (.ok (), c) := by rw [attempt, hissue]
          have hkept : kept (l :: rest) b = l :: kept rest c := by rw [kept, hissue]
          obtain ⟨houtcome, hnext⟩ := attempt_alike h hl
          rw [hfirst] at houtcome hnext
          obtain ⟨houtcomes, hlast⟩ := ih hnext hrest
          rw [hkept]
          refine ⟨List.forall_mem_cons.mpr ⟨houtcome, houtcomes⟩, ?_⟩
          simpa only [attemptAll, hfirst] using hlast
      | error err c =>
          have hfirst : attempt l b = (.error err, c) := by rw [attempt, hissue]
          have hkept : kept (l :: rest) b = kept rest c := by rw [kept, hissue]
          obtain ⟨ρ, hb⟩ := h
          -- a refused statement is dropped: at most it drew numbers, which the pairing skips
          obtain ⟨houtcomes, hlast⟩ := ih ⟨ρ, hb.of_later (issue_refused hissue)⟩ hrest
          rw [hkept]
          refine ⟨houtcomes, ?_⟩
          simpa only [attemptAll, hfirst] using hlast

/-- What is put together in the end is the same but for numbers, or cannot be finished
for the same reason. -/
theorem finish_alike (h : Alike L b b') :
    (∀ err, b.finish = .error err ↔ b'.finish = .error err) ∧
      ∀ acts, b.finish = .ok acts → ∃ acts' ρ, b'.finish = .ok acts' ∧ Pairing.OneToOne ρ ∧
        Renumbered ρ L acts acts' := by
  obtain ⟨ρ, hb⟩ := h
  obtain ⟨ids, actions, blocks⟩ := b
  obtain ⟨ids', actions', blocks'⟩ := b'
  have hblocks : List.Forall₂ (Block.Renumbers ρ L) blocks blocks' := hb.blocks
  unfold finish
  cases hblocks with
  | nil =>
      refine ⟨fun err => iff_of_false nofun nofun, fun acts hacts => ?_⟩
      cases hacts
      exact ⟨_, ρ, rfl, hb.oneToOne, hb.actions⟩
  | cons hblk _ =>
      -- the innermost open block is reported by its kind and its place, which agree
      refine ⟨fun err => ?_, nofun⟩
      dsimp only
      rw [hblk.kind_eq, hblk.location_eq]

/-- A statement that fails leaves the actions and the open blocks as they were.  So
with all statements left out that fail, the others succeed; whatever comes later
succeeds or fails as it does after all of them, with the same errors; and the lowered
program is the same but for the numbers of jumps and counters, or fails to be finished
with the same error. -/
theorem refused_without_trace :
    (∀ (b b' : Builder) (loc : Location) (stmt : Statement) (err : Error),
        issue loc stmt b = .error err b' → b'.actions = b.actions ∧ b'.blocks = b.blocks) ∧
      ∀ (ids : Ids) (lines later : List Line),
        let full := (attemptAll lines { ids := ids }).2
        let thin := attemptAll (kept lines { ids := ids }) { ids := ids }
        (∀ outcome ∈ thin.1, outcome = .ok ()) ∧
          (attemptAll later thin.2).1 = (attemptAll later full).1 ∧
          (∀ err, (attemptAll later full).2.finish = .error err ↔
            (attemptAll later thin.2).2.finish = .error err) ∧
          ∀ acts, (attemptAll later full).2.finish = .ok acts →
            ∃ acts' ρ, (attemptAll later thin.2).2.finish = .ok acts' ∧ Pairing.OneToOne ρ ∧
              Renumbered ρ (SpelledOut (lines ++ later)) acts acts' := by
  refine ⟨fun b b' loc stmt err h => (issue_refused h).2, fun ids lines later => ?_⟩
  have hspelled : ∀ l ∈ lines ++ later, ∀ e ∈ l.statement.exprs, ∀ a ∈ e,
      SpelledOut (lines ++ later) a.op := fun l hl e he a ha => ⟨l, hl, e, he, a, ha, rfl⟩
  obtain ⟨hlines, hlater⟩ := List.forall_mem_append.mp hspelled
  -- empty builders are alike under the empty pairing
  have hstart : Alike (SpelledOut (lines ++ later)) { ids := ids } { ids := ids } :=
    ⟨fun _ _ _ => False, .nil, .nil, fun _ _ _ h => h.elim, fun _ _ _ _ _ h => h.elim⟩
  obtain ⟨hall, hkept⟩ := kept_alike hstart hlines
  obtain ⟨houtcomes, hlast⟩ := attemptAll_alike hkept hlater
  exact ⟨hall, houtcomes, finish_alike hlast⟩

/-- Closes a loop that is not open, divides by zero inside a condition, and opens the
last branch twice. -/
def mistaken : List Line :=
  [⟨⟨"", 1⟩, .closeRepeat⟩, ⟨⟨"", 2⟩, .openIf [.load ⟨"", 2⟩ 1]⟩,
    ⟨⟨"", 3⟩, .openRepeat [.load ⟨"", 3⟩ 1, .load ⟨"", 3⟩ 0, .plain ⟨"", 3⟩ (.binary .div)]⟩,
    ⟨⟨"", 4⟩, .otherwise⟩, ⟨⟨"", 5⟩, .otherwise⟩]

theorem refused_without_trace_mistaken :
    let later : List Line := [⟨⟨"", 6⟩, .closeWhile⟩, ⟨⟨"", 7⟩, .openWhile []⟩,
      ⟨⟨"", 8⟩, .closeWhile⟩, ⟨⟨"", 9⟩, .closeIf⟩]
    let full := (attemptAll mistaken {}).2
    let thin := (attemptAll (kept mistaken {}) {}).2
    (kept mistaken {}).map Line.location = [⟨"", 2⟩, ⟨"", 4⟩] ∧ thin.ids.jump < full.ids.jump ∧
      (∃ err b', issue ⟨"", 5⟩ .otherwise full = .error err b' ∧
        b'.actions = full.actions ∧ b'.blocks = full.blocks) ∧
      (attemptAll later thin).1 = (attemptAll later full).1 ∧
      ∃ acts acts' ρ, (attemptAll later full).2.finish = .ok acts ∧
        (attemptAll later thin).2.finish = .ok acts' ∧ Pairing.OneToOne ρ ∧
        Renumbered ρ (SpelledOut (mistaken ++ later)) acts acts' := by
  intro later full thin
  obtain ⟨hrefused, hdropped⟩ := refused_without_trace
  obtain ⟨-, houtcomes, -, hfinish⟩ := hdropped {} mistaken later
  have herror : ∃ err b', issue ⟨"", 5⟩ .otherwise full = .error err b' := ⟨_, _, rfl⟩
  obtain ⟨err, b', herror⟩ := herror
  have hfinished : ∃ acts, (attemptAll later full).2.finish = .ok acts := ⟨_, rfl⟩
  obtain ⟨acts, hacts⟩ := hfinished
  obtain ⟨acts', ρ, hacts', hρ, hrenumbered⟩ := hfinish acts hacts
  refine ⟨by decide, by decide, ⟨err, b', herror, hrefused _ _ _ _ _ herror⟩, houtcomes, ?_⟩
  exact ⟨acts, acts', ρ, hacts, hacts', hρ, hrenumbered⟩

end Builder

end Mos6510
