import Mos6510.Proofs.Restage

/-!
# Lowering the same lines from other numbers

Lines that differ in locations, and in the names of binary files, are lowered
alike wherever the numbers start.

* `Statement.Alike`: two statements are the same but for these;
* `foldConstant_alike`, `Operand.resolve_alike`: folding and encoding do not look
  at locations;
* `Builder.issue_mirrors`: a line that can be lowered on one builder can be on
  any that mirrors it, and the builders then still mirror each other;
* `Builder.issueAll_alike`: so lines outside all blocks become actions that
  match.
-/

namespace Mos6510

open Outcome

/-! ## Lines that say the same -/

/-- Two arguments of a message that are the same but for locations. -/
inductive MessageArg.Alike : MessageArg → MessageArg → Prop
  | text (s : String) : MessageArg.Alike (.text s) (.text s)
  | expr {e e' : List Action} : opsOf e = opsOf e' → MessageArg.Alike (.expr e) (.expr e')

/-- Two operands that are the same but for locations. -/
structure Operand.Alike (o o' : Operand) : Prop where
  form : o.form = o'.form
  index : o.index = o'.index
  expr : opsOf o.expr = opsOf o'.expr

/-- Two statements that are the same but for locations, and for names of binary
files that `β` says stand for one.  Neither includes source. -/
inductive Statement.Alike (β : String → String → Prop) : Statement → Statement → Prop
  | assign {name : String} {e e' : List Action} :
      opsOf e = opsOf e' → Statement.Alike β (.assign name e) (.assign name e')
  | label {name : String} : Statement.Alike β (.label name) (.label name)
  | instruction {mnemonic : String} {o o' : Operand} :
      o.Alike o' → Statement.Alike β (.instruction mnemonic o) (.instruction mnemonic o')
  | data {word : Bool} {e e' : List Action} :
      opsOf e = opsOf e' → Statement.Alike β (.data word e) (.data word e')
  | text {word : Bool} {bytes : List UInt8} : Statement.Alike β (.text word bytes) (.text word bytes)
  | openIf {e e' : List Action} :
      opsOf e = opsOf e' → Statement.Alike β (.openIf e) (.openIf e')
  | elseIf {e e' : List Action} :
      opsOf e = opsOf e' → Statement.Alike β (.elseIf e) (.elseIf e')
  | otherwise : Statement.Alike β .otherwise .otherwise
  | closeIf : Statement.Alike β .closeIf .closeIf
  | openRepeat {e e' : List Action} :
      opsOf e = opsOf e' → Statement.Alike β (.openRepeat e) (.openRepeat e')
  | closeRepeat : Statement.Alike β .closeRepeat .closeRepeat
  | openWhile {e e' : List Action} :
      opsOf e = opsOf e' → Statement.Alike β (.openWhile e) (.openWhile e')
  | closeWhile : Statement.Alike β .closeWhile .closeWhile
  | openMacro {name : String} {params : List String} :
      Statement.Alike β (.openMacro name params) (.openMacro name params)
  | closeMacro : Statement.Alike β .closeMacro .closeMacro
  | call {name : String} {args args' : List (List Action)} :
      args.map opsOf = args'.map opsOf → Statement.Alike β (.call name args) (.call name args')
  | metaLabel {name : String} : Statement.Alike β (.metaLabel name) (.metaLabel name)
  | goto {name : String} : Statement.Alike β (.goto name) (.goto name)
  | message {level : Level} {formatted : Bool} {args args' : List MessageArg} :
      List.Forall₂ MessageArg.Alike args args' →
        Statement.Alike β (.message level formatted args) (.message level formatted args')
  | includeBinary {name name' : String} {skip skip' length length' : List Action} :
      β name name' → opsOf skip = opsOf skip' → opsOf length = opsOf length' →
        Statement.Alike β (.includeBinary name skip length) (.includeBinary name' skip' length')

/-- Two lines that are the same but for locations and names of binary files. -/
def Line.Alike (β : Location → Location → String → String → Prop) (l l' : Line) : Prop :=
  l.statement.Alike (β l.location l'.location) l'.statement

/-! ## Folding -/

section Folding

variable {expr expr' : List Action}

theorem isConstantExpr_congr (h : opsOf expr = opsOf expr') :
    isConstantExpr expr = isConstantExpr expr' := by
  have hall : ∀ acts : List Action, isConstantExpr acts =
      (!(opsOf acts).isEmpty && (opsOf acts).all Op.isConstant) := by
    intro acts
    rw [isConstantExpr, opsOf, List.isEmpty_map, List.all_map]
    rfl
  rw [hall, hall, h]

theorem computes_of_isConstantExpr (h : isConstantExpr expr = true) : Computes expr := by
  rw [isConstantExpr, Bool.and_eq_true, List.all_eq_true] at h
  intro a ha
  have hop := h.2 a ha
  generalize a.op = op at hop
  cases op <;> first | rfl | cases hop

/-- No numbers are paired, where there are none. -/
def noNumbers : Pairing := fun _ _ _ => False

/-- The value of a constant expression depends on what its actions do. -/
theorem constantValue?_congr (h : opsOf expr = opsOf expr') {v : Option Int64}
    (hv : constantValue? expr = .ok v) : constantValue? expr' = .ok v := by
  have hconstant := isConstantExpr_congr h
  cases expr with
  | nil =>
      obtain rfl : expr' = [] := List.map_eq_nil_iff.mp h.symm
      exact hv
  | cons a rest =>
      obtain ⟨a', rest', rfl, -, -⟩ := List.map_eq_cons_iff.mp h.symm
      unfold constantValue? at hv ⊢
      dsimp only at hv ⊢
      rw [← hconstant]
      split at hv
      · rename_i hcase
        rw [if_pos hcase]
        -- evaluation goes by the operations alone, and starts from an empty engine in both
        have hmimics : Mimics (Engine.Mirrors noNumbers) (runEach (a :: rest) >>= fun _ => Engine.pop)
            (runEach (a' :: rest') >>= fun _ => Engine.pop) :=
          (runEach_mimics (computes_of_isConstantExpr hcase) h).bind fun _ => pop_mimics
        have hstart : Engine.Mirrors noNumbers {} {} := ⟨rfl, .inl ⟨rfl, rfl⟩, fun _ _ h => h.elim⟩
        split at hv
        · cases hv
        · rename_i w d hrun
          obtain ⟨d', hrun', hd⟩ := hmimics hstart hrun
          have hevaluate : evaluate (a' :: rest') {} = .ok w d' := hrun'
          rw [hevaluate]
          dsimp only
          rw [← hd.stack]
          split at hv
          · rename_i hdepth
            rw [if_pos hdepth]
            exact hv
          · cases hv
      · rename_i hcase
        rw [if_neg hcase]
        exact hv

/-- So does what it is folded to. -/
theorem foldConstant_alike (h : opsOf expr = opsOf expr') {lowered : List Action}
    (hfold : foldConstant expr = .ok lowered) :
    ∃ lowered', foldConstant expr' = .ok lowered' ∧ opsOf lowered = opsOf lowered' := by
  cases expr with
  | nil =>
      obtain rfl : expr' = [] := List.map_eq_nil_iff.mp h.symm
      exact ⟨lowered, hfold, rfl⟩
  | cons a rest =>
      obtain ⟨a', rest', rfl, hop, hrest⟩ := List.map_eq_cons_iff.mp h.symm
      unfold foldConstant at hfold ⊢
      dsimp only at hfold ⊢
      cases hv : constantValue? (a :: rest) with
      | error err =>
          simp only [hv] at hfold
          cases hfold
      | ok v =>
          rw [constantValue?_congr h hv]
          simp only [hv] at hfold
          cases v with
          -- the operations decide whether the expression is constant, and its value
          | none =>
              cases hfold
              exact ⟨_, rfl, h⟩
          | some v =>
              cases hfold
              exact ⟨_, rfl, rfl⟩

/-- An instruction is encoded the same way wherever it stands. -/
theorem Operand.resolve_alike {o o' : Operand} (h : o.Alike o') {loc : Location} (loc' : Location)
    {mnemonic : String} {acts : List Action} (hresolve : o.resolve loc mnemonic = .ok acts) :
    ∃ acts', o'.resolve loc' mnemonic = .ok acts' ∧ opsOf acts = opsOf acts' := by
  have hfixed : ∀ {m : Mnemonic} {expr expr' acts : List Action} {mode : Mode},
      opsOf expr = opsOf expr' → fixed loc m expr mode = .ok acts →
        ∃ acts', fixed loc' m expr' mode = .ok acts' ∧ opsOf acts = opsOf acts' := by
    intro m expr expr' acts mode hexpr h
    unfold fixed at h ⊢
    split at h
    · cases h
      exact ⟨_, rfl, by rw [opsOf_append, opsOf_append, hexpr]; rfl⟩
    · cases h
  -- the mode is chosen by the constant value, if there is one, which is the same for both
  have hdirect : ∀ {m : Mnemonic} {index : Index} {expr expr' acts : List Action},
      opsOf expr = opsOf expr' → direct loc m index expr = .ok acts →
        ∃ acts', direct loc' m index expr' = .ok acts' ∧ opsOf acts = opsOf acts' := by
    intro m index expr expr' acts hexpr h
    unfold direct at h ⊢
    dsimp only at h ⊢
    split at h
    · cases h
    · rename_i hcase
      rw [if_neg hcase]
      cases hv : constantValue? expr with
      | error err =>
          simp only [hv] at h
          cases h
      | ok v =>
          rw [constantValue?_congr hexpr hv]
          simp only [hv] at h
          cases v with
          | some v =>
              dsimp only at h ⊢
              split at h
              · rename_i hshort
                rw [if_pos hshort]
                exact hfixed hexpr h
              · rename_i hshort
                rw [if_neg hshort]
                exact hfixed hexpr h
          | none =>
              dsimp only at h ⊢
              split at h
              · rename_i hboth
                rw [if_pos hboth]
                cases h
                exact ⟨_, rfl, by rw [opsOf_append, opsOf_append, hexpr]; rfl⟩
              · rename_i hboth
                rw [if_neg hboth]
                split at h
                · rename_i hshort
                  rw [if_pos hshort]
                  exact hfixed hexpr h
                · rename_i hshort
                  rw [if_neg hshort]
                  exact hfixed hexpr h
  unfold resolve at hresolve ⊢
  split at hresolve
  · cases hresolve
  · cases hfold : foldConstant o.expr with
    | error err =>
        simp only [hfold] at hresolve
        cases hresolve
    | ok expr =>
        obtain ⟨expr', hfold', hexpr⟩ := foldConstant_alike h.expr hfold
        simp only [hfold, hfold'] at hresolve ⊢
        rw [← h.form, ← h.index]
        split at hresolve
        · exact hfixed hexpr hresolve
        · split at hresolve
          · rename_i hbranch
            rw [if_pos hbranch]
            split at hresolve
            · rename_i hindex
              rw [if_pos hindex]
              exact hfixed hexpr hresolve
            · cases hresolve
          · rename_i hbranch
            rw [if_neg hbranch]
            exact hdirect hexpr hresolve

end Folding

/-! ## Builders -/

namespace Pairing

/-- What follows two numbers that are paired is paired. -/
def Successive (ρ : Pairing) : Prop := ∀ κ n n', ρ κ n n' → ρ κ (n + 1) (n' + 1)

/-- Numbers are paired that are as far from `i` as from `i'`. -/
def shift (i i' : Ids) : Pairing := fun κ n n' => n - i.next κ = n' - i'.next κ ∧ i.next κ ≤ n

theorem shift_successive (i i' : Ids) : (shift i i').Successive := by
  rintro κ n n' ⟨hn, hle⟩
  exact ⟨by omega, by omega⟩

theorem shift_functional (i i' : Ids) : (shift i i').Functional := by
  rintro κ n m m' ⟨hm, -⟩ ⟨hm', -⟩
  omega

theorem shift_self (i i' : Ids) (κ : Numbered) : shift i i' κ (i.next κ) (i'.next κ) :=
  ⟨by omega, le_rfl⟩

end Pairing

/-- Two open blocks with paired numbers; what was set aside for a macro is related
by `O`. -/
inductive Block.Mirrors (ρ : Pairing) (O : Array Action → Array Action → Prop) :
    Block → Block → Prop
  | condition {loc loc' : Location} {exit exit' : Nat} {next next' : Option Nat} :
      ρ .jump exit exit' → Option.Rel (fun n n' : Nat => ρ .jump n n') next next' →
        Block.Mirrors ρ O (.condition loc exit next) (.condition loc' exit' next')
  | repetition {loc loc' : Location} {start start' exit exit' counter counter' : Nat} :
      ρ .jump start start' → ρ .jump exit exit' → ρ .counter counter counter' →
        Block.Mirrors ρ O (.repetition loc start exit counter)
          (.repetition loc' start' exit' counter')
  | loop {loc loc' : Location} {start start' exit exit' : Nat} :
      ρ .jump start start' → ρ .jump exit exit' →
        Block.Mirrors ρ O (.loop loc start exit) (.loop loc' start' exit')
  | definition {loc loc' : Location} {name : String} {params : List String}
      {outer outer' : Array Action} :
      O outer outer' →
        Block.Mirrors ρ O (.definition loc name params outer) (.definition loc' name params outer')

section Build

variable (ρ : Pairing) (β : Location → Location → String → String → Prop)
  (pre pre' : List Action)

/-- After what was there before, the actions match. -/
def Grown (acts acts' : Array Action) : Prop :=
  ∃ new new', acts.toList = pre ++ new ∧ acts'.toList = pre' ++ new' ∧ Matched ρ β new new'

/-- Two builders that go on in the same way: the next numbers are paired, so are the
numbers of open blocks, and the actions match. -/
structure Builder.Mirrors (b b' : Builder) : Prop where
  next : ∀ κ, ρ κ (b.ids.next κ) (b'.ids.next κ)
  blocks : List.Forall₂ (Block.Mirrors ρ (Grown ρ β pre pre')) b.blocks b'.blocks
  outside : b.inMacro = false → Grown ρ β pre pre' b.actions b'.actions
  inside : b.inMacro = true → Mirrored ρ b.actions.toList b'.actions.toList

end Build

variable {ρ : Pairing} {β : Location → Location → String → String → Prop}
  {pre pre' acts acts' : List Action} {b b₁ b' : Builder}

theorem Grown.add {before before' : Array Action} (h : Grown ρ β pre pre' before before')
    (hacts : Matched ρ β acts acts') :
    Grown ρ β pre pre' (before ++ acts) (before' ++ acts') := by
  obtain ⟨new, new', hnew, hnew', hmatched⟩ := h
  refine ⟨new ++ acts, new' ++ acts', ?_, ?_, hmatched.append hacts⟩
  · rw [Array.toList_appendList, hnew, List.append_assoc]
  · rw [Array.toList_appendList, hnew', List.append_assoc]

namespace Builder

theorem inMacro_congr (h : b.blocks.map Block.kind = b'.blocks.map Block.kind) :
    b.inMacro = b'.inMacro := by
  have hany : ∀ b : Builder, b.inMacro = (b.blocks.map Block.kind).any (· == .definition) := by
    intro b
    rw [inMacro, List.any_map]
    rfl
  rw [hany, hany, h]

namespace Mirrors

theorem inMacro_eq (h : Mirrors ρ β pre pre' b b') : b.inMacro = b'.inMacro := by
  refine inMacro_congr ?_
  have hblocks := h.blocks
  generalize b.blocks = blocks at hblocks
  generalize b'.blocks = blocks' at hblocks
  induction hblocks with
  | nil => rfl
  | cons hblk _ ih =>
      rw [List.map_cons, List.map_cons, ih]
      cases hblk <;> rfl

/-- More actions, other numbers and other open blocks. -/
theorem change (h : Mirrors ρ β pre pre' b b') {ids ids' : Ids} {blocks blocks' : List Block}
    (hnext : ∀ κ, ρ κ (ids.next κ) (ids'.next κ))
    (hblocks : List.Forall₂ (Block.Mirrors ρ (Grown ρ β pre pre')) blocks blocks')
    (hwithin : (blocks.any fun blk => blk.kind == .definition) = b.inMacro)
    (hacts : Mirrored ρ acts acts') :
    Mirrors ρ β pre pre' ⟨ids, b.actions ++ acts, blocks⟩ ⟨ids', b'.actions ++ acts', blocks'⟩ where
  next := hnext
  blocks := hblocks
  outside hout := (h.outside (hwithin.symm.trans hout)).add (.of_mirrored hacts)
  inside hin := by
    rw [Array.toList_appendList, Array.toList_appendList]
    exact (h.inside (hwithin.symm.trans hin)).append hacts

/-- More actions. -/
theorem add (h : Mirrors ρ β pre pre' b b') (hacts : Mirrored ρ acts acts') :
    Mirrors ρ β pre pre' (b.add acts) (b'.add acts') :=
  h.change h.next h.blocks rfl hacts

/-- More actions that are allowed outside macros only. -/
theorem add_outside (h : Mirrors ρ β pre pre' b b') (hout : b.inMacro = false)
    (hacts : Matched ρ β acts acts') : Mirrors ρ β pre pre' (b.add acts) (b'.add acts') where
  next := h.next
  blocks := h.blocks
  outside _ := (h.outside hout).add hacts
  inside hin := by
    have : b.inMacro = true := hin
    rw [hout] at this
    cases this

theorem jump (h : Mirrors ρ β pre pre' b b') (hρ : ρ.Successive) (n : Nat) :
    ρ .jump (b.ids.jump + n : Nat) (b'.ids.jump + n : Nat) := by
  induction n with
  | zero => exact h.next .jump
  | succ n ih =>
      rw [← Nat.add_assoc, ← Nat.add_assoc, Int.natCast_add _ 1, Int.natCast_add _ 1]
      exact hρ _ _ _ ih

theorem counter (h : Mirrors ρ β pre pre' b b') (hρ : ρ.Successive) (n : Nat) :
    ρ .counter (b.ids.counter + n : Nat) (b'.ids.counter + n : Nat) := by
  induction n with
  | zero => exact h.next .counter
  | succ n ih =>
      rw [← Nat.add_assoc, ← Nat.add_assoc, Int.natCast_add _ 1, Int.natCast_add _ 1]
      exact hρ _ _ _ ih

end Mirrors

/-! ## Statements -/

theorem foldAt_alike {loc : Location} (loc' : Location) {expr expr' lowered : List Action}
    (h : opsOf expr = opsOf expr') (hcomputes : Computes expr)
    (hfold : foldAt loc expr = .ok lowered) :
    ∃ lowered', foldAt loc' expr' = .ok lowered' ∧ opsOf lowered = opsOf lowered' ∧
      ∀ {ρ}, Mirrored ρ lowered lowered' := by
  have hconstant := foldAt_eq_ok hfold
  obtain ⟨lowered', hfold', hops⟩ := foldConstant_alike h hconstant
  refine ⟨lowered', by rw [foldAt, hfold'], hops, .of_opsOf hops fun a ha => ?_⟩
  exact Op.isPlain_of_computes (hcomputes.foldConstant hconstant a ha)

theorem foldAllAt_alike {loc : Location} (loc' : Location) {args args' lowered : List (List Action)}
    (h : args.map opsOf = args'.map opsOf) (hcomputes : ∀ arg ∈ args, Computes arg)
    (hfold : foldAllAt loc args = .ok lowered) :
    ∃ lowered', foldAllAt loc' args' = .ok lowered' ∧ lowered.map opsOf = lowered'.map opsOf := by
  induction args generalizing args' lowered with
  | nil =>
      obtain rfl : args' = [] := List.map_eq_nil_iff.mp h.symm
      exact ⟨lowered, hfold, rfl⟩
  | cons arg rest ih =>
      obtain ⟨arg', rest', rfl, hops, hrest⟩ := List.map_eq_cons_iff.mp h.symm
      obtain ⟨hcarg, hcrest⟩ := List.forall_mem_cons.mp hcomputes
      obtain ⟨e, he, hfold⟩ := except_bind_eq_ok.mp hfold
      obtain ⟨es, hes, hfold⟩ := except_bind_eq_ok.mp hfold
      cases hfold
      obtain ⟨e', he', hsame, -⟩ := foldAt_alike loc' hops.symm hcarg he
      obtain ⟨es', hes', hsames⟩ := ih hrest.symm hcrest hes
      refine ⟨e' :: es', ?_, by rw [List.map_cons, List.map_cons, hsame, hsames]⟩
      exact except_bind_eq_ok.mpr ⟨e', he', except_bind_eq_ok.mpr ⟨es', hes', rfl⟩⟩

theorem messageArgs_alike {loc : Location} (loc' : Location) {args args' : List MessageArg}
    {lowered : List (List Action)} (h : List.Forall₂ MessageArg.Alike args args')
    (hcomputes : ∀ arg ∈ args, ∀ e ∈ arg.exprs, Computes e)
    (hargs : messageArgs loc args = .ok lowered) :
    ∃ lowered', messageArgs loc' args' = .ok lowered' ∧ lowered.map opsOf = lowered'.map opsOf := by
  induction h generalizing lowered with
  | nil => exact ⟨lowered, hargs, rfl⟩
  | @cons arg arg' rest rest' harg _ ih =>
      obtain ⟨hcarg, hcrest⟩ := List.forall_mem_cons.mp hcomputes
      obtain ⟨e, he, hfold⟩ := except_bind_eq_ok.mp hargs
      obtain ⟨es, hes, hfold⟩ := except_bind_eq_ok.mp hfold
      cases hfold
      obtain ⟨e', he', hsame⟩ : ∃ e', messageArg loc' arg' = .ok e' ∧ opsOf e = opsOf e' := by
        cases harg with
        | text s =>
            cases he
            exact ⟨_, rfl, rfl⟩
        | expr hops =>
            obtain ⟨e', he', hsame, -⟩ := foldAt_alike loc' hops
              (hcarg _ List.mem_cons_self) he
            exact ⟨e', he', hsame⟩
      obtain ⟨es', hes', hsames⟩ := ih hcrest hes
      refine ⟨e' :: es', ?_, by rw [List.map_cons, List.map_cons, hsame, hsames]⟩
      exact except_bind_eq_ok.mpr ⟨e', he', except_bind_eq_ok.mpr ⟨es', hes', rfl⟩⟩

section Issue

variable {u : Unit}

/-- A result is added where the same can be added. -/
theorem addResult_mirrors (h : Mirrors ρ β pre pre' b b') {r r' : Except Error (List Action)}
    (hr : ∀ as, r = .ok as → ∃ as', r' = .ok as' ∧
      (Mirrored ρ as as' ∨ b.inMacro = false ∧ Matched ρ β as as'))
    (hadd : addResult r b = .ok u b₁) :
    ∃ b₁', addResult r' b' = .ok u b₁' ∧ Mirrors ρ β pre pre' b₁ b₁' := by
  obtain ⟨as, has, rfl⟩ := addResult_eq_ok hadd
  obtain ⟨as', rfl, hacts⟩ := hr as has
  refine ⟨b'.add as', rfl, ?_⟩
  rcases hacts with hacts | ⟨hout, hacts⟩
  · exact h.add hacts
  · exact h.add_outside hout hacts

/-- A folded expression and an action that takes its value. -/
theorem fold_mirrored {loc loc' : Location} {expr expr' : List Action} {op : Op}
    (hops : opsOf expr = opsOf expr') (hcomputes : Computes expr) (hop : op.isPlain = true) :
    ∀ as, (do let e ← foldAt loc expr; pure (e ++ [Action.plain loc op])) = .ok as →
      ∃ as', (do let e ← foldAt loc' expr'; pure (e ++ [Action.plain loc' op])) = .ok as' ∧
        (Mirrored ρ as as' ∨ b.inMacro = false ∧ Matched ρ β as as') := by
  intro as has
  obtain ⟨e, hfold, has⟩ := except_bind_eq_ok.mp has
  cases has
  obtain ⟨e', hfold', -, hmirrored⟩ := foldAt_alike loc' hops hcomputes hfold
  exact ⟨_, except_bind_eq_ok.mpr ⟨e', hfold', rfl⟩, .inl (hmirrored.append (.cons (.plain hop) .nil))⟩

variable (hρ : ρ.Successive) {loc loc' : Location} {expr expr' : List Action}
  (h : Mirrors ρ β pre pre' b b')

include hρ h

theorem openIf_mirrors (hops : opsOf expr = opsOf expr') (hcomputes : Computes expr)
    (hissue : openIf loc expr b = .ok u b₁) :
    ∃ b₁', openIf loc' expr' b' = .ok u b₁' ∧ Mirrors ρ β pre pre' b₁ b₁' := by
  unfold openIf at hissue ⊢
  dsimp only at hissue ⊢
  split at hissue
  · cases hissue
  · rename_i test hfold
    cases hissue
    obtain ⟨test', hfold', -, hmirrored⟩ := foldAt_alike loc' hops hcomputes hfold
    simp only [hfold']
    refine ⟨_, rfl, h.change ?_ (.cons (.condition (h.jump hρ 0) (.some (h.jump hρ 1))) h.blocks) rfl
      (hmirrored.append (.cons (.jumpIfFalse (h.jump hρ 1)) .nil))⟩
    rintro (_ | _)
    · exact h.jump hρ 2
    · exact h.counter hρ 0

theorem openRepeat_mirrors (hops : opsOf expr = opsOf expr') (hcomputes : Computes expr)
    (hissue : openRepeat loc expr b = .ok u b₁) :
    ∃ b₁', openRepeat loc' expr' b' = .ok u b₁' ∧ Mirrors ρ β pre pre' b₁ b₁' := by
  unfold openRepeat at hissue ⊢
  dsimp only at hissue ⊢
  split at hissue
  · cases hissue
  · rename_i count hfold
    cases hissue
    obtain ⟨count', hfold', -, hmirrored⟩ := foldAt_alike loc' hops hcomputes hfold
    simp only [hfold']
    refine ⟨_, rfl, h.change ?_ (.cons (.repetition (h.jump hρ 0) (h.jump hρ 1) (h.counter hρ 0))
      h.blocks) rfl (hmirrored.append (.cons (.counterSet (h.counter hρ 0)) (.cons
        (.target (h.jump hρ 0)) (.cons (.counterTest (h.counter hρ 0) (h.jump hρ 1)) .nil))))⟩
    rintro (_ | _)
    · exact h.jump hρ 2
    · exact h.counter hρ 1

theorem openWhile_mirrors (hops : opsOf expr = opsOf expr') (hcomputes : Computes expr)
    (hissue : openWhile loc expr b = .ok u b₁) :
    ∃ b₁', openWhile loc' expr' b' = .ok u b₁' ∧ Mirrors ρ β pre pre' b₁ b₁' := by
  unfold openWhile at hissue ⊢
  dsimp only at hissue ⊢
  split at hissue
  · cases hissue
  · rename_i test hfold
    cases hissue
    obtain ⟨test', hfold', -, hmirrored⟩ := foldAt_alike loc' hops hcomputes hfold
    simp only [hfold']
    refine ⟨_, rfl, h.change ?_ (.cons (.loop (h.jump hρ 0) (h.jump hρ 1)) h.blocks) rfl
      (.cons (.target (h.jump hρ 0)) (hmirrored.append (.cons (.jumpIfFalse (h.jump hρ 1)) .nil)))⟩
    rintro (_ | _)
    · exact h.jump hρ 2
    · exact h.counter hρ 0

theorem elseIf_mirrors (hops : opsOf expr = opsOf expr') (hcomputes : Computes expr)
    (hissue : elseIf loc expr b = .ok u b₁) :
    ∃ b₁', elseIf loc' expr' b' = .ok u b₁' ∧ Mirrors ρ β pre pre' b₁ b₁' := by
  unfold elseIf at hissue
  split at hissue
  · rename_i start exit next outer hopen
    split at hissue
    · cases hissue
    · rename_i test hfold
      cases hissue
      obtain ⟨test', hfold', -, hmirrored⟩ := foldAt_alike loc' hops hcomputes hfold
      have hblocks := h.blocks
      have hwithin : b.inMacro = outer.any fun blk => blk.kind == .definition := by
        rw [inMacro, hopen]
        rfl
      rw [hopen] at hblocks
      obtain ⟨blk', outer', hblk, houter, hopen'⟩ := List.forall₂_cons_left_iff.mp hblocks
      cases hblk with
      | @condition _ start' _ exit' _ _ hexit hnext =>
          cases hnext with
          | @some _ next' hnext =>
              unfold elseIf
              simp only [hopen', hfold']
              -- the new jump is the next one on both sides, so the two numbers are paired
              refine ⟨_, rfl, h.change ?_ (.cons (.condition hexit (.some (h.jump hρ 0))) houter)
                hwithin.symm (.append (.append (.cons (.jump hexit) (.cons (.target hnext) .nil))
                  hmirrored) (.cons (.jumpIfFalse (h.jump hρ 0)) .nil))⟩
              rintro (_ | _)
              · exact h.jump hρ 1
              · exact h.counter hρ 0
  · cases hissue
  · cases hissue

omit hρ in
theorem otherwise_mirrors (hissue : otherwise loc b = .ok u b₁) :
    ∃ b₁', otherwise loc' b' = .ok u b₁' ∧ Mirrors ρ β pre pre' b₁ b₁' := by
  unfold otherwise at hissue
  split at hissue
  · rename_i start exit next outer hopen
    cases hissue
    have hblocks := h.blocks
    have hwithin : b.inMacro = outer.any fun blk => blk.kind == .definition := by
      rw [inMacro, hopen]
      rfl
    rw [hopen] at hblocks
    obtain ⟨blk', outer', hblk, houter, hopen'⟩ := List.forall₂_cons_left_iff.mp hblocks
    cases hblk with
    | condition hexit hnext =>
        cases hnext with
        | some hnext =>
            unfold otherwise
            simp only [hopen']
            exact ⟨_, rfl, h.change h.next (.cons (.condition hexit .none) houter) hwithin.symm
              (.cons (.jump hexit) (.cons (.target hnext) .nil))⟩
  · cases hissue
  · cases hissue

omit hρ in
theorem closeIf_mirrors (hissue : closeIf loc b = .ok u b₁) :
    ∃ b₁', closeIf loc' b' = .ok u b₁' ∧ Mirrors ρ β pre pre' b₁ b₁' := by
  unfold closeIf at hissue
  split at hissue
  · rename_i start exit next outer hopen
    cases hissue
    have hblocks := h.blocks
    have hwithin : b.inMacro = outer.any fun blk => blk.kind == .definition := by
      rw [inMacro, hopen]
      rfl
    rw [hopen] at hblocks
    obtain ⟨blk', outer', hblk, houter, hopen'⟩ := List.forall₂_cons_left_iff.mp hblocks
    cases hblk with
    | condition hexit hnext =>
        unfold closeIf
        simp only [hopen']
        refine ⟨_, rfl, h.change h.next houter hwithin.symm (.append ?_ (.cons (.target hexit) .nil))⟩
        cases hnext with
        | none => exact .nil
        | some hnext => exact .cons (.target hnext) .nil
  · cases hissue

omit hρ in
theorem closeRepeat_mirrors (hissue : closeRepeat loc b = .ok u b₁) :
    ∃ b₁', closeRepeat loc' b' = .ok u b₁' ∧ Mirrors ρ β pre pre' b₁ b₁' := by
  unfold closeRepeat at hissue
  split at hissue
  · rename_i start first exit counter outer hopen
    cases hissue
    have hblocks := h.blocks
    have hwithin : b.inMacro = outer.any fun blk => blk.kind == .definition := by
      rw [inMacro, hopen]
      rfl
    rw [hopen] at hblocks
    obtain ⟨blk', outer', hblk, houter, hopen'⟩ := List.forall₂_cons_left_iff.mp hblocks
    cases hblk with
    | repetition hstart hexit hcounter =>
        unfold closeRepeat
        simp only [hopen']
        exact ⟨_, rfl, h.change h.next houter hwithin.symm
          (.cons (.counterStep hcounter hstart) (.cons (.target hexit) .nil))⟩
  · cases hissue

omit hρ in
theorem closeWhile_mirrors (hissue : closeWhile loc b = .ok u b₁) :
    ∃ b₁', closeWhile loc' b' = .ok u b₁' ∧ Mirrors ρ β pre pre' b₁ b₁' := by
  unfold closeWhile at hissue
  split at hissue
  · rename_i start first exit outer hopen
    cases hissue
    have hblocks := h.blocks
    have hwithin : b.inMacro = outer.any fun blk => blk.kind == .definition := by
      rw [inMacro, hopen]
      rfl
    rw [hopen] at hblocks
    obtain ⟨blk', outer', hblk, houter, hopen'⟩ := List.forall₂_cons_left_iff.mp hblocks
    cases hblk with
    | loop hstart hexit =>
        unfold closeWhile
        simp only [hopen']
        exact ⟨_, rfl, h.change h.next houter hwithin.symm
          (.cons (.jump hstart) (.cons (.target hexit) .nil))⟩
  · cases hissue

omit hρ in
theorem openMacro_mirrors {name : String} {params : List String}
    (hissue : openMacro loc name params b = .ok u b₁) :
    ∃ b₁', openMacro loc' name params b' = .ok u b₁' ∧ Mirrors ρ β pre pre' b₁ b₁' := by
  unfold openMacro at hissue
  split at hissue
  · rename_i hclosed
    cases hissue
    have hblocks := h.blocks
    rw [hclosed] at hblocks
    have hclosed' : b'.blocks = [] := List.forall₂_nil_left_iff.mp hblocks
    have hout : b.inMacro = false := by
      rw [inMacro, hclosed]
      rfl
    unfold openMacro
    simp only [hclosed']
    exact ⟨_, rfl, h.next, .cons (.definition (h.outside hout)) .nil, by rintro ⟨⟩, fun _ => .nil⟩
  · cases hissue

omit hρ in
/-- The body of a macro is linked, so its numbers are paired for good. -/
theorem closeMacro_mirrors (hfunctional : ρ.Functional) {lo : Ids} (hb : b.Numbered lo)
    (hissue : closeMacro loc b = .ok u b₁) :
    ∃ b₁', closeMacro loc' b' = .ok u b₁' ∧ Mirrors ρ β pre pre' b₁ b₁' := by
  unfold closeMacro at hissue
  split at hissue
  · rename_i start name params before outer hopen
    cases hissue
    have hblocks := h.blocks
    have hbody := h.inside (by rw [inMacro, hopen]; rfl)
    have houtermost := hb.blocks
    rw [hopen] at hblocks houtermost
    obtain ⟨rfl, -, -⟩ := houtermost
    obtain ⟨blk', outer', hblk, houter, hopen'⟩ := List.forall₂_cons_left_iff.mp hblocks
    obtain rfl := List.forall₂_nil_left_iff.mp houter
    cases hblk with
    | definition hbefore =>
        unfold closeMacro
        simp only [hopen']
        refine ⟨_, rfl, h.next, .nil, fun _ => hbefore.add ?_, by rintro ⟨⟩⟩
        exact .cons (.defineMacro hfunctional hbody) .nil
  · cases hissue

/-- A line that can be lowered on one builder can be on any that goes on in the
same way. -/
theorem issue_mirrors (hfunctional : ρ.Functional) {lo : Ids} (hb : b.Numbered lo) {l l' : Line}
    (hl : l.Alike β l') (hcomputes : l.statement.Computes)
    (hissue : issue l.location l.statement b = .ok u b₁) :
    ∃ b₁', issue l'.location l'.statement b' = .ok u b₁' ∧ Mirrors ρ β pre pre' b₁ b₁' := by
  obtain ⟨loc, stmt⟩ := l
  obtain ⟨loc', stmt'⟩ := l'
  have hin := h.inMacro_eq
  have hexpr : ∀ e ∈ stmt.exprs, Computes e := hcomputes
  cases hl with
  | assign hops =>
      exact addResult_mirrors h (fold_mirrored hops (hexpr _ List.mem_cons_self) rfl) hissue
  | label =>
      cases hissue
      exact ⟨_, rfl, h.add (.cons (.plain rfl) .nil)⟩
  | @instruction mnemonic o o' ho =>
      refine addResult_mirrors h (fun as has => ?_) hissue
      split at has
      · rename_i acts hresolve
        cases has
        obtain ⟨acts', hresolve', hops⟩ := Operand.resolve_alike ho loc' hresolve
        refine ⟨acts', by rw [hresolve'], .inl (.of_opsOf hops fun a ha => ?_)⟩
        obtain ⟨e, op, hfold, hop, rfl⟩ := Operand.resolve_eq_ok hresolve
        rcases List.mem_append.mp ha with ha | ha
        · exact Op.isPlain_of_computes ((hexpr _ List.mem_cons_self).foldConstant hfold a ha)
        · obtain rfl := List.mem_singleton.mp ha
          cases hop <;> rfl
      · cases has
  | data hops =>
      exact addResult_mirrors h (fold_mirrored hops (hexpr _ List.mem_cons_self) rfl) hissue
  | text =>
      cases hissue
      exact ⟨_, rfl, h.add (.cons (.plain rfl) .nil)⟩
  | openIf hops => exact openIf_mirrors hρ h hops (hexpr _ List.mem_cons_self) hissue
  | elseIf hops => exact elseIf_mirrors hρ h hops (hexpr _ List.mem_cons_self) hissue
  | otherwise => exact otherwise_mirrors h hissue
  | closeIf => exact closeIf_mirrors h hissue
  | openRepeat hops => exact openRepeat_mirrors hρ h hops (hexpr _ List.mem_cons_self) hissue
  | closeRepeat => exact closeRepeat_mirrors h hissue
  | openWhile hops => exact openWhile_mirrors hρ h hops (hexpr _ List.mem_cons_self) hissue
  | closeWhile => exact closeWhile_mirrors h hissue
  | openMacro => exact openMacro_mirrors h hissue
  | closeMacro => exact closeMacro_mirrors h hfunctional hb hissue
  -- calls and includes are refused inside a macro, and the two agree on where that is
  | call hargs =>
      simp only [issue, call] at hissue ⊢
      rw [← hin]
      split at hissue
      · cases hissue
      · rename_i hout
        rw [if_neg hout]
        refine addResult_mirrors h (fun as has => ?_) hissue
        obtain ⟨args, hfold, has⟩ := except_bind_eq_ok.mp has
        cases has
        obtain ⟨args', hfold', hsame⟩ := foldAllAt_alike loc' hargs hexpr hfold
        exact ⟨_, except_bind_eq_ok.mpr ⟨args', hfold', rfl⟩,
          .inr ⟨by simpa using hout, .cons (.callMacro hsame) .nil⟩⟩
  | metaLabel | goto =>
      cases hissue
      exact ⟨_, rfl, h.add (.cons (.plain rfl) .nil)⟩
  | message hargs =>
      refine addResult_mirrors h (fun as has => ?_) hissue
      obtain ⟨args, hfold, has⟩ := except_bind_eq_ok.mp has
      cases has
      obtain ⟨args', hfold', hsame⟩ := messageArgs_alike loc' hargs
        (fun arg harg e he => hexpr e (List.mem_flatMap.mpr ⟨arg, harg, he⟩)) hfold
      exact ⟨_, except_bind_eq_ok.mpr ⟨args', hfold', rfl⟩, .inl (.cons (.message hsame) .nil)⟩
  | includeBinary hname hskip hlength =>
      simp only [issue, includeBinary] at hissue ⊢
      rw [← hin]
      split at hissue
      · cases hissue
      · rename_i hout
        rw [if_neg hout]
        refine addResult_mirrors h (fun as has => ?_) hissue
        obtain ⟨skip, hfold, has⟩ := except_bind_eq_ok.mp has
        obtain ⟨length, hfoldl, has⟩ := except_bind_eq_ok.mp has
        cases has
        obtain ⟨skip', hfold', hsame, -⟩ := foldAt_alike loc' hskip
          (hexpr _ List.mem_cons_self) hfold
        obtain ⟨length', hfoldl', hsamel, -⟩ := foldAt_alike loc' hlength
          (hexpr _ (List.mem_cons_of_mem _ List.mem_cons_self)) hfoldl
        refine ⟨_, except_bind_eq_ok.mpr ⟨skip', hfold', except_bind_eq_ok.mpr ⟨length', hfoldl', rfl⟩⟩,
          .inr ⟨by simpa using hout, .cons (.includeBinary hname ?_) .nil⟩⟩
        rw [List.map_cons, List.map_cons, List.map_cons, List.map_cons, hsame, hsamel]

end Issue

/-- Lines that can be lowered on one builder, all of them, can be on any that goes
on in the same way. -/
theorem issueAll_mirrors (hρ : ρ.Successive) (hfunctional : ρ.Functional) {lo : Ids}
    {lines lines' : List Line} (hlines : List.Forall₂ (Line.Alike β) lines lines')
    (hcomputes : ∀ l ∈ lines, l.statement.Computes) (hb : b.Numbered lo)
    (h : Mirrors ρ β pre pre' b b') {u : Unit} (hissue : issueAll lines b = .ok u b₁) :
    ∃ b₁', issueAll lines' b' = .ok u b₁' ∧ Mirrors ρ β pre pre' b₁ b₁' := by
  induction hlines generalizing b b' with
  | nil =>
      obtain ⟨rfl, rfl⟩ := pure_eq_ok.mp hissue
      exact ⟨b', rfl, h⟩
  | cons hl _ ih =>
      obtain ⟨hown, hrest⟩ := List.forall_mem_cons.mp hcomputes
      obtain ⟨_, b₂, hfirst, hissue⟩ := bind_eq_ok.mp hissue
      obtain ⟨b₂', hfirst', hmirrors⟩ := issue_mirrors hρ h hfunctional hb hl hown hfirst
      have hnumbered := ((Issued.of_issue hfirst).numbered hown hb).2
      obtain ⟨b₁', hissue', hend⟩ := ih hrest hnumbered hmirrors hissue
      exact ⟨b₁', bind_eq_ok.mpr ⟨(), b₂', hfirst', hissue'⟩, hend⟩

/-- Lines between two places outside all blocks become actions that match, after
whatever was there and wherever the numbers start. -/
theorem issueAll_alike {lo : Ids} {lines lines' : List Line}
    (hlines : List.Forall₂ (Line.Alike β) lines lines')
    (hcomputes : ∀ l ∈ lines, l.statement.Computes) (hb : b.Numbered lo) (hopen : b.blocks = [])
    (hopen' : b'.blocks = []) {u : Unit} (hissue : issueAll lines b = .ok u b₁)
    (hclosed : b₁.blocks = []) :
    ∃ new new' b₁', b₁.actions.toList = b.actions.toList ++ new ∧
      issueAll lines' b' = .ok u b₁' ∧ b₁'.actions.toList = b'.actions.toList ++ new' ∧
      b₁'.blocks = [] ∧ Matched (Aligned new new') β new new' := by
  have hstart : Mirrors (Pairing.shift b.ids b'.ids) β b.actions.toList b'.actions.toList b b' := by
    refine ⟨Pairing.shift_self _ _, ?_, fun _ => ?_, fun h => ?_⟩
    · rw [hopen, hopen']
      exact .nil
    · exact ⟨[], [], (List.append_nil _).symm, (List.append_nil _).symm, .nil⟩
    · rw [inMacro, hopen] at h
      cases h
  obtain ⟨b₁', hissue', hend⟩ := issueAll_mirrors (Pairing.shift_successive _ _)
    (Pairing.shift_functional _ _) hlines hcomputes hb hstart hissue
  have hout : b₁.inMacro = false := by
    rw [inMacro, hclosed]
    rfl
  obtain ⟨new, new', hnew, hnew', hmatched⟩ := hend.outside hout
  have hclosed' : b₁'.blocks = [] := by
    have hblocks := hend.blocks
    rw [hclosed] at hblocks
    exact List.forall₂_nil_left_iff.mp hblocks
  refine ⟨new, new', b₁', hnew, hissue', hnew', hclosed',
    hmatched.aligned (Pairing.shift_functional _ _) ?_⟩
  -- what the new actions take is too large for the old ones to have given it
  have hlinked := (issueAll_numbered hcomputes hb hissue).2.numbers
  rw [hclosed, hnew] at hlinked
  refine ⟨fun κ => ?_, fun κ n hn => ?_⟩
  · have hapart := hlinked.linked.apart κ
    rw [given_append] at hapart
    exact hapart.of_append_right
  · have hgiven := hlinked.linked.taken κ n (by rw [taken_append]; exact List.mem_append_right _ hn)
    rw [given_append] at hgiven
    refine (List.mem_append.mp hgiven).resolve_left fun hold => ?_
    have hbelow := (hb.numbers.between κ n (List.mem_append_left _ hold)).2
    obtain ⟨a, ha, hop⟩ := List.mem_filterMap.mp hn
    obtain ⟨i, hi, rfl⟩ := List.getElem_of_mem ha
    obtain ⟨n', -, hpair⟩ := (List.Forall₂.get hmatched hi (hmatched.length_eq ▸ hi)).taken hop
    have := hpair.2
    omega

end Builder

end Mos6510
