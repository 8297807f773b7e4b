import Mos6510.Proofs.Includes
import Mos6510.Proofs.RelabelledAssembly

/-!
# Sources read under other names and numbers

Reading a file gives out jumps and counters only, and its names are written ones.
So in a session that has given out more numbers, the builder makes the same actions of
a statement with their numbers raised, and with the macro that it defines or calls under
its other name (`Builder.issue_builds`).  It fails with the same error.

* `Reader.actions_inStep`: the same goes for a file;
* `Loader.source_inStep`: whether an include is refused depends only on the files
  that led to it, whatever the session has read before;
* `Assembler.loaded_inStep`: so a main file is read alike with all that it includes.
-/

namespace Mos6510

open Outcome

/-! ## The builder -/

/-- The statement with the macro that it defines or calls under another name. -/
def Statement.renameMacro (f : String → String) : Statement → Statement
  | .openMacro name params => .openMacro (f name) params
  | .call name args => .call (f name) args
  | stmt => stmt

/-- The line with the macro that it defines or calls under another name. -/
def Line.renameMacro (f : String → String) (l : Line) : Line := ⟨l.location, l.statement.renameMacro f⟩

theorem Line.renameMacro_id (l : Line) : l.renameMacro id = l := by
  obtain ⟨loc, stmt⟩ := l
  cases stmt <;> rfl

namespace Relabelling

variable (θ : Relabelling)

/-- The open block under other names and numbers. -/
def block (θ : Relabelling) : Block → Block
  | .condition loc exit next =>
    .condition loc (exit + θ.shift.jump) (next.map (· + θ.shift.jump))
  | .repetition loc start exit counter =>
    .repetition loc (start + θ.shift.jump) (exit + θ.shift.jump) (counter + θ.shift.counter)
  | .loop loc start exit => .loop loc (start + θ.shift.jump) (exit + θ.shift.jump)
  | .definition loc name params outer =>
    .definition loc (θ.call name) params (θ.actions outer.toList).toArray

@[simp] theorem kind_block (blk : Block) : (θ.block blk).kind = blk.kind := by
  cases blk <;> rfl

@[simp] theorem location_block (blk : Block) : (θ.block blk).location = blk.location := by
  cases blk <;> rfl

/-- The builder under other names and numbers. -/
def builder (b : Builder) : Builder where
  ids := b.ids + θ.shift
  actions := (θ.actions b.actions.toList).toArray
  blocks := b.blocks.map θ.block

/-- The second builder is the first one under other names and numbers. -/
def Rebuilt (b b' : Builder) : Prop := b' = θ.builder b

/-- Both go on with the same actions, blocks and numbers, up to names and numbers. -/
theorem rebuilt_grow (b : Builder) {ids ids' : Ids} {acts acts' : List Action}
    {blocks blocks' : List Block} (hids : ids' = ids + θ.shift) (hacts : acts' = θ.actions acts)
    (hblocks : blocks' = blocks.map θ.block) :
    θ.Rebuilt ⟨ids, b.actions ++ acts, blocks⟩ ⟨ids', (θ.builder b).actions ++ acts', blocks'⟩ := by
  unfold Rebuilt builder
  simp [hids, hacts, hblocks]

theorem inMacro_builder (b : Builder) : (θ.builder b).inMacro = b.inMacro := by
  unfold Builder.inMacro builder
  rw [List.any_map]
  congr 1
  funext blk
  simp

theorem ids_raised (i : Ids) (n m : Nat) :
    Ids.mk (i.jump + θ.shift.jump + n) (i.counter + θ.shift.counter + m) (i.seq + θ.shift.seq) =
      Ids.mk (i.jump + n) (i.counter + m) i.seq + θ.shift := by
  show _ = Ids.mk (i.jump + n + θ.shift.jump) (i.counter + m + θ.shift.counter) _
  rw [Nat.add_right_comm, Nat.add_right_comm i.counter]

theorem number_jump (n : Nat) : θ.number .jump n = (n + θ.shift.jump : Nat) :=
  θ.number_natCast .jump n

theorem number_counter (n : Nat) : θ.number .counter n = (n + θ.shift.counter : Nat) :=
  θ.number_natCast .counter n

/-- The second operation does the same as the first one, under other names and numbers. -/
def Builds (m m' : BuilderM Unit) : Prop :=
  InStep Eq θ.Rebuilt m m' (Same θ.Rebuilt)

end Relabelling

namespace Builder

variable {θ : Relabelling} {loc : Location} {expr : List Action}

theorem addResult_builds {r r' : Except Error (List Action)} (h : r' = r.map θ.actions) :
    θ.Builds (addResult r) (addResult r') := by
  rintro b _ rfl
  unfold addResult
  rw [h]
  cases r with
  | error err => exact .error rfl
  | ok acts => exact .ok ⟨rfl, θ.rebuilt_grow b rfl rfl rfl⟩

/-- What is added as it is, once it is known to stay so. -/
theorem addResult_keeps {r : Except Error (List Action)}
    (h : ∀ acts, r = .ok acts → θ.actions acts = acts) :
    θ.Builds (addResult r) (addResult r) := by
  refine addResult_builds ?_
  cases r with
  | error err => rfl
  | ok acts => exact congrArg Except.ok (h acts rfl).symm

theorem addOp_builds {op : Op} (h : θ.op op = op) : θ.Builds (addOp loc op) (addOp loc op) := by
  rintro b _ rfl
  refine .ok ⟨rfl, θ.rebuilt_grow b rfl ?_ rfl⟩
  rw [θ.actions_cons, θ.actions_nil, θ.action_plain, h]

/-- An expression over written names is folded to one that stays as it is. -/
theorem actions_foldAt (θ : Relabelling) {e : List Action} (hexpr : IsExprOver IsWritten expr)
    (h : foldAt loc expr = .ok e) : θ.actions e = e :=
  θ.actions_expr (foldAt_keeps (.load _) hexpr h)

theorem openIf_builds (hexpr : IsExprOver IsWritten expr) :
    θ.Builds (openIf loc expr) (openIf loc expr) := by
  rintro b _ rfl
  unfold openIf
  cases hfold : foldAt loc expr with
  | error err => exact .error rfl
  | ok e =>
      refine .ok ⟨rfl, θ.rebuilt_grow b (θ.ids_raised b.ids 2 0) ?_ ?_⟩
      · rw [θ.actions_append, actions_foldAt θ hexpr hfold, θ.actions_cons, θ.actions_nil,
          θ.action_plain, Relabelling.op, θ.number_jump, Nat.add_right_comm]
        rfl
      · rw [List.map_cons, Relabelling.block, Option.map_some, Nat.add_right_comm]
        rfl

theorem openRepeat_builds (hexpr : IsExprOver IsWritten expr) :
    θ.Builds (openRepeat loc expr) (openRepeat loc expr) := by
  rintro b _ rfl
  unfold openRepeat
  cases hfold : foldAt loc expr with
  | error err => exact .error rfl
  | ok e =>
      refine .ok ⟨rfl, θ.rebuilt_grow b (θ.ids_raised b.ids 2 1) ?_ ?_⟩
      · rw [θ.actions_append, actions_foldAt θ hexpr hfold]
        simp only [θ.actions_cons, θ.actions_nil, θ.action_plain, Relabelling.op, θ.number_jump,
          θ.number_counter, Nat.add_right_comm _ 1 θ.shift.jump]
        rfl
      · rw [List.map_cons, Relabelling.block, Nat.add_right_comm]
        rfl

theorem openWhile_builds (hexpr : IsExprOver IsWritten expr) :
    θ.Builds (openWhile loc expr) (openWhile loc expr) := by
  rintro b _ rfl
  unfold openWhile
  cases hfold : foldAt loc expr with
  | error err => exact .error rfl
  | ok e =>
      refine .ok ⟨rfl, θ.rebuilt_grow b (θ.ids_raised b.ids 2 0) ?_ ?_⟩
      · rw [List.cons_append, List.cons_append, θ.actions_cons, θ.actions_append,
          actions_foldAt θ hexpr hfold]
        simp only [θ.actions_cons, θ.actions_nil, θ.action_plain, Relabelling.op, θ.number_jump,
          Nat.add_right_comm _ 1 θ.shift.jump]
        rfl
      · rw [List.map_cons, Relabelling.block, Nat.add_right_comm]
        rfl

theorem elseIf_builds (hexpr : IsExprOver IsWritten expr) :
    θ.Builds (elseIf loc expr) (elseIf loc expr) := by
  rintro ⟨ids, acts, blocks⟩ _ rfl
  unfold elseIf
  cases blocks with
  | nil => exact .error rfl
  | cons blk outer =>
      cases blk with
      | condition start exit next =>
          cases next with
          | none => exact .error rfl
          | some next =>
              simp only [Relabelling.builder, List.map_cons, Relabelling.block, Option.map_some]
              cases hfold : foldAt loc expr with
              | error err => exact .error rfl
              | ok e =>
                  refine .ok ⟨rfl, θ.rebuilt_grow ⟨ids, acts, .condition start exit (some next) :: outer⟩
                    (θ.ids_raised ids 1 0) ?_ rfl⟩
                  rw [θ.actions_append, θ.actions_append, actions_foldAt θ hexpr hfold]
                  simp only [θ.actions_cons, θ.actions_nil, θ.action_plain, Relabelling.op,
                    θ.number_jump]
                  rfl
      | _ => exact .error rfl

theorem otherwise_builds : θ.Builds (otherwise loc) (otherwise loc) := by
  rintro ⟨ids, acts, blocks⟩ _ rfl
  unfold otherwise
  cases blocks with
  | nil => exact .error rfl
  | cons blk outer =>
      cases blk with
      | condition start exit next =>
          cases next with
          | none => exact .error rfl
          | some next =>
              refine .ok ⟨rfl, θ.rebuilt_grow ⟨ids, acts, .condition start exit (some next) :: outer⟩
                rfl ?_ rfl⟩
              simp only [θ.actions_cons, θ.actions_nil, θ.action_plain, Relabelling.op, θ.number_jump]
      | _ => exact .error rfl

theorem failClose_builds {directive : String} :
    θ.Builds (failClose loc directive) (failClose loc directive) := by
  rintro ⟨ids, acts, blocks⟩ _ rfl
  refine .error ?_
  cases blocks with
  | nil => rfl
  | cons blk outer => simp [Relabelling.builder]

theorem closeIf_builds : θ.Builds (closeIf loc) (closeIf loc) := by
  rintro ⟨ids, acts, blocks⟩ _ rfl
  unfold closeIf
  cases blocks with
  | nil => exact failClose_builds rfl
  | cons blk outer =>
      cases blk with
      | condition start exit next =>
          refine .ok ⟨rfl, θ.rebuilt_grow ⟨ids, acts, .condition start exit next :: outer⟩ rfl ?_ rfl⟩
          cases next <;> simp only [θ.actions_append, θ.actions_cons, θ.actions_nil, θ.action_plain,
            Relabelling.op, θ.number_jump, Option.map]
      | _ => exact failClose_builds rfl

theorem closeRepeat_builds : θ.Builds (closeRepeat loc) (closeRepeat loc) := by
  rintro ⟨ids, acts, blocks⟩ _ rfl
  unfold closeRepeat
  cases blocks with
  | nil => exact failClose_builds rfl
  | cons blk outer =>
      cases blk with
      | repetition start first exit counter =>
          refine .ok ⟨rfl, θ.rebuilt_grow ⟨ids, acts, .repetition start first exit counter :: outer⟩
            rfl ?_ rfl⟩
          simp only [θ.actions_cons, θ.actions_nil, θ.action_plain, Relabelling.op, θ.number_jump,
            θ.number_counter]
      | _ => exact failClose_builds rfl

theorem closeWhile_builds : θ.Builds (closeWhile loc) (closeWhile loc) := by
  rintro ⟨ids, acts, blocks⟩ _ rfl
  unfold closeWhile
  cases blocks with
  | nil => exact failClose_builds rfl
  | cons blk outer =>
      cases blk with
      | loop start first exit =>
          refine .ok ⟨rfl, θ.rebuilt_grow ⟨ids, acts, .loop start first exit :: outer⟩ rfl ?_ rfl⟩
          simp only [θ.actions_cons, θ.actions_nil, θ.action_plain, Relabelling.op, θ.number_jump]
      | _ => exact failClose_builds rfl

theorem openMacro_builds {name : String} {params : List String} :
    θ.Builds (openMacro loc name params) (openMacro loc (θ.call name) params) := by
  rintro ⟨ids, acts, blocks⟩ _ rfl
  unfold openMacro
  cases blocks with
  | nil => exact .ok ⟨rfl, rfl⟩
  | cons blk outer => exact .error rfl

theorem closeMacro_builds : θ.Builds (closeMacro loc) (closeMacro loc) := by
  rintro ⟨ids, acts, blocks⟩ _ rfl
  unfold closeMacro
  cases blocks with
  | nil => exact failClose_builds rfl
  | cons blk outer =>
      cases blk with
      | definition start name params before =>
          refine .ok ⟨rfl, θ.rebuilt_grow ⟨ids, before, outer⟩ rfl ?_ rfl⟩
          simp only [θ.actions_cons, θ.actions_nil, θ.action_plain, Relabelling.op]
          rfl
      | _ => exact failClose_builds rfl

/-- What is refused inside a macro. -/
theorem outside_builds {m m' : BuilderM Unit} {err : Error} (h : θ.Builds m m') :
    θ.Builds (fun b => if b.inMacro then .error err b else m b)
      fun b => if b.inMacro then .error err b else m' b := by
  rintro b _ rfl
  show Outcome.Accord _ _ (if b.inMacro then _ else _) (if (θ.builder b).inMacro then _ else _)
  rw [θ.inMacro_builder]
  split
  · exact .error rfl
  · exact h rfl

/-- A statement over written names does the same, with its macro under another name. -/
theorem issue_builds {stmt : Statement} (hstmt : stmt.Over IsWritten) :
    θ.Builds (issue loc stmt) (issue loc (stmt.renameMacro θ.call)) := by
  have hfold : ∀ {expr e : List Action} {op : Op}, IsExprOver IsWritten expr →
      foldAt loc expr = .ok e → θ.op op = op →
      θ.actions (e ++ [Action.plain loc op]) = e ++ [Action.plain loc op] := by
    intro expr e op hexpr he hop
    rw [θ.actions_append, actions_foldAt θ hexpr he, θ.actions_cons, θ.actions_nil, θ.action_plain,
      hop]
  have hbare : ∀ {op : Op}, θ.op op = op →
      θ.actions [Action.plain loc op] = [Action.plain loc op] := by
    intro op hop
    rw [θ.actions_cons, θ.actions_nil, θ.action_plain, hop]
  cases stmt with
  | assign name expr =>
      refine addResult_keeps fun acts h => ?_
      obtain ⟨e, he, hacts⟩ := except_bind_eq_ok.mp h
      cases hacts
      exact hfold hstmt.2 he (by rw [Relabelling.op, θ.name_plain hstmt.1.plain])
  | label name => exact addOp_builds (by rw [Relabelling.op, θ.name_plain hstmt.plain])
  | instruction mnemonic operand =>
      refine addResult_keeps fun acts h => ?_
      cases hresolve : operand.resolve loc mnemonic with
      | error err =>
          rw [hresolve] at h
          cases h
      | ok acts' =>
          rw [hresolve] at h
          cases h
          obtain ⟨e, op, he, hop, rfl⟩ := Operand.resolve_eq_ok hresolve
          have hexpr : θ.actions e = e := by
            rcases hstmt with ⟨-, hnone⟩ | ⟨-, hexpr⟩
            · rw [hnone] at he
              cases he
              exact θ.actions_nil
            · exact θ.actions_expr (foldConstant_keeps (.load _) hexpr he)
          rw [θ.actions_append, hexpr, hbare]
          cases hop <;> rfl
  | data word expr =>
      refine addResult_keeps fun acts h => ?_
      obtain ⟨e, he, hacts⟩ := except_bind_eq_ok.mp h
      cases hacts
      exact hfold hstmt he rfl
  | text word bytes => exact addOp_builds rfl
  | openIf cond => exact openIf_builds hstmt
  | elseIf cond => exact elseIf_builds hstmt
  | otherwise => exact otherwise_builds
  | closeIf => exact closeIf_builds
  | openRepeat count => exact openRepeat_builds hstmt
  | closeRepeat => exact closeRepeat_builds
  | openWhile cond => exact openWhile_builds hstmt
  | closeWhile => exact closeWhile_builds
  | openMacro name params => exact openMacro_builds
  | closeMacro => exact closeMacro_builds
  | call name args =>
      refine outside_builds (addResult_builds ?_)
      cases hargs : foldAllAt loc args with
      | error err => rfl
      | ok args' =>
          have hexprs := foldAllAt_keeps (.load _) hstmt.2 hargs
          have hwritten : θ.arguments args' = args' :=
            θ.arguments_written fun arg harg => .inr (hexprs arg harg)
          refine congrArg Except.ok ?_
          rw [θ.actions_cons, θ.actions_nil, θ.action_plain, Relabelling.op, hwritten]
  | metaLabel name => exact addOp_builds (by rw [Relabelling.op, θ.mark_plain hstmt.plain])
  | goto name => exact addOp_builds (by rw [Relabelling.op, θ.mark_plain hstmt.plain])
  | message level formatted args =>
      refine addResult_keeps fun acts h => ?_
      obtain ⟨args', hargs, hacts⟩ := except_bind_eq_ok.mp h
      cases hacts
      have hexprs : ∀ arg ∈ args', IsWrittenArg arg := by
        intro arg harg
        refine (messageArgs_keeps (.load _) (fun arg harg e he => ?_) hargs arg harg).imp_left
          fun ⟨s, h⟩ => ⟨loc, s, h⟩
        have hover := hstmt arg harg
        cases arg with
        | text s => cases he
        | expr acts => exact List.mem_singleton.mp he ▸ hover
      exact hbare (by rw [Relabelling.op, θ.arguments_written hexprs])
  | includeSource name => exact outside_builds (addOp_builds rfl)
  | includeBinary name skip length =>
      refine outside_builds (addResult_keeps fun acts h => ?_)
      obtain ⟨skip', hskip, h⟩ := except_bind_eq_ok.mp h
      obtain ⟨length', hlength, hacts⟩ := except_bind_eq_ok.mp h
      cases hacts
      have hexprs : ∀ arg ∈ [skip', length'], IsWrittenArg arg := by
        intro arg harg
        rcases List.mem_pair.mp harg with rfl | rfl
        · exact .inr (foldAt_keeps (.load _) hstmt.1 hskip)
        · exact .inr (foldAt_keeps (.load _) hstmt.2 hlength)
      exact hbare (by rw [Relabelling.op, θ.arguments_written hexprs])

theorem issueAll_builds {lines : List Line} (h : ∀ l ∈ lines, l.Over IsWritten) :
    θ.Builds (issueAll lines) (issueAll (lines.map (Line.renameMacro θ.call))) := by
  induction lines with
  | nil => exact InStep.pure fun _ _ h => ⟨rfl, h⟩
  | cons l rest ih =>
      obtain ⟨hl, hrest⟩ := List.forall_mem_cons.mp h
      exact (issue_builds hl).andThen fun _ _ _ => ih hrest

theorem finish_builder (θ : Relabelling) (b : Builder) :
    (θ.builder b).finish = b.finish.map θ.actions := by
  obtain ⟨ids, acts, blocks⟩ := b
  cases blocks with
  | nil => rfl
  | cons blk outer => simp [finish, Relabelling.builder, Except.map]

end Builder

/-! ## Reading files -/

section

variable {θ : Relabelling}

theorem Reader.lower_inStep {lines : List Line} (h : ∀ l ∈ lines, l.Over IsWritten)
    (err : Option Error) :
    InStep Eq θ.Ahead (lower lines err) (lower (lines.map (Line.renameMacro θ.call)) err)
      (Both θ.Tells θ.Ahead) := by
  intro s t hst
  have hstart : θ.Rebuilt { ids := s.ids } { ids := t.ids } := by
    unfold Relabelling.Rebuilt Relabelling.builder
    rw [show t.ids = s.ids + θ.shift from hst]
    simp
  have hagree := Builder.issueAll_builds h hstart
  unfold lower Assembler.withIds
  dsimp only
  cases hm : Builder.issueAll lines { ids := s.ids } <;>
    cases hm' : Builder.issueAll (lines.map (Line.renameMacro θ.call)) { ids := t.ids } <;>
    rw [hm, hm'] at hagree <;> cases hagree
  · rename_i h
    rw [show _ = θ.builder _ from h.2]
    cases err with
    | some err => exact .error rfl
    | none =>
        dsimp only
        rw [Builder.finish_builder]
        cases Builder.finish _ with
        | error err => exact .error rfl
        | ok acts => exact .ok ⟨rfl, rfl⟩
  · rename_i h
    exact .error h

/-- A file is read alike under other numbers, where macros keep their names. -/
theorem Reader.actions_inStep (hcall : θ.call = id) (r : Reader) (file : String)
    (text : List Text.Glyph) :
    InStep Eq θ.Ahead (r.actions file text) (r.actions file text) (Both θ.Tells θ.Ahead) := by
  have hsame : ∀ lines : List Line, lines.map (Line.renameMacro θ.call) = lines := fun lines =>
    (List.map_congr_left fun l _ => hcall ▸ l.renameMacro_id).trans (List.map_id' lines)
  unfold actions
  dsimp only
  split
  · exact InStep.throw rfl
  · refine InStep.andThen (A := fun _ _ => True) (R := θ.Ahead) (fun _ _ h => .ok ⟨trivial, h⟩)
      fun _ _ _ => ?_
    have hlower := lower_inStep (θ := θ) (r.lines_over file text)
    simp only [hsame] at hlower
    exact hlower _

/-- The second session is ahead of the first, and the same files led to this one
in both. -/
structure Relabelling.AheadIn (θ : Relabelling) (file : String) (chain : List String)
    (s t : Session) : Prop where
  ahead : θ.Ahead s t
  left : Chain s.includers file chain
  right : Chain t.includers file chain

namespace Loader

variable {ld : Loader} {name : String} {loc : Location}

/-- Which file a name stands for does not depend on the session. -/
theorem resolve_inStep {R : Session → Session → Prop} (hR : ∀ s t missed missed', R s t →
    R { s with missed := missed } { t with missed := missed' }) :
    InStep Eq R (ld.resolve name loc) (ld.resolve name loc) (Same R) := by
  intro s t hst
  unfold resolve
  dsimp only
  cases (ld.pick (candidates (ld.foldersFrom loc) name)).2 with
  | none => exact .error rfl
  | some file => exact .ok ⟨rfl, hR _ _ _ _ hst⟩

theorem read_inStep (hcall : θ.call = id) (file : String) :
    InStep Eq θ.Ahead (ld.read loc file) (ld.read loc file) (Both θ.Tells θ.Ahead) := by
  unfold read
  refine InStep.andThen (A := fun _ _ => True) (R := θ.Ahead) (fun _ _ h => .ok ⟨trivial, h⟩)
    fun _ _ _ => ?_
  cases ld.library.source file with
  | error err => exact InStep.throw rfl
  | ok bytes => exact Reader.actions_inStep hcall ld.reader file _

theorem binary_inStep {file : String} {chain : List String} :
    InStep Eq (θ.AheadIn file chain) (ld.binary name loc) (ld.binary name loc)
      (Same (θ.AheadIn file chain)) := by
  unfold binary
  have hresolve : InStep Eq (θ.AheadIn file chain) (ld.resolve name loc) (ld.resolve name loc)
      (Same (θ.AheadIn file chain)) :=
    resolve_inStep fun _ _ _ _ h => ⟨h.ahead, h.left, h.right⟩
  refine hresolve.andThen fun found _ hfound => ?_
  rw [hfound]
  refine InStep.andThen (A := fun _ _ => True) (R := θ.AheadIn file chain)
    (fun _ _ h => .ok ⟨trivial, h.ahead, h.left, h.right⟩) fun _ _ _ => ?_
  cases ld.library.binary found with
  | error err => exact InStep.throw rfl
  | ok bytes => exact InStep.pure fun _ _ h => ⟨rfl, h⟩

/-- Whether an include is refused as a cycle depends only on the files that led
to it. -/
theorem source_inStep (hcall : θ.call = id) {chain : List String} :
    InStep Eq (θ.AheadIn loc.file chain) (ld.source name loc) (ld.source name loc)
      fun acts s acts' t => θ.Tells acts acts' ∧
        ∃ file, IncludesIn file acts ∧ θ.AheadIn file (file :: chain) s t := by
  intro s t hst
  have hresolve : Accord Eq (Same (θ.AheadIn loc.file chain)) (ld.resolve name loc s)
      (ld.resolve name loc t) :=
    resolve_inStep (fun _ _ _ _ h => ⟨h.ahead, h.left, h.right⟩) hst
  cases hfile : ld.resolve name loc s <;> cases hfile' : ld.resolve name loc t <;>
    rw [hfile, hfile'] at hresolve <;> cases hresolve
  · rename_i found s₁ file t₁ hsame
    obtain ⟨hfound, hin⟩ := hsame
    rw [← hfound] at hfile
    have hsource : Accord Eq (Both θ.Tells θ.Ahead) (ld.source name loc s) (ld.source name loc t) := by
      rw [source_eq hst.left hfile, source_eq hst.right hfile']
      split
      · exact .error rfl
      · exact read_inStep hcall file hin.ahead
    refine hsource.ensure fun acts s₂ acts' t₂ hs ht ⟨htells, hahead⟩ => ⟨htells, file, ?_⟩
    obtain ⟨_, _, hl, -, hacts, hleft⟩ := source_eq_ok hst.left hs
    obtain ⟨_, _, hr, -, -, hright⟩ := source_eq_ok hst.right ht
    cases hfile.symm.trans hl
    cases hfile'.symm.trans hr
    exact ⟨hacts, hahead, hleft, hright⟩
  · rename_i h
    rw [show ld.source name loc s = .error _ _ from bind_eq_error.mpr (.inl hfile),
      show ld.source name loc t = .error _ _ from bind_eq_error.mpr (.inl hfile')]
    exact .error h

end Loader

/-! ## Including files -/

namespace Assembler

variable {asm : Assembler} {ld : Loader} (hcall : θ.call = id)
  (hinc : ∀ inc, asm.includer = some inc → inc = ld.includer)

include hcall hinc

theorem replaceInclude_inStep {nested : Option (List Action → SessionM (List Action))}
    {file : String} {chain : List String}
    (hnested : ∀ f, nested = some f → ∀ inner acts, IncludesIn inner acts →
      InStep Eq (θ.AheadIn inner (inner :: chain)) (f acts) (f (θ.actions acts))
        (Both θ.Tells (θ.AheadIn inner (inner :: chain))))
    {a : Action} (ha : ∀ name, a.op = .includeSource name → a.location.file = file) :
    InStep Eq (θ.AheadIn file chain) (asm.replaceInclude nested a)
      (asm.replaceInclude nested (θ.action a)) (Both θ.Tells (θ.AheadIn file chain)) := by
  obtain ⟨loc, op, x⟩ := a
  have hlocated : ∀ err err' : Error, err = err' → err.atLocation loc = err'.atLocation loc :=
    fun _ _ h => h ▸ rfl
  rw [Relabelling.action]
  cases op with
  | includeSource name =>
      obtain rfl := ha name rfl
      simp only [Relabelling.op]
      unfold replaceInclude
      dsimp only
      cases hasm : asm.includer with
      | none => exact InStep.throw rfl
      | some inc =>
          cases nested with
          | none => exact InStep.throw rfl
          | some f =>
              obtain rfl := hinc inc hasm
              intro s t hst
              refine ((Loader.source_inStep hcall).located hlocated).bind (fun acts acts' => ?_) hst
              rintro s₁ t₁ ⟨htells, inner, hin, hpush⟩
              rw [show acts' = θ.actions acts from htells]
              have hnote : ∀ entry entry', InStep Eq (θ.AheadIn inner (inner :: chain))
                  (asm.note entry) (asm.note entry') (Same (θ.AheadIn inner (inner :: chain))) :=
                fun _ _ _ _ h => .ok ⟨rfl, h.ahead, h.left, h.right⟩
              refine Accord.ensure (((hnote _ _).andThen fun _ _ _ => hnested f rfl inner acts hin) hpush)
                fun r s₂ r' t₂ _ _ ⟨hr, h⟩ => ⟨hr, h.ahead, ?_, ?_⟩
              -- below the included file, the chain is again that of the file it stands in
              · obtain ⟨-, -, hbelow⟩ := h.left.head_eq
                rwa [hst.left.file_eq hbelow] at hbelow
              · obtain ⟨-, -, hbelow⟩ := h.right.head_eq
                rwa [hst.right.file_eq hbelow] at hbelow
  | includeBinary name args =>
      simp only [Relabelling.op]
      unfold replaceInclude
      dsimp only
      cases hasm : asm.includer with
      | none => exact InStep.throw rfl
      | some inc =>
          obtain rfl := hinc inc hasm
          refine (Loader.binary_inStep.located hlocated).andThen fun bytes _ hbytes => ?_
          rw [hbytes]
          refine InStep.andThen (A := fun _ _ => True) (R := θ.AheadIn file chain)
            (fun _ _ h => .ok ⟨trivial, h.ahead, h.left, h.right⟩) fun _ _ _ => ?_
          refine InStep.pure fun _ _ h => ⟨?_, h⟩
          unfold Relabelling.Tells
          rw [θ.actions_append, θ.actions_flatten, θ.actions_cons, θ.actions_nil, θ.action_plain]
          simp only [Relabelling.op]
  | _ =>
      refine InStep.pure fun _ _ h => ⟨?_, h⟩
      unfold Relabelling.Tells
      rw [θ.actions_cons, θ.actions_nil, Relabelling.action]

/-- Includes are resolved alike under other numbers. -/
theorem resolveIncludes_inStep (levels : Nat) {file : String} {chain : List String}
    {acts : List Action} (hacts : IncludesIn file acts) :
    InStep Eq (θ.AheadIn file chain) (asm.resolveIncludes levels acts)
      (asm.resolveIncludes levels (θ.actions acts)) (Both θ.Tells (θ.AheadIn file chain)) := by
  induction levels generalizing file chain acts with
  | zero =>
      rw [resolveIncludes]
      refine replaceEach_inStep fun a ha => replaceInclude_inStep hcall hinc (fun f hf => ?_) (hacts a ha)
      cases hf
  | succ levels ih =>
      rw [resolveIncludes]
      refine replaceEach_inStep fun a ha => replaceInclude_inStep hcall hinc (fun f hf => ?_) (hacts a ha)
      cases hf
      exact fun inner acts hin => ih hin

omit hcall hinc in
/-- Read a main file, with all files that it includes. -/
def loaded (asm : Assembler) (ld : Loader) (main : String) : SessionM (List Action) := do
  let actions ← ld.topLevel main
  asm.spliced actions

/-- A main file is read alike with all that it includes, in any two sessions of
which one is ahead of the other.  Errors are the same. -/
theorem loaded_inStep (main : String) :
    InStep Eq θ.Ahead (asm.loaded ld main) (asm.loaded ld main) (Both θ.Tells θ.Ahead) := by
  intro s t hst
  have htop : θ.AheadIn ({} : Location).file [] s t := ⟨hst, .top, .top⟩
  refine Accord.bind (Loader.source_inStep hcall htop) ?_
  rintro acts s₁ acts' t₁ - ⟨htells, file, hin, hpush⟩
  rw [show acts' = θ.actions acts from htells]
  have hspliced : InStep Eq (θ.AheadIn file [file]) (asm.spliced acts) (asm.spliced (θ.actions acts))
      (Both θ.Tells (θ.AheadIn file [file])) := by
    refine InStep.andThen (A := fun _ _ => True) (R := θ.AheadIn file [file])
      (fun _ _ h => .ok ⟨trivial, h.ahead, h.left, h.right⟩) fun _ _ _ => ?_
    exact resolveIncludes_inStep hcall hinc includeDepth hin
  exact (hspliced hpush).ensure fun _ _ _ _ _ _ ⟨hr, h⟩ => ⟨hr, h.ahead⟩

end Assembler

end

end Mos6510
