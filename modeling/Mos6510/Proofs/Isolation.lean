import Mos6510.Proofs.Locals
import Mos6510.Proofs.Settled

/-!
# Macro calls stay apart

What belongs to a macro call (its synthetic label, the assignments to its
parameters, its body) opens no scope and writes no symbols but those of the
call; and nothing else in the program reads or writes these
(`Assembler.calls_isolated`).

Names keep the two apart.  Source text has none with a dollar sign, so its
parent labels have none either (`Code.plain_of_visits`), and below such labels
`qualify_injective` tells the names of each call from all others.
-/

namespace Mos6510

open Outcome

/-! ## What symbols hold -/

/-- What a name holds as a variable and as a label: the value, and whether one
was assigned. -/
def Engine.content (e : Engine) (full : String) :
    Option (Int64 × Bool) × Option (Int64 × Bool) :=
  ((if full = pcName then some e.pc else e.vars.find? full).map fun c => (c.value, c.isSet),
    (e.labels.find? full).map fun c => (c.value, c.isSet))

theorem SymbolTable.Pointwise.content_eq {t u : SymbolTable}
    (h : SymbolTable.Pointwise (fun _ => Cell.Same) t u) (full : String) :
    (u.find? full).map (fun c => (c.value, c.isSet)) =
      (t.find? full).map fun c => (c.value, c.isSet) := by
  rcases h.find? full with ⟨ht, hu⟩ | ⟨c, d, ht, hu, hvalue, hset⟩
  · rw [ht, hu]
  · rw [ht, hu, Option.map_some, Option.map_some, hvalue, hset]

/-- The symbol that an action assigns or places. -/
def Op.written? : Op → Option String
  | .set name => some name
  | .label name _ => some name
  | _ => none

theorem Op.mem_symbolNames_of_written? {op : Op} {name : String} (h : op.written? = some name) :
    name ∈ op.symbolNames := by
  cases op with
  | set | label =>
      cases h
      exact List.mem_singleton_self _
  | _ => cases h

/-- A step changes what a symbol holds only if it assigns or places it. -/
theorem SymbolStep.content_eq {op : Op} {e e' : Engine} (h : SymbolStep op e e') {full : String}
    (hpc : full ≠ pcName)
    (hwritten : ∀ name, op.written? = some name → qualify name e.parent ≠ .ok full) :
    e'.content full = e.content full := by
  unfold Engine.content
  rw [if_neg hpc, if_neg hpc]
  cases h with
  | read hvars hlabels => rw [hvars.content_eq, hlabels.content_eq]
  | assign name m v hop hq _ hvars hlabels =>
      subst hop
      -- the cell written has the qualified name, which is not the one looked at
      have hne : full ≠ m := fun heq => hwritten name rfl (heq ▸ hq)
      rw [hvars, hlabels, SymbolTable.find?_update, if_neg hne]
  | place name m synthetic addr hop hq _ _ hlabels hvars =>
      subst hop
      have hne : full ≠ m := fun heq => hwritten name rfl (heq ▸ hq)
      rw [hvars, hlabels, SymbolTable.find?_update, if_neg hne]

/-- So does an action. -/
theorem Action.run_content {a : Action} (hspeaks : a.Speaks) {e e' : Engine}
    (h : a.run e = .ok () e') {full : String} (hpc : full ≠ pcName)
    (hwritten : ∀ name, a.op.written? = some name → qualify name e.parent ≠ .ok full) :
    e'.content full = e.content full := by
  obtain ⟨loc, op, x⟩ := a
  cases hmsg : op.isMessage with
  | false => exact (Op.run_symbolStep loc hmsg h).1.content_eq hpc hwritten
  | true =>
      cases op with
      | message level formatted args =>
          have hsame := (message_untouched (hspeaks level formatted args rfl) h).1
          unfold Engine.content
          rw [if_neg hpc, if_neg hpc, hsame.vars.content_eq, hsame.labels.content_eq]
      | _ => cases hmsg

/-! ## What belongs to a call -/

theorem hasInfix_localMark (before after : List Char) :
    hasInfix localMark.toList (before ++ '$' :: '$' :: after) = true := by
  induction before with
  | nil => rfl
  | cons c before ih =>
      show (_ || hasInfix localMark.toList (before ++ '$' :: '$' :: after)) = true
      rw [ih, Bool.or_true]

theorem mem_definedNamesAll {n : String} {a : Action} {acts : List Action} (ha : a ∈ acts)
    (hn : n ∈ a.definedNames) : n ∈ definedNamesAll acts := by
  induction acts with
  | nil => cases ha
  | cons b rest ih =>
      rw [definedNamesAll]
      rcases List.mem_cons.mp ha with rfl | ha
      · exact List.mem_append_left _ hn
      · exact List.mem_append_right _ (ih ha)

namespace Call

variable {k : Call}

/-- An action that belongs to the call is the synthetic label, the assignment to
a parameter, or part of the body. -/
theorem mem_own {a : Action} (h : a ∈ k.own) :
    a.op = .label (anchorName k.definition.name k.seq) true ∨
      (∃ p ∈ k.definition.params, a.op = .set (k.renames.symbol p)) ∨
      ∃ b ∈ k.definition.body, a.op = k.renames.op b.op := by
  rcases List.mem_cons.mp h with rfl | h
  · exact .inl rfl
  rcases List.mem_append.mp h with h | h
  · obtain ⟨p, hp, rfl⟩ := List.mem_map.mp h
    exact .inr (.inl ⟨p, hp, rfl⟩)
  · obtain ⟨b, hb, rfl⟩ := List.mem_map.mp h
    exact .inr (.inr ⟨b, hb, rfl⟩)

theorem anchor_mem_names : anchorName k.definition.name k.seq ∈ k.names := List.mem_cons_self

theorem symbol_mem_names {name : String} (h : name ∈ k.definition.defined) :
    k.renames.symbol name ∈ k.names :=
  List.mem_cons_of_mem _ (List.mem_map_of_mem h)

theorem param_mem_names {p : String} (h : p ∈ k.definition.params) :
    k.renames.symbol p ∈ k.names :=
  symbol_mem_names (List.mem_append_left _ h)

/-- What the body writes belongs to the call, apart from the program counter. -/
theorem body_written {b : Action} (hb : b ∈ k.definition.body) {name : String}
    (h : (k.renames.op b.op).written? = some name) : name ∈ k.names ∨ name = pcName := by
  have hdefined : ∀ n, n ∈ b.definedNames → k.renames.symbol n ∈ k.names :=
    fun n hn => symbol_mem_names (List.mem_append_right _ (mem_definedNamesAll hb hn))
  obtain ⟨loc, op, x⟩ := b
  cases op with
  | set n =>
      cases h
      by_cases hn : n = pcName
      · subst hn
        -- a macro may bind `@` itself; otherwise the renaming leaves it alone
        by_cases hmem : pcName ∈ k.definition.defined
        · exact .inl (symbol_mem_names hmem)
        · exact .inr (WrittenMacro.symbol_of_not_mem k.seq k.ids hmem)
      · refine .inl (hdefined n ?_)
        simp [Action.definedNames, Op.definedNames, hn]
  | label n synthetic =>
      cases h
      exact .inl (hdefined n (by simp [Action.definedNames, Op.definedNames]))
  | _ => cases h

/-- What belongs to a call writes its symbols and the program counter only. -/
theorem own_written {a : Action} (ha : a ∈ k.own) {name : String}
    (h : a.op.written? = some name) : name ∈ k.names ∨ name = pcName := by
  rcases mem_own ha with hop | ⟨p, hp, hop⟩ | ⟨b, hb, hop⟩
  · rw [hop] at h
    cases h
    exact .inl anchor_mem_names
  · rw [hop] at h
    cases h
    exact .inl (param_mem_names hp)
  · rw [hop] at h
    exact body_written hb h

/-- What belongs to a call opens no scope: its first label is synthetic, and the
others have a parent label in their names. -/
theorem own_scope {a : Action} (ha : a ∈ k.own) (parent : String) :
    scopeAfter parent a = parent := by
  have hlabel : ∀ name synthetic, a.op = .label name synthetic →
      isParentLabel name synthetic = false := by
    intro name synthetic hlabel
    rcases mem_own ha with hop | ⟨p, -, hop⟩ | ⟨b, hb, hop⟩
    · rw [hlabel] at hop
      cases hop
      rfl
    · rw [hlabel] at hop
      cases hop
    · rw [hlabel] at hop
      obtain ⟨loc, op, x⟩ := b
      cases op with
      | label n s =>
          cases hop
          have hdefined : n ∈ k.definition.defined := by
            refine List.mem_append_right _ (mem_definedNamesAll hb ?_)
            simp [Action.definedNames, Op.definedNames]
          -- a name of the call carries its anchor, so it is qualified and opens no scope
          have hname : isQualifiedName (k.renames.symbol n) = true := by
            unfold isQualifiedName renames
            rw [WrittenMacro.symbol_of_mem k.seq k.ids hdefined, toList_private]
            have hmark := hasInfix_localMark
              (k.definition.name.toList ++ '$' :: (Text.decimal k.seq).toList)
              (MacroDef.hide n).toList
            simpa using hmark
          unfold isParentLabel
          show (_ && !isQualifiedName (k.renames.symbol n)) = false
          rw [hname, Bool.not_true, Bool.and_false]
      | _ => cases hop
  unfold scopeAfter
  split
  · rename_i name synthetic hop
    rw [hlabel name synthetic hop, if_neg Bool.false_ne_true]
  · rfl

/-- What belongs to a call works with its symbols, and with such as source text
can have. -/
theorem own_symbolNames (hk : k.definition.Sound) {a : Action} (ha : a ∈ k.own) {n : String}
    (hn : n ∈ a.op.symbolNames) : n ∈ k.names ∨ IsWritten n := by
  rcases mem_own ha with hop | ⟨p, hp, hop⟩ | ⟨b, hb, hop⟩
  · rw [hop] at hn
    obtain rfl := List.mem_singleton.mp hn
    exact .inl anchor_mem_names
  · rw [hop] at hn
    obtain rfl := List.mem_singleton.mp hn
    exact .inl (param_mem_names hp)
  · rw [hop, Renaming.symbolNames_op] at hn
    obtain ⟨m, hm, rfl⟩ := List.mem_map.mp hn
    -- a name that the macro defines is renamed, any other one stays as written
    by_cases hdefined : m ∈ k.definition.defined
    · exact .inl (symbol_mem_names hdefined)
    · right
      show IsWritten ((k.definition.callRenaming k.seq k.ids).symbol m)
      rw [WrittenMacro.symbol_of_not_mem k.seq k.ids hdefined]
      obtain ⟨loc, op, x⟩ := b
      refine hk.written m (List.mem_append_left _ (List.mem_append_right _ ?_))
      exact mem_symbolNamesAll_iff.mpr ⟨_, hb, hm⟩

end Call

/-! ## What does not -/

/-- The names of an action that stands in the source text itself. -/
theorem symbolNames_of_resolved {acts : List Action} (h : WrittenClauses Op.Resolved acts)
    {a : Action} (ha : a ∈ acts) (hdefine : a.op.kind ≠ .defineMacro)
    (hcall : a.op.kind ≠ .callMacro) {n : String} (hn : n ∈ a.op.symbolNames) : IsWritten n := by
  rcases h.mem ha with ⟨e, he, ha⟩ | ⟨-, hop⟩
  · obtain ⟨loc, op, x⟩ := a
    exact he.symbolNames n (mem_symbolNamesAll_iff.mpr ⟨_, ha, hn⟩)
  · rcases hop with hinner | hmember | ⟨name, bytes, hbytes⟩
    · exact hinner.symbolNames n hn
    · exact (hmember.kind.elim hdefine hcall).elim
    · rw [hbytes] at hn
      cases hn

/-- The arguments of calls are expressions over written names. -/
theorem args_of_resolved {acts : List Action} (h : WrittenClauses Op.Resolved acts) {a : Action}
    (ha : a ∈ acts) {name : String} {args : List (List Action)} (hop : a.op = .callMacro name args) :
    ∀ arg ∈ args, IsExprOver IsWritten arg := by
  rcases h.mem ha with ⟨e, he, ha⟩ | ⟨-, hresolved⟩
  · have hcomputes := he.isExpr.computes a ha
    rw [hop] at hcomputes
    cases hcomputes
  · rw [hop] at hresolved
    obtain hinner | hmacro | ⟨_, _, hbytes⟩ := hresolved
    · cases hinner
    · cases hmacro with
      | call _ hargs => exact hargs
    · cases hbytes

namespace Expanded

variable {macros : List WrittenMacro} {i j : Ids} {acts out : List Action} {calls : List Call}

/-- The place of a call, around which other actions and calls stand. -/
theorem around (h : Expanded macros i acts calls out j) {k : Call} (hk : k ∈ calls) :
    ∃ before after, out = before ++ k.actions ++ after ∧ ∀ a ∈ before ++ after,
      (a ∈ acts ∧ a.op.kind ≠ .defineMacro ∧ a.op.kind ≠ .callMacro) ∨
        ∃ l ∈ calls, l.seq ≠ k.seq ∧ a ∈ l.actions := by
  induction h with
  | nil => cases hk
  | @keep _ _ b acts calls out hdefine hcall _ ih =>
      obtain ⟨before, after, rfl, hothers⟩ := ih hk
      refine ⟨b :: before, after, rfl, List.forall_mem_cons.mpr ⟨?_, fun a ha => ?_⟩⟩
      · exact .inl ⟨List.mem_cons_self, hdefine, hcall⟩
      · exact (hothers a ha).imp_left fun h => ⟨List.mem_cons_of_mem _ h.1, h.2⟩
  | define _ _ ih =>
      obtain ⟨before, after, rfl, hothers⟩ := ih hk
      refine ⟨before, after, rfl, fun a ha => ?_⟩
      exact (hothers a ha).imp_left fun h => ⟨List.mem_cons_of_mem _ h.1, h.2⟩
  | @call _ _ b acts l calls out hop hloc hmem hcount hseq hids h ih =>
      -- calls are numbered in order, so this one differs from all that follow
      have hlater : ∀ l' ∈ calls, l.seq < l'.seq :=
        (List.pairwise_cons.mp (Expanded.call hop hloc hmem hcount hseq hids h).seq_between.2).1
      rcases List.mem_cons.mp hk with rfl | hk
      · refine ⟨[], out, rfl, fun a ha => ?_⟩
        rcases h.mem ha with ⟨ha, hkinds⟩ | ⟨l', hl', ha⟩
        · exact .inl ⟨List.mem_cons_of_mem _ ha, hkinds⟩
        · exact .inr ⟨l', List.mem_cons_of_mem _ hl', Nat.ne_of_gt (hlater l' hl'), ha⟩
      · obtain ⟨before, after, rfl, hothers⟩ := ih hk
        refine ⟨l.actions ++ before, after, by simp, fun a ha => ?_⟩
        rw [List.append_assoc] at ha
        rcases List.mem_append.mp ha with ha | ha
        · exact .inr ⟨l, List.mem_cons_self, Nat.ne_of_lt (hlater k hk), ha⟩
        · rcases hothers a ha with ⟨ha, hkinds⟩ | ⟨l', hl', hne, ha⟩
          · exact .inl ⟨List.mem_cons_of_mem _ ha, hkinds⟩
          · exact .inr ⟨l', List.mem_cons_of_mem _ hl', hne, ha⟩

/-- Each call of the program is expanded once. -/
theorem length_calls (h : Expanded macros i acts calls out j) :
    calls.length = acts.countP fun a => a.op.kind == .callMacro := by
  induction h with
  | nil => rfl
  | keep _ hcall _ ih => rw [ih, List.countP_cons_of_neg (by simpa using hcall)]
  | define hdefine _ ih =>
      rw [ih, List.countP_cons_of_neg]
      rw [hdefine]
      exact Bool.false_ne_true
  | call hop _ _ _ _ _ _ ih =>
      rw [List.length_cons, ih, List.countP_cons_of_pos]
      rw [hop]
      rfl

end Expanded

/-! ## Names of an expanded program -/

section

variable {included expanded : List Action} {calls : List Call} {i j : Ids}
  (hresolved : WrittenClauses Op.Resolved included)
  (hexpanded : Expanded (writtenMacros included) i included calls expanded j)

include hresolved hexpanded

theorem sound_of_mem_calls {k : Call} (hk : k ∈ calls) : k.definition.Sound :=
  sound_of_resolved hresolved _ (hexpanded.of_mem_calls hk).1

/-- The arguments of a call are the caller's, and so are the names in them. -/
theorem symbolNames_of_mem_args {k : Call} (hk : k ∈ calls) {arg : List Action} (harg : arg ∈ k.args)
    {a : Action} (ha : a ∈ arg) {n : String} (hn : n ∈ a.op.symbolNames) : IsWritten n := by
  obtain ⟨b, hb, hop, -⟩ := (hexpanded.of_mem_calls hk).2
  have hexpr := args_of_resolved hresolved hb hop arg harg
  obtain ⟨loc, op, x⟩ := a
  exact hexpr.symbolNames n (mem_symbolNamesAll_iff.mpr ⟨_, ha, hn⟩)

/-- An action works with the symbols of its call, if it belongs to one, and with
such as source text can have. -/
theorem symbolNames_of_mem_actions {k : Call} (hk : k ∈ calls) {a : Action} (ha : a ∈ k.actions)
    {n : String} (hn : n ∈ a.op.symbolNames) : n ∈ k.names ∨ IsWritten n := by
  rcases Call.mem_actions ha with hown | ⟨arg, harg, ha⟩
  · exact Call.own_symbolNames (sound_of_mem_calls hresolved hexpanded hk) hown hn
  · exact .inr (symbolNames_of_mem_args hresolved hexpanded hk harg ha hn)

/-- Parent labels have names as source text can have them. -/
theorem plain_scopeAfter {a : Action} (ha : a ∈ expanded) {parent : String} (h : Plain parent) :
    Plain (scopeAfter parent a) := by
  have hwritten : (∀ n ∈ a.op.symbolNames, IsWritten n) → Plain (scopeAfter parent a) := by
    intro hnames
    unfold scopeAfter
    split
    · rename_i name synthetic hop
      split
      · exact (hnames name (by rw [hop]; exact List.mem_singleton_self _)).plain
      · exact h
    · exact h
  rcases hexpanded.mem ha with ⟨ha, hdefine, hcall⟩ | ⟨k, hk, ha⟩
  · exact hwritten fun n hn => symbolNames_of_resolved hresolved ha hdefine hcall hn
  · rcases Call.mem_actions ha with hown | ⟨arg, harg, ha⟩
    · rwa [Call.own_scope hown]
    · exact hwritten fun n hn => symbolNames_of_mem_args hresolved hexpanded hk harg ha hn

end

namespace Gather

variable (labels : List (String × Nat)) (a : Action)

theorem symbolNames_settle : (settle labels a).op.symbolNames = a.op.symbolNames := by
  obtain ⟨loc, op, x⟩ := a
  cases op <;> rfl

theorem written?_settle : (settle labels a).op.written? = a.op.written? := by
  obtain ⟨loc, op, x⟩ := a
  cases op <;> rfl

theorem scopeAfter_settle (parent : String) :
    scopeAfter parent (settle labels a) = scopeAfter parent a := by
  obtain ⟨loc, op, x⟩ := a
  cases op <;> rfl

end Gather

/-! ## Runs -/

namespace Code

/-- The parent labels below which passes of the code come to its actions. -/
def Scopes (code : Code) (parent : String) : Prop :=
  ∃ pass e n k d, code.Visits pass e n k d ∧ d.parent = parent

/-- Execution from some actions on comes to others, after it has run the actions
`past`. -/
inductive ArrivesAfter (code : Code) (n : Nat) (k : List Action) (e : Engine) :
    List Action → Nat → List Action → Engine → Prop
  | start : ArrivesAfter code n k e [] n k e
  | next {past : List Action} {m : Nat} {a : Action} {l : List Action} {d d' : Engine} :
      ArrivesAfter code n k e past m (a :: l) d → a.run (d.atAction a) = .ok () d' →
      d'.jump = none → ArrivesAfter code n k e (past ++ [a]) m l d'
  | jump {past : List Action} {m : Nat} {a : Action} {j : Int} {l l' : List Action}
      {d d' : Engine} :
      ArrivesAfter code n k e past (m + 1) (a :: l) d → a.run (d.atAction a) = .ok () d' →
      d'.jump = some j → code.target? j = some l' →
      ArrivesAfter code n k e (past ++ [a]) m l' d'.afterJump

theorem ArrivesAfter.arrives {code : Code} {n m : Nat} {k l past : List Action} {e d : Engine}
    (h : code.ArrivesAfter n k e past m l d) : code.Arrives n k e m l d := by
  induction h with
  | start => exact .start
  | next _ hrun hj ih => exact .next ih hrun hj
  | jump _ hrun hj ht ih => exact .jump ih hrun hj ht

/-- Wherever execution comes to, it has run some actions before. -/
theorem Arrives.exists_past {code : Code} {n m : Nat} {k l : List Action} {e d : Engine}
    (h : code.Arrives n k e m l d) : ∃ past, code.ArrivesAfter n k e past m l d := by
  induction h with
  | start => exact ⟨[], .start⟩
  | next _ hrun hj ih =>
      obtain ⟨past, hpast⟩ := ih
      exact ⟨_, .next hpast hrun hj⟩
  | jump _ hrun hj ht ih =>
      obtain ⟨past, hpast⟩ := ih
      exact ⟨_, .jump hpast hrun hj ht⟩

section

variable {seq : List Action} {code : Code} {pass : Pass} {e d : Engine} {n : Nat}
  {k past : List Action} (hcode : ofActions seq = .ok code) (hspeaks : ∀ a ∈ seq, a.Speaks)

include hcode hspeaks

/-- What actions do to the scope is all that happens to it. -/
theorem parent_induction {P : String → Prop} (hstart : P "")
    (hstep : ∀ a ∈ seq, ∀ parent, P parent → P (scopeAfter parent a))
    (h : code.Visits pass e n k d) : P d.parent := by
  induction h with
  | start => exact hstart
  | @next _ a _ _ d' hvisits hrun _ ih =>
      have hmem := (mem_of_visits hcode hvisits).1
      rw [Action.run_parent (hspeaks a hmem) hrun]
      exact hstep a hmem _ ih
  | @jump _ a _ _ _ _ d' hvisits hrun _ _ ih =>
      have hmem := (mem_of_visits hcode hvisits).1
      show P d'.parent
      rw [Action.run_parent (hspeaks a hmem) hrun]
      exact hstep a hmem _ ih

/-- The scope is that of the latest parent label, whatever actions that open no
scope are left out. -/
theorem parent_after {keep : Action → Bool}
    (hkeep : ∀ a ∈ seq, keep a = false → ∀ parent, scopeAfter parent a = parent)
    (h : code.ArrivesAfter jumpLimit code.actions (code.start pass e) past n k d) :
    d.parent = nearestParent (past.filter keep) := by
  -- an action left out leaves the scope alone, so leaving it out changes nothing
  have hstep : ∀ {past m a l c c'},
      code.ArrivesAfter jumpLimit code.actions (code.start pass e) past m (a :: l) c →
      a.run (c.atAction a) = .ok () c' → c.parent = nearestParent (past.filter keep) →
      c'.parent = nearestParent ((past ++ [a]).filter keep) := by
    intro past m a l c c' harrive hrun hparent
    have hmem := (mem_of_visits hcode harrive.arrives).1
    rw [Action.run_parent (hspeaks a hmem) hrun, List.filter_append]
    show scopeAfter c.parent a = _
    cases ha : keep a with
    | true =>
        rw [List.filter_cons_of_pos ha, List.filter_nil, nearestParent_snoc, hparent]
    | false =>
        rw [List.filter_cons_of_neg (by rw [ha]; exact Bool.false_ne_true), List.filter_nil,
          List.append_nil, hkeep a hmem ha, hparent]
  induction h with
  | start => rfl
  | next harrive hrun _ ih => exact hstep harrive hrun ih
  | @jump _ _ _ _ _ _ _ d' harrive hrun _ _ ih =>
      show d'.parent = _
      exact hstep harrive hrun ih

end

end Code

/-! ## Calls -/

/-- The full name is that of a symbol of the call, below one of the parent labels
that there are. -/
def Call.Owns (k : Call) (code : Code) (full : String) : Prop :=
  ∃ name ∈ k.names, ∃ parent, code.Scopes parent ∧ qualify name parent = .ok full

/-- A call stays apart from the rest of the actions that are prepared for
execution. -/
structure Call.Isolated (k : Call) (labels : List (String × Nat)) (seq : List Action)
    (code : Code) : Prop where
  /-- What belongs to the call opens no scope, and writes nothing but symbols of
  the call and the program counter. -/
  own : ∀ a ∈ k.own.map (Gather.settle labels), ∀ pass e n l d d',
    code.Visits pass e n (a :: l) d → a.run (d.atAction a) = .ok () d' →
      d'.parent = d.parent ∧ ∀ full, d'.content full ≠ d.content full →
        full = pcName ∨ ∃ name ∈ k.names, qualify name d.parent = .ok full
  /-- What stands around the call, and its arguments, neither write nor even name
  a symbol of the call. -/
  others : ∃ before after, seq = before ++ k.actions.map (Gather.settle labels) ++ after ∧
    ∀ a ∈ before ++ k.args.flatten ++ after, ∀ pass e n l d d',
      code.Visits pass e n (a :: l) d → a.run (d.atAction a) = .ok () d' →
        ∀ full, k.Owns code full → d'.content full = d.content full ∧
          ∀ name ∈ a.op.symbolNames, qualify name d.parent ≠ .ok full

/-- Names of the source and of other calls are none of this call. -/
theorem Call.foreign {k : Call} {name : String}
    (hk : k.definition.Sound) (hname : IsWritten name ∨
      ∃ l : Call, l.definition.Sound ∧ l.seq ≠ k.seq ∧ name ∈ l.names) :
    Unscoped name ∧ name ∉ k.names := by
  rcases hname with hwritten | ⟨l, hl, hne, hmem⟩
  · refine ⟨hwritten.plain.unscoped, fun hmem => ?_⟩
    exact WrittenMacro.not_plain_of_mem_freshNames hmem hwritten.plain
  · refine ⟨WrittenMacro.unscoped_of_mem_freshNames hl hmem, fun hmem' => ?_⟩
    exact WrittenMacro.disjoint_freshNames hl hk hne l.ids k.ids hmem hmem'

section

variable {included expanded : List Action} {calls : List Call} {i j : Ids} {code : Code}
  {labels : List (String × Nat)}
  (hresolved : WrittenClauses Op.Resolved included)
  (hexpanded : Expanded (writtenMacros included) i included calls expanded j)
  (hcode : Code.ofActions (expanded.map (Gather.settle labels)) = .ok code)

include hresolved hexpanded

theorem speaks_settled (labels : List (String × Nat)) :
    ∀ a ∈ expanded.map (Gather.settle labels), a.Speaks :=
  speaks_of_clauses (hexpanded.settled_clauses hresolved labels)

include hcode

/-- Wherever a pass comes to, the parent label has a name of the source. -/
theorem Code.plain_of_visits {pass : Pass} {e d : Engine} {n : Nat} {k : List Action}
    (h : code.Visits pass e n k d) : Plain d.parent := by
  refine Code.parent_induction hcode (speaks_settled hresolved hexpanded labels) ?_ ?_ h
  · exact List.not_mem_nil
  · intro a ha parent hparent
    obtain ⟨b, hb, rfl⟩ := List.mem_map.mp ha
    rw [Gather.scopeAfter_settle]
    exact plain_scopeAfter hresolved hexpanded hb hparent

/-- The symbols of a call are named by nothing that is foreign to it. -/
theorem Call.Owns.ne_foreign {k : Call} (hk : k ∈ calls) {full : String} (howns : k.Owns code full)
    {name parent : String} (hparent : Plain parent) (hname : Unscoped name ∧ name ∉ k.names) :
    qualify name parent ≠ .ok full := by
  obtain ⟨own, hown, scope, ⟨pass, e, n, l, d, hvisits, rfl⟩, hq⟩ := howns
  have hsound := sound_of_mem_calls hresolved hexpanded hk
  have hunscoped : Unscoped own := WrittenMacro.unscoped_of_mem_freshNames hsound hown
  have hscope := Code.plain_of_visits hresolved hexpanded hcode hvisits
  intro h
  obtain rfl := qualify_injective hparent hscope hname.1 hunscoped h hq
  exact hname.2 hown

/-- What belongs to a call keeps the scope and all symbols but its own. -/
theorem Call.own_isolated {k : Call} {a : Action}
    (ha : a ∈ k.own.map (Gather.settle labels)) {pass : Pass} {e d d' : Engine} {n : Nat}
    {l : List Action} (hvisits : code.Visits pass e n (a :: l) d)
    (hrun : a.run (d.atAction a) = .ok () d') :
    d'.parent = d.parent ∧ ∀ full, d'.content full ≠ d.content full →
      full = pcName ∨ ∃ name ∈ k.names, qualify name d.parent = .ok full := by
  have hspeaks := speaks_settled hresolved hexpanded labels a (Code.mem_of_visits hcode hvisits).1
  obtain ⟨b, hb, rfl⟩ := List.mem_map.mp ha
  refine ⟨?_, fun full hchanged => ?_⟩
  · rw [Action.run_parent hspeaks hrun, Gather.scopeAfter_settle, Call.own_scope hb]
    rfl
  · by_contra hnone
    obtain ⟨hpc, hnames⟩ := not_or.mp hnone
    refine hchanged (Action.run_content hspeaks hrun hpc fun name hwritten hq => ?_)
    rw [Gather.written?_settle] at hwritten
    rcases Call.own_written hb hwritten with hmem | rfl
    · exact hnames ⟨name, hmem, hq⟩
    · cases hq
      exact hpc rfl

/-- What works with foreign names only keeps the symbols of a call. -/
theorem Call.others_isolated {k : Call} (hk : k ∈ calls) {a : Action}
    (ha : ∀ name ∈ a.op.symbolNames, Unscoped name ∧ name ∉ k.names) {pass : Pass}
    {e d d' : Engine} {n : Nat} {l : List Action} (hvisits : code.Visits pass e n (a :: l) d)
    (hrun : a.run (d.atAction a) = .ok () d') {full : String} (howns : k.Owns code full) :
    d'.content full = d.content full ∧
      ∀ name ∈ a.op.symbolNames, qualify name d.parent ≠ .ok full := by
  have hspeaks := speaks_settled hresolved hexpanded labels a (Code.mem_of_visits hcode hvisits).1
  have hparent := Code.plain_of_visits hresolved hexpanded hcode hvisits
  -- an unscoped name that the call does not bind is qualified to none of its symbols
  have hforeign : ∀ {name}, Unscoped name ∧ name ∉ k.names → qualify name d.parent ≠ .ok full :=
    fun h => howns.ne_foreign hresolved hexpanded hcode hk hparent h
  have hpc : full ≠ pcName := by
    rintro rfl
    have hsound := sound_of_mem_calls hresolved hexpanded hk
    exact hforeign (Call.foreign hsound (.inl isWritten_pcName)) rfl
  refine ⟨Action.run_content hspeaks hrun hpc fun name hwritten => ?_, fun name hmem => ?_⟩
  · exact hforeign (ha name (Op.mem_symbolNames_of_written? hwritten))
  · exact hforeign (ha name hmem)

/-- Each call stays apart. -/
theorem Call.isolated {k : Call} (hk : k ∈ calls) :
    k.Isolated labels (expanded.map (Gather.settle labels)) code where
  own _ ha _ _ _ _ _ _ hvisits hrun :=
    Call.own_isolated hresolved hexpanded hcode ha hvisits hrun
  others := by
    have hsound := sound_of_mem_calls hresolved hexpanded hk
    obtain ⟨before, after, heq, hothers⟩ := hexpanded.around hk
    -- the actions before and behind come from the program or from another call
    have haround : ∀ b ∈ before ++ after, ∀ name ∈ b.op.symbolNames,
        Unscoped name ∧ name ∉ k.names := by
      intro b hb name hname
      refine Call.foreign hsound ?_
      rcases hothers b hb with ⟨hb, hdefine, hcall⟩ | ⟨l, hl, hne, hb⟩
      · exact .inl (symbolNames_of_resolved hresolved hb hdefine hcall hname)
      · rcases symbolNames_of_mem_actions hresolved hexpanded hl hb hname with hmem | hwritten
        · exact .inr ⟨l, sound_of_mem_calls hresolved hexpanded hl, hne, hmem⟩
        · exact .inl hwritten
    refine ⟨before.map (Gather.settle labels), after.map (Gather.settle labels), ?_, ?_⟩
    · rw [heq, List.map_append, List.map_append]
    · intro a ha pass e n l d d' hvisits hrun full howns
      refine Call.others_isolated hresolved hexpanded hcode hk (fun name hname => ?_) hvisits hrun howns
      rw [List.append_assoc, List.mem_append, List.mem_append] at ha
      rcases ha with ha | ha | ha
      · obtain ⟨b, hb, rfl⟩ := List.mem_map.mp ha
        rw [Gather.symbolNames_settle] at hname
        exact haround b (List.mem_append_left _ hb) name hname
      · obtain ⟨arg, harg, ha⟩ := List.mem_flatten.mp ha
        exact Call.foreign hsound (.inl
          (symbolNames_of_mem_args hresolved hexpanded hk harg ha hname))
      · obtain ⟨b, hb, rfl⟩ := List.mem_map.mp ha
        rw [Gather.symbolNames_settle] at hname
        exact haround b (List.mem_append_right _ hb) name hname

/-- Names resolve as if what belongs to calls were absent. -/
theorem parent_without_calls {keep : Action → Bool}
    (hkeep : ∀ a ∈ expanded.map (Gather.settle labels), keep a = false →
      ∃ k ∈ calls, a ∈ k.own.map (Gather.settle labels))
    {pass : Pass} {e d : Engine} {past : List Action} {n : Nat} {a : Action} {l : List Action}
    (h : code.ArrivesAfter Code.jumpLimit code.actions (code.start pass e) past n (a :: l) d)
    {v : Visit} (hv : v ∈ a.visits (d.atAction a)) :
    v.engine.parent = nearestParent (past.filter keep) := by
  have hspeaks := speaks_settled hresolved hexpanded labels
  have hmem := (Code.mem_of_visits hcode h.arrives).1
  rw [(Action.visits_parent (hspeaks a hmem) hv).1]
  show d.parent = _
  refine Code.parent_after hcode hspeaks (fun b hb hdropped parent => ?_) h
  obtain ⟨k, -, hown⟩ := hkeep b hb hdropped
  obtain ⟨c, hc, rfl⟩ := List.mem_map.mp hown
  rw [Gather.scopeAfter_settle, Call.own_scope hc]

end

/-- Macro calls interfere neither with their callers nor with each other.  In
every pass over a program that is read from source text, what belongs to a call
leaves the parent label as it is and writes nothing but symbols of the call and
the program counter, and nothing else ever writes or names these symbols.  So
wherever a pass comes to, the arguments of calls included, names are resolved
below the parent label that there would be without any of the calls. -/
theorem Assembler.calls_isolated (asm : Assembler) (r : Reader) (file : String)
    (text : List Text.Glyph) (actions : List Action) (t t' : Session)
    (hmain : r.actions file text t = .ok actions t')
    (hinc : ∀ inc, asm.includer = some inc → inc.Lowered)
    (included expanded seq : List Action) (e₀ : Engine) (code : Code)
    (hincluded : Yields (asm.resolveIncludes includeDepth actions) included)
    (hexpanded : Yields (asm.expandMacros included) expanded)
    (hgathered : Yields (asm.gather expanded) (seq, e₀))
    (hcode : Code.ofActions seq = .ok code) :
    ∃ calls labels i j, Expanded (writtenMacros included) i included calls expanded j ∧
      seq = expanded.map (Gather.settle labels) ∧
      (∀ k ∈ calls, k.Isolated labels seq code) ∧
      ∀ keep : Action → Bool,
        (∀ a ∈ seq, keep a = false → ∃ k ∈ calls, a ∈ k.own.map (Gather.settle labels)) →
        ∀ pass e past n a l d,
          code.ArrivesAfter Code.jumpLimit code.actions (code.start pass e) past n (a :: l) d →
          ∀ v ∈ a.visits (d.atAction a), v.engine.parent = nearestParent (past.filter keep) := by
  have hlowered : Lowered actions := ⟨r, file, text, t, t', hmain⟩
  obtain ⟨s₁, s₂, hincluded⟩ := hincluded
  obtain ⟨s₃, s₄, hexpanded⟩ := hexpanded
  have hresolved := resolveIncludes_resolved hinc includeDepth hlowered.written hincluded
  obtain ⟨calls, hcalls⟩ := expandMacros_eq_ok (sound_of_resolved hresolved) hexpanded
  obtain ⟨labels, hdeclare⟩ := yields_of_gather hgathered
  obtain ⟨rfl, -⟩ := Gather.declareAll_eq_settle hdeclare
  refine ⟨calls, labels, s₃.ids, s₄.ids, hcalls, rfl, fun k hk => ?_, ?_⟩
  · exact Call.isolated hresolved hcalls hcode hk
  · intro keep hkeep pass e past n a l d harrives v hv
    exact parent_without_calls hresolved hcalls hcode hkeep harrives hv

/-- Two macros, one with a local name, that are called below a label with local
names. -/
def callsSource : List Text.Glyph :=
  Text.Glyph.ofString "@ = $1000 .MACRO m, p _t = p * 2 here: .DB _t, p .ENDMACRO
    .MACRO _n x = 1 .ENDMACRO main: _t = 4 .CALL m, _t .CALL _n .DB _t"

/-- Behind both calls local names still belong to the label before them. -/
theorem Assembler.calls_isolated_callsSource :
    ∃ actions t' included expanded seq e₀ code, ∃ (calls : List Call) (labels : List (String × Nat)),
      ({} : Reader).actions "main" callsSource {} = .ok actions t' ∧
      Yields (({} : Assembler).resolveIncludes includeDepth actions) included ∧
      Yields (({} : Assembler).expandMacros included) expanded ∧
      Yields (({} : Assembler).gather expanded) (seq, e₀) ∧ Code.ofActions seq = .ok code ∧
      calls.length = 2 ∧ (∀ k ∈ calls, k.Isolated labels seq code) ∧
      ∃ past n a l d, code.ArrivesAfter Code.jumpLimit code.actions (code.start .warmUp e₀) past n
          (a :: l) d ∧ l.length = 1 ∧ nearestParent past = "MAIN" ∧
        qualify "_T" d.parent = .ok "MAIN$$_T" := by
  have hrun : isOkWith (fun actions t' => isOkWith (fun included s₁ =>
      included.countP (fun a => a.op.kind == .callMacro) == 2 && isOkWith (fun expanded s₂ =>
        isOkWith (fun p _ => (Code.ofActions p.1).toOption.any fun code =>
          code.actions.length == 22 && (code.walk 20 Code.jumpLimit code.actions
            (code.start .warmUp p.2)).any fun w => w.2.1.length == 2 && w.2.2.parent == "MAIN")
          (({} : Assembler).gather expanded s₂)) (({} : Assembler).expandMacros included s₁))
      (({} : Assembler).resolveIncludes includeDepth actions t'))
      (({} : Reader).actions "main" callsSource {}) = true := by
    decide +kernel
  obtain ⟨actions, t', hmain, hrun⟩ := exists_of_isOkWith hrun
  obtain ⟨included, s₁, hincluded, hrun⟩ := exists_of_isOkWith hrun
  obtain ⟨hcount, hrun⟩ := Bool.and_eq_true_iff.mp hrun
  obtain ⟨expanded, s₂, hexpanded, hrun⟩ := exists_of_isOkWith hrun
  obtain ⟨⟨seq, e₀⟩, s₃, hgathered, hrun⟩ := exists_of_isOkWith hrun
  obtain ⟨code, hcode, hrun⟩ := (Option.any_eq_true _ _).mp hrun
  obtain ⟨hlength, hwalk⟩ := Bool.and_eq_true_iff.mp hrun
  have hcode : Code.ofActions seq = .ok code := by
    revert hcode
    show (Code.ofActions seq).toOption = some code → _
    cases Code.ofActions seq with
    | error err => exact nofun
    | ok code' =>
        rintro ⟨⟩
        rfl
  obtain ⟨calls, labels, i, j, hcalls, rfl, hisolated, hparent⟩ := calls_isolated {} {} "main"
    callsSource actions {} t' hmain nofun included expanded seq e₀ code ⟨_, _, hincluded⟩
    ⟨_, _, hexpanded⟩ ⟨_, _, hgathered⟩ hcode
  obtain ⟨n, d, hvisits, hmain'⟩ := Code.Visits.of_walk hcode (·.parent == "MAIN") hwalk
  obtain ⟨past, hpast⟩ := hvisits.exists_past
  obtain hmain' : d.parent = "MAIN" := by simpa using hmain'
  have hleft : (code.actions.drop (code.actions.length - 2)).length = 2 := by
    rw [List.length_drop, beq_iff_eq.mp hlength]
  obtain ⟨a, b, hplace⟩ := List.length_eq_two.mp hleft
  rw [hplace] at hpast
  have hnearest := hparent (fun _ => true) (fun _ _ h => by cases h) .warmUp e₀ past n a [b] d hpast
    ⟨a, d.atAction a⟩ (by obtain ⟨loc, op, x⟩ := a; exact List.mem_cons_self)
  rw [List.filter_true] at hnearest
  refine ⟨actions, t', included, expanded, _, e₀, code, calls, labels, hmain, ⟨_, _, hincluded⟩,
    ⟨_, _, hexpanded⟩, ⟨_, _, hgathered⟩, hcode, ?_, hisolated, past, n, a, [b], d, hpast, rfl,
    hnearest.symm.trans hmain', ?_⟩
  · rw [hcalls.length_calls]
    simpa using hcount
  · rw [hmain']
    rfl

end Mos6510
