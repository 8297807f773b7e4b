import Mos6510.Proofs.Expansion

/-!
# The clauses of a sequence

All stages keep clauses.  So what is prepared for execution are expressions and
actions that take their values, as they were in the source text
(`sequence_clauses`).  The expressions of macro bodies have other names and
marks by then, which `IsEval` does not look at.
-/

namespace Mos6510

open Outcome

/-- The actions compute what an expression computes. -/
def IsEval (acts : List Action) : Prop :=
  ∃ x : Expr, acts.map Action.op = x.actions.map Action.op

/-- What the action of a clause is once all stages are through. -/
structure Op.Settled (op : Op) : Prop where
  acts : op.computes = false
  onlyTargets : op.isMeta = true → op.kind = .target
  args : ∀ level formatted args, op = .message level formatted args →
    ∀ arg ∈ args, IsMessageArg arg

/-- What it is before `.LABEL` and `.GOTO` are resolved. -/
def Op.Unsettled (op : Op) : Prop :=
  op.Settled ∨ (∃ name, op = .metaLabel name) ∨ ∃ name, op = .goto name

theorem IsExprOver.isEval {N : String → Prop} {acts : List Action} (h : IsExprOver N acts) :
    IsEval acts := by
  obtain ⟨x, rfl, -⟩ := h
  exact ⟨x, rfl⟩

theorem IsEval.computes {acts : List Action} (h : IsEval acts) : Computes acts := by
  obtain ⟨x, hx⟩ := h
  intro a ha
  have hmem : a.op ∈ x.actions.map Action.op := hx ▸ List.mem_map_of_mem ha
  obtain ⟨b, hb, hop⟩ := List.mem_map.mp hmem
  rw [← hop]
  exact x.actions_compute b hb

theorem IsWrittenArg.isMessageArg {acts : List Action} (h : IsWrittenArg acts) :
    IsMessageArg acts :=
  h.imp_right IsExprOver.isExpr

namespace Op

theorem Settled.of_not_message {op : Op} (hacts : op.computes = false)
    (htargets : op.isMeta = true → op.kind = .target) (hmsg : op.isMessage = false) : op.Settled := by
  refine ⟨hacts, htargets, fun level formatted args hop => ?_⟩
  rw [hop] at hmsg
  cases hmsg

theorem Inner.unsettled {op : Op} (h : op.Inner) : op.Unsettled := by
  cases h with
  | metaLabel => exact .inr (.inl ⟨_, rfl⟩)
  | goto => exact .inr (.inr ⟨_, rfl⟩)
  | message hargs =>
      refine .inl ⟨rfl, nofun, ?_⟩
      rintro _ _ _ ⟨⟩ arg harg
      exact (hargs arg harg).isMessageArg
  | target => exact .inl (.of_not_message rfl (fun _ => rfl) rfl)
  | _ => exact .inl (.of_not_message rfl nofun rfl)

theorem OfMacro.kind {op : Op} (h : op.OfMacro) :
    op.kind = .defineMacro ∨ op.kind = .callMacro := by
  cases h with
  | define => exact .inl rfl
  | call => exact .inr rfl

theorem operands_of_defineMacro {op : Op} (h : op.kind = .defineMacro) : op.operands = 0 := by
  cases op with
  | defineMacro => rfl
  | _ => cases h

end Op

/-! ## Clauses under a map -/

/-- What is done to every action is done to clauses. -/
theorem InClauses.map {E E' : List Action → Prop} {A A' : Action → Prop} {acts : List Action}
    {f : Action → Action} (h : InClauses E A acts) (hE : ∀ e, E e → E' (e.map f))
    (hA : ∀ a, A a → A' (f a)) (hops : ∀ a, A a → (f a).op.operands = a.op.operands) :
    InClauses E' A' (acts.map f) := by
  obtain ⟨cs, rfl, hcs⟩ := h
  induction cs with
  | nil => exact .nil
  | cons c rest ih =>
      obtain ⟨hc, hrest⟩ := List.forall_mem_cons.mp hcs
      have hmap : c.actions.map f =
          (⟨c.exprs.map (List.map f), f c.action⟩ : Clause).actions := by
        simp [Clause.actions, List.map_flatten]
      rw [List.flatMap_cons, List.map_append, hmap]
      refine .append (.single ⟨?_, ?_, hA _ hc.action⟩) (ih hrest)
      · intro e he
        obtain ⟨e', he', rfl⟩ := List.mem_map.mp he
        exact hE e' (hc.exprs e' he')
      · rw [List.length_map, hops _ hc.action]
        exact hc.count

/-! ## Calls -/

namespace Renaming

variable (r : Renaming)

theorem op_of_computes {op : Op} (h : op.computes = true) : r.op op = op.mapSymbols r.symbol := by
  cases op <;> first | rfl | cases h

/-- An expression under a renaming. -/
theorem isEval {acts : List Action} (h : IsEval acts) (x : Expansion) :
    IsEval (acts.map (r.action x)) := by
  have hcomputes := h.computes
  obtain ⟨y, hy⟩ := h
  refine ⟨y.rename r.symbol, ?_⟩
  have hleft : (acts.map (r.action x)).map Action.op =
      (acts.map Action.op).map (Op.mapSymbols r.symbol) := by
    rw [List.map_map, List.map_map]
    exact List.map_congr_left fun a ha => r.op_of_computes (hcomputes a ha)
  rw [hleft, hy, ← Expr.mapSymbols_actions, mapSymbolsAll_eq_map, List.map_map, List.map_map]
  refine List.map_congr_left fun a _ => ?_
  obtain ⟨loc, op, m⟩ := a
  rw [Function.comp_apply, Function.comp_apply, Action.mapSymbols]

theorem unsettled {op : Op} (h : op.Inner) : (r.op op).Unsettled := by
  cases h with
  | metaLabel => exact .inr (.inl ⟨_, rfl⟩)
  | goto => exact .inr (.inr ⟨_, rfl⟩)
  | message hargs =>
      refine .inl ⟨rfl, nofun, ?_⟩
      rintro _ _ _ ⟨⟩
      exact forall_mem_mapSymbolsArgs r.symbol (fun _ h => h.mapSymbols r.symbol) fun arg harg =>
        (hargs arg harg).isMessageArg
  | target => exact .inl (.of_not_message rfl (fun _ => rfl) rfl)
  | _ => exact .inl (.of_not_message rfl nofun rfl)

theorem operands_op (op : Op) : (r.op op).operands = op.operands := by
  cases op <;> rfl

end Renaming

/-- What a call is replaced by are clauses. -/
theorem Call.clauses {k : Call} (hbody : WrittenClauses Op.Inner k.definition.body)
    (hargs : ∀ arg ∈ k.args, IsExprOver IsWritten arg) :
    InClauses IsEval (fun a => a.op.Unsettled) k.actions := by
  have hset : ∀ name, (Op.set name).Unsettled := fun _ => .inl (.of_not_message rfl nofun rfl)
  have hopening : InClauses IsEval (fun a => a.op.Unsettled) [k.opening] :=
    .bare (.inl (.of_not_message rfl nofun rfl)) rfl
  refine hopening.append (.append ?_ ?_)
  · suffices h : ∀ bs : List (String × List Action), (∀ b ∈ bs, IsExprOver IsWritten b.2) →
        InClauses IsEval (fun a => a.op.Unsettled)
          (bs.flatMap fun b => b.2 ++ [Action.set k.location (k.renames.symbol b.1)]) from
      h _ fun b hb => hargs _ (List.of_mem_zip hb).2
    intro bs hbs
    induction bs with
    | nil => exact .nil
    | cons b rest ih =>
        obtain ⟨hb, hrest⟩ := List.forall_mem_cons.mp hbs
        exact .append (.expr hb.isEval (hset _) rfl) (ih hrest)
  · exact hbody.map (fun e he => k.renames.isEval he.isEval k.mark)
      (fun a ha => k.renames.unsettled ha.2) (fun a _ => k.renames.operands_op a.op)

/-! ## Expansion -/

namespace Expanded

variable {macros : List WrittenMacro} {i j : Ids} {acts out : List Action} {calls : List Call}

/-- Two parts of a program are expanded one after the other. -/
theorem split {as bs : List Action} (h : Expanded macros i (as ++ bs) calls out j) :
    ∃ m calls₁ calls₂ out₁ out₂, Expanded macros i as calls₁ out₁ m ∧
      Expanded macros m bs calls₂ out₂ j ∧ calls = calls₁ ++ calls₂ ∧ out = out₁ ++ out₂ := by
  induction as generalizing i calls out with
  | nil => exact ⟨i, [], calls, [], out, .nil, h, rfl, rfl⟩
  | cons a rest ih =>
      cases h with
      | keep hdefine hcall h =>
          obtain ⟨m, calls₁, calls₂, out₁, out₂, h₁, h₂, rfl, rfl⟩ := ih h
          exact ⟨m, calls₁, calls₂, a :: out₁, out₂, .keep hdefine hcall h₁, h₂, rfl, rfl⟩
      | define hdefine h =>
          obtain ⟨m, calls₁, calls₂, out₁, out₂, h₁, h₂, rfl, rfl⟩ := ih h
          exact ⟨m, calls₁, calls₂, out₁, out₂, .define hdefine h₁, h₂, rfl, rfl⟩
      | @call _ _ _ _ k _ _ hop hloc hmem hcount hseq hids h =>
          obtain ⟨m, calls₁, calls₂, out₁, out₂, h₁, h₂, rfl, rfl⟩ := ih h
          exact ⟨m, k :: calls₁, calls₂, k.actions ++ out₁, out₂,
            .call hop hloc hmem hcount hseq hids h₁, h₂, rfl, (List.append_assoc _ _ _).symm⟩

/-- Actions that compute values stay. -/
theorem out_of_computes (hacts : Computes acts) (h : Expanded macros i acts calls out j) :
    out = acts := by
  induction h with
  | nil => rfl
  | keep _ _ _ ih => rw [ih (List.forall_mem_cons.mp hacts).2]
  | @define _ _ a _ _ _ hdefine _ _ =>
      obtain ⟨loc, op, x⟩ := a
      have hop := hacts _ List.mem_cons_self
      cases op with
      | defineMacro => cases hop
      | _ => cases hdefine
  | call hop _ _ _ _ _ _ _ =>
      have hcomputes := hacts _ List.mem_cons_self
      rw [hop] at hcomputes
      cases hcomputes

/-- Expansion makes clauses of clauses. -/
theorem clauses (hacts : WrittenClauses Op.Resolved acts)
    (hbodies : ∀ w ∈ macros, WrittenClauses Op.Inner w.body)
    (h : Expanded macros i acts calls out j) :
    InClauses IsEval (fun a => a.op.Unsettled) out := by
  obtain ⟨cs, rfl, hcs⟩ := hacts
  induction cs generalizing i calls out with
  | nil =>
      cases h
      exact .nil
  | cons c rest ih =>
      obtain ⟨hc, hrest⟩ := List.forall_mem_cons.mp hcs
      rw [List.flatMap_cons] at h
      obtain ⟨m, calls₁, calls₂, out₁, out₂, h₁, h₂, rfl, rfl⟩ := h.split
      refine .append ?_ (ih hrest h₂)
      rw [Clause.actions] at h₁
      obtain ⟨m', _, _, e, bs, hexprs, haction, -, rfl⟩ := h₁.split
      have hcomputes : Computes c.exprs.flatten := fun a ha => by
        obtain ⟨e, he, ha⟩ := List.mem_flatten.mp ha
        exact (hc.exprs e he).isExpr.computes a ha
      obtain rfl := hexprs.out_of_computes hcomputes
      -- an action that stays does so with the expressions in front of it
      have hkept : c.action.op.Unsettled →
          InClauses IsEval (fun a => a.op.Unsettled) (c.exprs.flatten ++ [c.action]) := fun hop =>
        .single (c := c) ⟨fun e he => (hc.exprs e he).isEval, hc.count, hop⟩
      cases haction with
      | keep hdefine hcall hnil =>
          cases hnil
          refine hkept ?_
          rcases hc.action.2 with hinner | hmember | ⟨name, bytes, hbytes⟩
          · exact hinner.unsettled
          · exact (hmember.kind.elim hdefine hcall).elim
          · rw [hbytes]
            exact .inl (.of_not_message rfl (by rintro ⟨⟩) rfl)
      | define hdefine hnil =>
          cases hnil
          have hnone : c.exprs = [] := hc.exprs_eq_nil (Op.operands_of_defineMacro hdefine)
          rw [hnone]
          exact .nil
      | @call _ _ _ _ k _ _ hop _ hmem _ _ _ hnil =>
          cases hnil
          have hnone : c.exprs = [] := hc.exprs_eq_nil (by rw [hop]; rfl)
          have hargs : ∀ arg ∈ k.args, IsExprOver IsWritten arg := by
            have haction := hc.action.2
            rw [hop] at haction
            obtain h | h | ⟨_, _, h⟩ := haction
            · cases h
            · cases h with
              | call _ hargs => exact hargs
            · cases h
          rw [hnone, List.append_nil]
          exact k.clauses (hbodies _ hmem) hargs

end Expanded

/-- The bodies of the macros of source text are clauses. -/
theorem bodies_of_resolved {acts : List Action} (h : WrittenClauses Op.Resolved acts) :
    ∀ w ∈ writtenMacros acts, WrittenClauses Op.Inner w.body := by
  intro w hw
  obtain ⟨x, hw⟩ := mem_writtenMacros.mp hw
  rcases h.mem hw with ⟨e, he, ha⟩ | ⟨-, hop⟩
  · cases he.isExpr.computes _ ha
  · obtain h | h | ⟨_, _, h⟩ := hop
    · cases h
    · cases h with
      | define _ _ hbody _ => exact hbody
    · cases h

/-! ## The sequence -/

namespace Gather

variable (labels : List (String × Nat))

theorem settle_of_computes {a : Action} (h : a.op.computes = true) : settle labels a = a := by
  obtain ⟨loc, op, x⟩ := a
  cases op <;> first | rfl | cases h

theorem settle_settled {a : Action} (h : a.op.Unsettled) : (settle labels a).op.Settled := by
  obtain ⟨loc, op, x⟩ := a
  rcases h with h | ⟨name, hop⟩ | ⟨name, hop⟩
  · cases op with
    | metaLabel => exact absurd (h.onlyTargets rfl) nofun
    | goto => exact absurd (h.onlyTargets rfl) nofun
    | _ => exact h
  · cases hop
    exact .of_not_message rfl (fun _ => rfl) rfl
  · cases hop
    exact .of_not_message rfl nofun rfl

theorem operands_settle (a : Action) : (settle labels a).op.operands = a.op.operands := by
  obtain ⟨loc, op, x⟩ := a
  cases op <;> rfl

end Gather

/-- Expanded and settled, clauses are still clauses. -/
theorem Expanded.settled_clauses {included out : List Action} {calls : List Call} {i j : Ids}
    (hresolved : WrittenClauses Op.Resolved included)
    (h : Expanded (writtenMacros included) i included calls out j) (labels : List (String × Nat)) :
    InClauses IsEval (fun a => a.op.Settled) (out.map (Gather.settle labels)) := by
  refine (h.clauses hresolved (bodies_of_resolved hresolved)).map (fun e he => ?_)
    (fun a ha => Gather.settle_settled labels ha) (fun a _ => Gather.operands_settle labels a)
  rwa [List.map_congr_left fun a ha => Gather.settle_of_computes labels (he.computes a ha),
    List.map_id']

/-- What is prepared for execution are clauses. -/
theorem Assembler.sequence_clauses {asm : Assembler} {actions seq : List Action} {e : Engine}
    {s s' : Session} (hlowered : Lowered actions)
    (hinc : ∀ inc, asm.includer = some inc → inc.Lowered)
    (h : asm.sequence actions s = .ok (seq, e) s') :
    InClauses IsEval (fun a => a.op.Settled) seq := by
  obtain ⟨included, calls, expanded, labels, i, j, hresolved, hcalls, rfl⟩ :=
    sequence_stages hlowered hinc h
  exact hcalls.settled_clauses hresolved labels

/-- No meta actions are left but targets. -/
theorem isTarget_of_clauses {seq : List Action}
    (h : InClauses IsEval (fun a => a.op.Settled) seq) :
    ∀ a ∈ seq, a.op.isMeta = true → a.op.kind = .target := by
  rintro ⟨loc, op, x⟩ ha hmeta
  rcases h.mem ha with ⟨e, he, ha⟩ | hop
  · have hop := he.computes _ ha
    cases op with
    | load | get | unary | binary => cases hmeta
    | _ => cases hop
  · exact hop.onlyTargets hmeta

/-- Messages show texts and expressions. -/
theorem speaks_of_clauses {seq : List Action} (h : InClauses IsEval (fun a => a.op.Settled) seq) :
    ∀ a ∈ seq, a.Speaks := by
  intro a ha level formatted args hop
  rcases h.mem ha with ⟨e, he, ha⟩ | hsettled
  · have hcomputes := he.computes _ ha
    rw [hop] at hcomputes
    cases hcomputes
  · exact hsettled.args level formatted args hop

/-- Without other meta actions a sequence is turned into code. -/
theorem Code.exists_ofActions {seq : List Action}
    (h : ∀ a ∈ seq, a.op.isMeta = true → a.op.kind = .target) : ∃ code, ofActions seq = .ok code := by
  have hnone : (seq.find? fun a => a.op.isMeta && !isTarget a) = none := by
    rw [List.find?_eq_none]
    intro a ha
    cases hmeta : a.op.isMeta with
    | false => simp
    | true => simp [isTarget, h a ha hmeta]
  unfold ofActions
  rw [hnone]
  exact ⟨_, rfl⟩

end Mos6510
