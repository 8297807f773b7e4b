import Mos6510.Proofs.Blame
import Mos6510.Proofs.RelabelledRuns

/-!
# Stages under other names and numbers

The stages of an assembly that rewrite actions, on a program and on the same
program under other names and numbers, in a session that has given out more of
these.

* `MacroDef.instantiate_inStep`: a call of a relabelled macro is the relabelled
  call, since the names that it makes are those of the call with its number raised;
* `Assembler.expandMacros_inStep`: so all calls are expanded alike;
* `Assembler.gather_inStep`: symbols are declared alike, and `.LABEL`s numbered.
-/

namespace Mos6510

open Outcome

namespace Relabelling

variable (θ : Relabelling)

/-! ## Bodies of macros -/

/-- An action of a macro body has numbers, or stays as it is. -/
theorem op_inner {op : Op} (h : op.Inner) :
    θ.op op = op ∨ (op.symbolNames = [] ∧ (θ.op op).symbolNames = [] ∧ op.definedNames = [] ∧
      (θ.op op).definedNames = []) := by
  cases h with
  | set hname | label hname =>
      refine .inl ?_
      rw [Relabelling.op, θ.name_plain hname.plain]
  | metaLabel hname | goto hname =>
      refine .inl ?_
      rw [Relabelling.op, θ.mark_plain hname.plain]
  | message hargs =>
      refine .inl ?_
      rw [Relabelling.op, θ.arguments_written hargs]
  | target | jump | jumpIfFalse | counterSet | counterTest | counterStep =>
      refine .inr ?_
      simp [Relabelling.op, Op.symbolNames, Op.definedNames]
  | _ => exact .inl (by simp [Relabelling.op])

/-- An action of an expression over written names stays as it is. -/
theorem action_of_mem_expr {e : List Action} (he : IsExprOver IsWritten e) {a : Action} (ha : a ∈ e) :
    θ.action a = a := by
  have hmap := θ.actions_expr he
  rw [actions_eq_map] at hmap
  exact List.map_inj_left.mp (hmap.trans (List.map_id' e).symm) a ha

/-- Renaming the symbols of an expression before and after. -/
theorem mapSymbols_expr {f g : String → String} (hfg : ∀ n, IsWritten n → g n = θ.name (f n))
    {e : List Action} (he : IsExprOver IsWritten e) :
    mapSymbolsAll g e = θ.actions (mapSymbolsAll f e) := by
  obtain ⟨x, rfl, hx⟩ := he
  simp only [mapSymbolsAll_eq_map]
  induction x with
  | number loc value =>
      simp [Expr.actions, Action.load, Action.plain, Action.mapSymbols, Op.mapSymbols, action,
        Relabelling.op]
  | symbol loc name =>
      have hname := hfg name (hx name (by simp [Expr.names]))
      simp [Expr.actions, Action.get, Action.plain, Action.mapSymbols, Op.mapSymbols, action,
        Relabelling.op, hname]
  | unary loc op x ih =>
      have hxs := ih fun n hn => hx n (by simpa [Expr.names] using hn)
      simp [Expr.actions, Action.plain, Action.mapSymbols, Op.mapSymbols, action, Relabelling.op, hxs]
  | binary loc op x y ihx ihy =>
      have hxs := ihx fun n hn => hx n (by simp [Expr.names, hn])
      have hys := ihy fun n hn => hx n (by simp [Expr.names, hn])
      simp [Expr.actions, Action.plain, Action.mapSymbols, Op.mapSymbols, action, Relabelling.op, hxs,
        hys]

variable {body : List Action} (h : WrittenClauses Op.Inner body)

include h

theorem names_of_mem_body {a : Action} (ha : a ∈ body) :
    (θ.op a.op).symbolNames = a.op.symbolNames ∧ (θ.op a.op).definedNames = a.op.definedNames := by
  rcases h.mem ha with ⟨e, he, ha⟩ | ⟨-, hop⟩
  · have hop := congrArg Action.op (θ.action_of_mem_expr he ha)
    rw [op_action] at hop
    rw [hop]
    exact ⟨rfl, rfl⟩
  · rcases θ.op_inner hop with hsame | ⟨h₁, h₂, h₃, h₄⟩
    · rw [hsame]
      exact ⟨rfl, rfl⟩
    · rw [h₁, h₂, h₃, h₄]
      exact ⟨rfl, rfl⟩

theorem symbolNames_body : symbolNamesAll (θ.actions body) = symbolNamesAll body := by
  have hall := fun a ha => (θ.names_of_mem_body h (a := a) ha).1
  clear h
  induction body with
  | nil => rw [actions_nil]
  | cons a rest ih =>
      obtain ⟨ha, hrest⟩ := List.forall_mem_cons.mp hall
      obtain ⟨loc, op, x⟩ := a
      rw [actions_cons, symbolNamesAll, symbolNamesAll, ih hrest, action, Action.symbolNames,
        Action.symbolNames]
      exact congrArg (· ++ _) ha

theorem definedNames_body : definedNamesAll (θ.actions body) = definedNamesAll body := by
  have hall := fun a ha => (θ.names_of_mem_body h (a := a) ha).2
  clear h
  induction body with
  | nil => rw [actions_nil]
  | cons a rest ih =>
      obtain ⟨ha, hrest⟩ := List.forall_mem_cons.mp hall
      obtain ⟨loc, op, x⟩ := a
      rw [actions_cons, definedNamesAll, definedNamesAll, ih hrest, action, Action.definedNames,
        Action.definedNames]
      exact congrArg (· ++ _) ha

theorem metaLabelNames_body : metaLabelNames (θ.actions body) = metaLabelNames body := by
  have hplain : ∀ n ∈ metaLabelNames body, θ.mark n = n :=
    fun n hn => θ.mark_plain (h.metaLabelNames n hn).plain
  rw [metaLabelNames, metaLabelNames, actions_eq_map, List.filterMap_map]
  refine List.filterMap_congr fun a ha => ?_
  obtain ⟨loc, op, x⟩ := a
  cases op with
  | metaLabel name =>
      simp [Relabelling.op, hplain name (List.mem_filterMap.mpr ⟨_, ha, rfl⟩)]
  | _ => simp [Relabelling.op]

end Relabelling

/-! ## Definitions -/

theorem Linked.relabel (θ : Relabelling) {acts : List Action} (h : Linked acts) :
    Linked (θ.actions acts) := by
  constructor
  · intro κ
    rw [θ.given_actions]
    exact (h.apart κ).map (θ.number_injective κ)
  · intro κ n hn
    rw [θ.taken_actions] at hn
    rw [θ.given_actions]
    obtain ⟨m, hm, rfl⟩ := List.mem_map.mp hn
    exact List.mem_map_of_mem (h.taken κ m hm)

/-- The macro is one that source text defines. -/
structure WrittenMacro.Sourced (w : WrittenMacro) : Prop where
  sound : w.Sound
  body : WrittenClauses Op.Inner w.body

namespace Relabelling

variable (θ : Relabelling)

/-- The macro under its other name, with its body under other numbers. -/
def definition (w : WrittenMacro) : WrittenMacro :=
  { w with name := θ.call w.name, body := θ.actions w.body }

section

variable {θ} {w : WrittenMacro}

theorem defined_definition (h : w.Sourced) : (θ.definition w).defined = w.defined := by
  unfold WrittenMacro.defined definition
  rw [θ.definedNames_body h.body]

theorem definition_sound (h : w.Sourced) : (θ.definition w).Sound where
  linked := h.sound.linked.relabel θ
  inner := by
    intro a ha
    change a ∈ θ.actions w.body at ha
    rw [actions_eq_map] at ha
    obtain ⟨b, hb, rfl⟩ := List.mem_map.mp ha
    have hinner := h.sound.inner b hb
    obtain ⟨loc, op, x⟩ := b
    cases op <;> first | rfl | cases hinner
  written := by
    intro n hn
    change n ∈ θ.call w.name :: (w.params ++ symbolNamesAll (θ.actions w.body) ++
      metaLabelNames (θ.actions w.body)) at hn
    rw [θ.symbolNames_body h.body, θ.metaLabelNames_body h.body] at hn
    rcases List.mem_cons.mp hn with rfl | hn
    · exact θ.call_written (h.sound.written _ List.mem_cons_self)
    · exact h.sound.written n (List.mem_cons_of_mem _ hn)

variable (h : w.Sourced) (seq : Nat) (ids : Ids)

include h

/-- The names of a relabelled call are the relabelled names of the call. -/
theorem symbol_call {n : String} (hn : IsWritten n) :
    ((θ.definition w).callRenaming (seq + θ.shift.seq) (ids + θ.shift)).symbol n =
      θ.name ((w.callRenaming seq ids).symbol n) := by
  unfold WrittenMacro.callRenaming
  rw [defined_definition h]
  dsimp only [definition]
  split
  · rw [θ.name_local (MacroDef.isLocalName_hide n),
      θ.name_anchor (h.sound.written _ List.mem_cons_self).plain,
      θ.name_plain (MacroDef.plain_hide hn.plain)]
  · exact (θ.name_plain hn.plain).symm

theorem metaLabel_call {n : String} (hn : IsWritten n) :
    ((θ.definition w).callRenaming (seq + θ.shift.seq) (ids + θ.shift)).metaLabel n =
      θ.mark ((w.callRenaming seq ids).metaLabel n) := by
  have hnames : metaLabelNames (θ.definition w).body = metaLabelNames w.body :=
    θ.metaLabelNames_body h.body
  unfold WrittenMacro.callRenaming
  simp only [hnames]
  split
  · exact (θ.mark_anchor hn.plain seq).symm
  · exact (θ.mark_plain hn.plain).symm

omit h in
theorem number_call (κ : Numbered) (n : Int) :
    ((θ.definition w).callRenaming (seq + θ.shift.seq) (ids + θ.shift)).number κ (θ.number κ n) =
      θ.number κ ((w.callRenaming seq ids).number κ n) := by
  unfold WrittenMacro.callRenaming
  dsimp only [definition]
  have hidx : ((given κ w.body).map (θ.number κ)).idxOf (θ.number κ n) = (given κ w.body).idxOf n := by
    induction given κ w.body with
    | nil => rfl
    | cons m rest ih =>
        by_cases hm : m = n
        · simp [hm]
        · have hne : θ.number κ m ≠ θ.number κ n := fun heq => hm (θ.number_injective κ heq)
          simp [List.idxOf_cons_ne, hm, hne, ih]
  have hnext : (ids + θ.shift).next κ = ids.next κ + θ.shift.next κ := by cases κ <;> rfl
  rw [θ.given_actions, hidx, θ.number_natCast, hnext]
  omega

/-- So are its actions. -/
theorem op_call {a : Action} (ha : a ∈ w.body) :
    ((θ.definition w).callRenaming (seq + θ.shift.seq) (ids + θ.shift)).op (θ.op a.op) =
      θ.op ((w.callRenaming seq ids).op a.op) := by
  have hsymbol := fun {n} (hn : IsWritten n) => symbol_call (θ := θ) h seq ids hn
  have hmeta := fun {n} (hn : IsWritten n) => metaLabel_call (θ := θ) h seq ids hn
  have hnumber := fun κ n => number_call (θ := θ) (w := w) seq ids κ n
  have hexpr := fun {e} (he : IsExprOver IsWritten e) => θ.mapSymbols_expr (fun _ hn => hsymbol hn) he
  rcases h.body.mem ha with ⟨e, he, ha⟩ | ⟨-, hop⟩
  · have hmap := hexpr he
    simp only [mapSymbolsAll_eq_map, actions_eq_map, List.map_map] at hmap
    have hop := congrArg Action.op (List.map_inj_left.mp hmap a ha)
    have hsame := congrArg Action.op (θ.action_of_mem_expr he ha)
    have hcomputes := he.isExpr.computes a ha
    obtain ⟨loc, op, x⟩ := a
    rw [op_action] at hsame
    rw [hsame]
    cases op <;> first | exact hop | cases hcomputes
  · generalize a.op = op at hop
    cases hop with
    | set hname | label hname =>
        simp [Relabelling.op, Renaming.op, Op.mapSymbols, θ.name_plain hname.plain, hsymbol hname]
    | metaLabel hname | goto hname =>
        simp [Relabelling.op, Renaming.op, θ.mark_plain hname.plain, hmeta hname]
    | message hargs =>
        simp only [Relabelling.op, θ.arguments_written hargs, Renaming.op, Op.mapSymbols,
          Op.message.injEq, true_and]
        rw [mapSymbolsArgs_eq_map, mapSymbolsArgs_eq_map, arguments_eq_map, List.map_map]
        refine List.map_congr_left fun arg harg => ?_
        rcases hargs arg harg with ⟨loc, s, rfl⟩ | he
        · simp [mapSymbolsAll_eq_map, Action.plain, Action.mapSymbols, Op.mapSymbols, action,
            Relabelling.op]
        · exact hexpr he
    | _ => simp [Relabelling.op, Renaming.op, Op.mapSymbols, hnumber]

/-- The assignments to parameters. -/
theorem bindings_call (call : Location) {args : List (List Action)}
    (hargs : ∀ arg ∈ args, IsExprOver IsWritten arg) :
    (θ.definition w).bindings
        ((θ.definition w).callRenaming (seq + θ.shift.seq) (ids + θ.shift)) call args =
      θ.actions (w.bindings (w.callRenaming seq ids) call args) := by
  unfold WrittenMacro.bindings
  rw [actions_eq_map, List.map_flatMap]
  refine List.flatMap_congr fun b hb => ?_
  obtain ⟨hp, harg⟩ := List.of_mem_zip (show (b.1, b.2) ∈ w.params.zip args from hb)
  have hsymbol := symbol_call (θ := θ) h seq ids
    (h.sound.written_of_defined (List.mem_append_left _ hp))
  rw [hsymbol, ← actions_eq_map, actions_append, θ.actions_expr (hargs _ harg), actions_cons,
    actions_nil, action_set]

end

end Relabelling

/-! ## Calls -/

/-- The second session has given out more numbers. -/
def Relabelling.Ahead (θ : Relabelling) (s t : Session) : Prop := t.ids = s.ids + θ.shift

/-- The actions under other names and numbers. -/
def Relabelling.Tells (θ : Relabelling) (acts acts' : List Action) : Prop := acts' = θ.actions acts

section

variable {θ : Relabelling} {w : WrittenMacro}

/-- A relabelled macro is instantiated to the relabelled call. -/
theorem MacroDef.instantiate_inStep (h : w.Sourced) (call : Location) {args : List (List Action)}
    (hargs : ∀ arg ∈ args, IsExprOver IsWritten arg) (seq : Nat) :
    InStep θ.Errors (fun i j => j = i + θ.shift) (w.define.instantiate call args seq)
      ((θ.definition w).define.instantiate call args (seq + θ.shift.seq))
      (Both θ.Tells fun i j => j = i + θ.shift) := by
  rintro i _ rfl
  by_cases hcount : args.length = w.params.length
  · rw [WrittenMacro.instantiate_eq h.sound call hcount,
      WrittenMacro.instantiate_eq (θ.definition_sound h) call hcount]
    refine .ok ⟨?_, ?_⟩
    · unfold Relabelling.Tells
      rw [θ.actions_cons, θ.actions_append, Relabelling.bindings_call h seq i call hargs]
      refine congrArg₂ List.cons ?_ (congrArg₂ List.append rfl ?_)
      · have hname : Plain w.name := (h.sound.written _ List.mem_cons_self).plain
        simp [Relabelling.action, Relabelling.op, Relabelling.expansion, Relabelling.definition,
          θ.name_anchor hname]
      · show (θ.actions w.body).map _ = _
        rw [θ.actions_eq_map, θ.actions_eq_map, List.map_map, List.map_map]
        refine List.map_congr_left fun a ha => ?_
        have hop := Relabelling.op_call (θ := θ) h seq i ha
        simp only [Function.comp_apply, Renaming.action, θ.location_action, θ.op_action, hop]
        rw [Relabelling.action]
        rfl
    · show Ids.mk (i.jump + θ.shift.jump + (given .jump (θ.actions w.body)).length)
          (i.counter + θ.shift.counter + (given .counter (θ.actions w.body)).length)
          (i.seq + θ.shift.seq) =
        ⟨i.jump + (given .jump w.body).length + θ.shift.jump,
          i.counter + (given .counter w.body).length + θ.shift.counter, i.seq + θ.shift.seq⟩
      rw [θ.given_actions, θ.given_actions, List.length_map, List.length_map, Nat.add_right_comm,
        Nat.add_right_comm i.counter]
  · have hparams : ∀ w : WrittenMacro, w.define.params.length = w.params.length :=
      fun w => List.length_map _
    have hne : (args.length != w.params.length) = true := by simpa using hcount
    unfold MacroDef.instantiate
    rw [hparams, hparams, show (θ.definition w).params = w.params from rfl, hne, if_pos rfl, if_pos rfl]
    exact .error (θ.error_atLocation call (.macroArgs w.name w.params.length args.length)).symm

end

/-! ## The macro stage -/

/-- The table of macros, latest definition first. -/
def macroTable (ws : List WrittenMacro) : List (String × MacroDef) :=
  ws.map fun w => (w.name, w.define)

theorem lookup_macroTable (ws : List WrittenMacro) (name : String) :
    (macroTable ws).lookup name = (ws.find? fun w => name == w.name).map WrittenMacro.define := by
  induction ws with
  | nil => rfl
  | cons w rest ih =>
      show List.lookup name ((w.name, w.define) :: macroTable rest) = _
      rw [List.lookup_cons, List.find?_cons]
      split
      · rfl
      · exact ih

section

variable (θ : Relabelling)

theorem lookup_macroTable_relabel (ws : List WrittenMacro) (name : String) :
    (macroTable (ws.map θ.definition)).lookup (θ.call name) =
      (ws.find? fun w => name == w.name).map fun w => (θ.definition w).define := by
  have hname : ∀ w : WrittenMacro, (θ.call name == (θ.definition w).name) = (name == w.name) := by
    intro w
    rw [Bool.eq_iff_iff, beq_iff_eq, beq_iff_eq]
    exact θ.call_injective.eq_iff
  rw [lookup_macroTable, List.find?_map, Option.map_map]
  simp only [Function.comp_def, hname]

/-- Both programs define the same macros, or define one twice. -/
theorem Assembler.collectMacros_relabel (acts : List Action) (ws : List WrittenMacro) :
    (∃ found, collectMacros acts (macroTable ws) = .ok (macroTable found) ∧
      collectMacros (θ.actions acts) (macroTable (ws.map θ.definition)) =
        .ok (macroTable (found.map θ.definition)) ∧
      ∀ w ∈ found, w ∈ ws ∨ w ∈ writtenMacros acts) ∨
    ∃ err, collectMacros acts (macroTable ws) = .error err ∧
      collectMacros (θ.actions acts) (macroTable (ws.map θ.definition)) = .error (θ.error err) := by
  induction acts generalizing ws with
  | nil =>
      rw [θ.actions_nil]
      exact .inl ⟨ws, rfl, rfl, fun w hw => .inl hw⟩
  | cons a rest ih =>
      obtain ⟨loc, op, x⟩ := a
      rw [θ.actions_cons, Relabelling.action]
      cases op with
      | defineMacro name params body =>
          let w : WrittenMacro := ⟨loc, name, params, body⟩
          have hlookup := lookup_macroTable ws name
          have hlookup' := lookup_macroTable_relabel θ ws name
          rw [Relabelling.op]
          simp only [collectMacros, hlookup, hlookup', Option.isSome_map]
          cases (ws.find? fun w => name == w.name).isSome with
          | true =>
              refine .inr ⟨(Error.duplicateMacro name).atLocation loc, rfl, ?_⟩
              rw [θ.error_atLocation]
              rfl
          | false =>
              simp only [Bool.false_eq_true, if_false]
              refine (ih (w :: ws)).imp_left ?_
              rintro ⟨found, hfound, hfound', hin⟩
              refine ⟨found, hfound, hfound', fun v hv => ?_⟩
              rcases hin v hv with hv | hv
              · rcases List.mem_cons.mp hv with rfl | hv
                · exact .inr (mem_writtenMacros.mpr ⟨x, List.mem_cons_self⟩)
                · exact .inl hv
              · obtain ⟨y, hv⟩ := mem_writtenMacros.mp hv
                exact .inr (mem_writtenMacros.mpr ⟨y, List.mem_cons_of_mem _ hv⟩)
      | _ =>
          simp only [collectMacros, Relabelling.op]
          refine (ih ws).imp_left ?_
          rintro ⟨found, hfound, hfound', hin⟩
          refine ⟨found, hfound, hfound', fun v hv => (hin v hv).imp_right fun hv => ?_⟩
          obtain ⟨y, hv⟩ := mem_writtenMacros.mp hv
          exact mem_writtenMacros.mpr ⟨y, List.mem_cons_of_mem _ hv⟩

end

/-- The macros of source text are such as relabelled calls rely on. -/
theorem sourced_of_resolved {acts : List Action} (h : WrittenClauses Op.Resolved acts) :
    ∀ w ∈ writtenMacros acts, w.Sourced := by
  intro w hw
  refine ⟨sound_of_resolved h w hw, ?_⟩
  obtain ⟨x, hw⟩ := mem_writtenMacros.mp hw
  rcases h.mem hw with ⟨e, he, ha⟩ | ⟨-, hop⟩
  · cases he.isExpr.computes _ ha
  · obtain h | h | ⟨_, _, h⟩ := hop
    · cases h
    · cases h with
      | define _ _ hbody _ => exact hbody
    · cases h

/-- The arguments of calls are expressions over written names. -/
theorem exprs_of_resolved {acts : List Action} (h : WrittenClauses Op.Resolved acts) {a : Action}
    (ha : a ∈ acts) {name : String} {args : List (List Action)} (hop : a.op = .callMacro name args) :
    ∀ arg ∈ args, IsExprOver IsWritten arg := by
  rcases h.mem ha with ⟨e, he, ha⟩ | ⟨-, hresolved⟩
  · have hcomputes := he.isExpr.computes _ ha
    rw [hop] at hcomputes
    cases hcomputes
  · rw [hop] at hresolved
    obtain h | h | ⟨_, _, h⟩ := hresolved
    · cases h
    · cases h with
      | call _ hargs => exact hargs
    · cases h

namespace Assembler

variable {θ : Relabelling} (asm asm' : Assembler)

theorem note_ahead (entry entry' : String) :
    InStep θ.Errors θ.Ahead (asm.note entry) (asm'.note entry') (Same θ.Ahead) :=
  fun _ _ h => .ok ⟨rfl, h⟩

theorem nextSeq_ahead :
    InStep θ.Errors θ.Ahead nextSeq nextSeq (Both (fun k k' => k' = k + θ.shift.seq) θ.Ahead) := by
  intro s t h
  have hseq : t.ids.seq = s.ids.seq + θ.shift.seq := by rw [h]; rfl
  refine .ok ⟨by omega, ?_⟩
  show Ids.mk t.ids.jump t.ids.counter (t.ids.seq + 1) = _
  rw [h]
  exact congrArg (Ids.mk _ _) (Nat.add_right_comm s.ids.seq θ.shift.seq 1)

theorem withIds_ahead {α β : Type} {A : α → β → Prop} {m : EStateM Error Ids α}
    {m' : EStateM Error Ids β} (h : InStep θ.Errors (fun i j => j = i + θ.shift) m m'
      (Both A fun i j => j = i + θ.shift)) :
    InStep θ.Errors θ.Ahead (withIds m) (withIds m') (Both A θ.Ahead) := by
  intro s t hst
  unfold withIds
  have hagree := h hst
  cases hm : m s.ids <;> cases hm' : m' t.ids <;> rw [hm, hm'] at hagree <;> cases hagree
  · rename_i h
    exact .ok ⟨h.1, h.2⟩
  · rename_i h
    exact .error h

/-- Where each action is replaced alike, so are all. -/
theorem replaceEach_inStep {E : Error → Error → Prop} {R : Session → Session → Prop}
    {f g : Action → SessionM (List Action)} {acts : List Action}
    (h : ∀ a ∈ acts, InStep E R (f a) (g (θ.action a)) (Both θ.Tells R)) :
    InStep E R (replaceEach f acts) (replaceEach g (θ.actions acts)) (Both θ.Tells R) := by
  induction acts with
  | nil =>
      rw [θ.actions_nil]
      exact InStep.pure fun _ _ h => ⟨θ.actions_nil.symm, h⟩
  | cons a rest ih =>
      obtain ⟨ha, hrest⟩ := List.forall_mem_cons.mp h
      rw [θ.actions_cons, replaceEach, replaceEach]
      refine ha.andThen fun as as' has => (ih hrest).andThen fun bs bs' hbs => ?_
      refine InStep.pure fun _ _ h => ⟨?_, h⟩
      unfold Relabelling.Tells at has hbs ⊢
      rw [has, hbs, θ.actions_append]

theorem replaceCall_inStep {ws : List WrittenMacro} (hws : ∀ w ∈ ws, w.Sourced) {a : Action}
    (hargs : ∀ name args, a.op = .callMacro name args → ∀ arg ∈ args, IsExprOver IsWritten arg) :
    InStep θ.Errors θ.Ahead (asm.replaceCall (macroTable ws) a)
      (asm'.replaceCall (macroTable (ws.map θ.definition)) (θ.action a)) (Both θ.Tells θ.Ahead) := by
  obtain ⟨loc, op, x⟩ := a
  rw [Relabelling.action]
  cases op with
  | defineMacro name params body => exact InStep.pure fun _ _ h => ⟨θ.actions_nil.symm, h⟩
  | callMacro name args =>
      have hexprs := hargs name args rfl
      have hsame : θ.arguments args = args := θ.arguments_written fun arg harg => .inr (hexprs arg harg)
      rw [Relabelling.op, hsame]
      simp only [replaceCall, lookup_macroTable ws name, lookup_macroTable_relabel θ ws name]
      cases hfind : ws.find? fun w => name == w.name with
      | none => exact InStep.throw (θ.error_atLocation loc (.unknownMacro name)).symm
      | some w =>
          have hw := hws w (List.mem_of_find?_eq_some hfind)
          dsimp only [Option.map]
          refine nextSeq_ahead.andThen fun k k' hk => ?_
          rw [hk]
          refine (withIds_ahead (MacroDef.instantiate_inStep hw loc hexprs k)).andThen
            fun bs bs' hbs => ?_
          exact (note_ahead asm asm' _ _).andThen fun _ _ _ => InStep.pure fun _ _ h => ⟨hbs, h⟩
  | _ =>
      refine InStep.pure fun _ _ h => ⟨?_, h⟩
      unfold Relabelling.Tells
      rw [θ.actions_cons, θ.actions_nil, Relabelling.action]

/-- The macro stage does the same under other names and numbers. -/
theorem expandMacros_inStep {acts : List Action} (h : WrittenClauses Op.Resolved acts) :
    InStep θ.Errors θ.Ahead (asm.expandMacros acts) (asm'.expandMacros (θ.actions acts))
      (Both θ.Tells θ.Ahead) := by
  unfold expandMacros
  rcases collectMacros_relabel θ acts [] with ⟨ws, hfound, hfound', hin⟩ | ⟨err, herr, herr'⟩
  · rw [show macroTable [] = [] from rfl] at hfound
    rw [show macroTable (List.map θ.definition []) = [] from rfl] at hfound'
    rw [hfound, hfound']
    have hws : ∀ w ∈ ws, w.Sourced := fun w hw =>
      sourced_of_resolved h w ((hin w hw).resolve_left List.not_mem_nil)
    exact replaceEach_inStep fun a ha =>
      replaceCall_inStep asm asm' hws fun name args hop => exprs_of_resolved h ha hop
  · rw [show macroTable [] = [] from rfl] at herr
    rw [show macroTable (List.map θ.definition []) = [] from rfl] at herr'
    rw [herr, herr']
    exact InStep.throw rfl

end Assembler

/-! ## Gathering -/

namespace Gather

variable {θ : Relabelling}

/-- The numbers of `.LABEL`s under other names and numbers. -/
def relabel (θ : Relabelling) (labels : List (String × Nat)) : List (String × Nat) :=
  labels.map fun l => (θ.mark l.1, l.2 + θ.shift.jump)

theorem lookup_relabel (labels : List (String × Nat)) (name : String) :
    (relabel θ labels).lookup (θ.mark name) =
      (labels.lookup name).map (· + θ.shift.jump) := by
  induction labels with
  | nil => rfl
  | cons l rest ih =>
      show List.lookup _ ((θ.mark l.1, l.2 + θ.shift.jump) :: relabel θ rest) = _
      have hname : (θ.mark name == θ.mark l.1) = (name == l.1) := by
        rw [Bool.eq_iff_iff, beq_iff_eq, beq_iff_eq, θ.mark_injective.eq_iff]
      obtain ⟨n, j⟩ := l
      rw [List.lookup_cons, List.lookup_cons, hname]
      cases name == n with
      | true => rfl
      | false => exact ih

theorem numberLabels_inStep (acts : List Action) (known : List (String × Nat)) :
    InStep θ.Errors (fun i j => j = i + θ.shift) (numberLabels acts known)
      (numberLabels (θ.actions acts) (relabel θ known))
      (Both (fun labels labels' => labels' = relabel θ labels) fun i j => j = i + θ.shift) := by
  induction acts generalizing known with
  | nil =>
      rw [θ.actions_nil]
      exact InStep.pure fun _ _ h => ⟨rfl, h⟩
  | cons a rest ih =>
      obtain ⟨loc, op, x⟩ := a
      rw [θ.actions_cons, Relabelling.action]
      cases op with
      | metaLabel name =>
          rintro i _ rfl
          rw [Relabelling.op]
          simp only [numberLabels, lookup_relabel, Option.isSome_map]
          split
          · exact .error (θ.error_atLocation loc (.duplicateMetaLabel name)).symm
          · refine ih ((name, i.jump) :: known) ?_
            show Ids.mk (i.jump + θ.shift.jump + 1) _ _ = Ids.mk (i.jump + 1 + θ.shift.jump) _ _
            rw [Nat.add_right_comm]
            rfl
      | _ =>
          simp only [numberLabels, Relabelling.op]
          exact ih known

theorem declareVariable_echoes (name parent : String) :
    θ.Echoes (Engine.declareVariable name parent)
      (Engine.declareVariable (θ.name name) (θ.name parent)) := by
  rintro e _ ⟨counters, log, rfl, hc⟩
  unfold Engine.declareVariable
  simp only [beq_iff_eq, θ.name_eq_pcName, θ.qualify_name]
  split
  · exact .ok ⟨rfl, counters, log, rfl, hc⟩
  · cases qualify name parent with
    | error err => exact .error rfl
    | ok full =>
        have hlabels : (e.relabel θ counters log).labels.contains (θ.name full) =
            e.labels.contains full := SymbolTable.contains_rename θ.name_injective _ _
        simp only [hlabels, Engine.isVariable_relabel]
        split
        · exact .error rfl
        · split
          · exact .ok ⟨rfl, counters, log, rfl, hc⟩
          · exact .ok ⟨rfl, counters, log, rfl, hc⟩

theorem declareLabel_inStep (name : String) (synthetic : Bool) (parent : String) :
    InStep θ.Errors (Engine.Relabelled θ) (Engine.declareLabel name synthetic parent)
      (Engine.declareLabel (θ.name name) synthetic (θ.name parent))
      (Both (fun next next' => next' = θ.name next) (Engine.Relabelled θ)) := by
  rintro e _ ⟨counters, log, rfl, hc⟩
  unfold Engine.declareLabel
  rw [θ.qualify_name]
  cases qualify name parent with
  | error err => exact .error rfl
  | ok full =>
      have hlabels : (e.relabel θ counters log).labels.contains (θ.name full) =
          e.labels.contains full := SymbolTable.contains_rename θ.name_injective _ _
      simp only [hlabels, Engine.isVariable_relabel, θ.isParentLabel_name]
      split
      · exact .error rfl
      · split
        · exact .error rfl
        · exact .ok ⟨(apply_ite θ.name _ _ _).symm, counters, log, rfl, hc⟩

/-- An action is declared alike, with the `.LABEL`s numbered. -/
theorem declareAction_inStep {labels : List (String × Nat)} {a : Action}
    (hlabels : ∀ name, a.op = .metaLabel name → (labels.lookup name).isSome = true)
    (parent : String) :
    InStep θ.Errors (Engine.Relabelled θ) (declareAction labels parent a)
      (declareAction (relabel θ labels) (θ.name parent) (θ.action a))
      (Both (fun p p' => p' = (θ.action p.1, θ.name p.2)) (Engine.Relabelled θ)) := by
  obtain ⟨loc, op, x⟩ := a
  rw [Relabelling.action]
  cases op with
  | metaLabel name =>
      intro e e' he
      obtain ⟨j, hj⟩ := Option.isSome_iff_exists.mp (hlabels name rfl)
      simp only [declareAction, Relabelling.op, lookup_relabel, hj]
      refine .ok ⟨?_, he⟩
      simp [Relabelling.action_plain, Relabelling.op, θ.number_natCast, Ids.next]
  | goto name =>
      intro e e' he
      simp only [declareAction, Relabelling.op, lookup_relabel]
      cases labels.lookup name with
      | none => exact .error (θ.error_atLocation loc (.unknownMetaLabel name)).symm
      | some j =>
          refine .ok ⟨?_, he⟩
          simp [Relabelling.action, Relabelling.op, θ.number_natCast, Ids.next]
  | set name =>
      intro e e' he
      have hagree := declareVariable_echoes (θ := θ) name parent he
      simp only [declareAction, Relabelling.op]
      cases hm : Engine.declareVariable name parent e <;>
        cases hm' : Engine.declareVariable (θ.name name) (θ.name parent) e' <;>
        rw [hm, hm'] at hagree <;> cases hagree
      · rename_i h
        exact .ok ⟨by simp [Relabelling.action, Relabelling.op], h.2⟩
      · rename_i h
        refine .error ?_
        rw [h]
        exact (θ.error_atAction ⟨loc, .set name, x⟩ _).symm
  | label name synthetic =>
      intro e e' he
      have hagree := declareLabel_inStep (θ := θ) name synthetic parent he
      simp only [declareAction, Relabelling.op]
      cases hm : Engine.declareLabel name synthetic parent e <;>
        cases hm' : Engine.declareLabel (θ.name name) synthetic (θ.name parent) e' <;>
        rw [hm, hm'] at hagree <;> cases hagree
      · rename_i h
        refine .ok ⟨?_, h.2⟩
        rw [h.1]
        simp [Relabelling.action, Relabelling.op]
      · rename_i h
        refine .error ?_
        rw [h]
        exact (θ.error_atAction ⟨loc, .label name synthetic, x⟩ _).symm
  | _ =>
      intro e e' he
      exact .ok ⟨by simp [Relabelling.action, Relabelling.op], he⟩

theorem declareAll_inStep {labels : List (String × Nat)} {acts : List Action}
    (hlabels : ∀ name ∈ metaLabelNames acts, (labels.lookup name).isSome = true) (parent : String) :
    InStep θ.Errors (Engine.Relabelled θ) (declareAll labels parent acts)
      (declareAll (relabel θ labels) (θ.name parent) (θ.actions acts))
      (Both θ.Tells (Engine.Relabelled θ)) := by
  induction acts generalizing parent with
  | nil =>
      rw [θ.actions_nil]
      exact InStep.pure fun _ _ h => ⟨θ.actions_nil.symm, h⟩
  | cons a rest ih =>
      have ha : ∀ name, a.op = .metaLabel name → (labels.lookup name).isSome = true := by
        intro name hop
        refine hlabels name (List.mem_filterMap.mpr ⟨a, List.mem_cons_self, ?_⟩)
        rw [hop]
      have hrest : ∀ name ∈ metaLabelNames rest, (labels.lookup name).isSome = true := by
        intro name hname
        obtain ⟨b, hb, hop⟩ := List.mem_filterMap.mp hname
        exact hlabels name (List.mem_filterMap.mpr ⟨b, List.mem_cons_of_mem _ hb, hop⟩)
      rw [θ.actions_cons, declareAll, declareAll]
      refine (declareAction_inStep ha parent).andThen fun p p' hp => ?_
      rw [hp]
      refine (ih hrest p.2).andThen fun acts acts' hacts => InStep.pure fun _ _ h => ⟨?_, h⟩
      unfold Relabelling.Tells at hacts ⊢
      rw [hacts, θ.actions_cons]

end Gather

namespace Assembler

variable {θ : Relabelling} {asm asm' : Assembler}

/-- Gathering does the same under other names and numbers. -/
theorem gather_inStep (hverbose : asm'.verbose = asm.verbose) (acts : List Action) :
    InStep θ.Errors θ.Ahead (asm.gather acts) (asm'.gather (θ.actions acts))
      (Both (fun p p' => θ.Tells p.1 p'.1 ∧ Engine.Relabelled θ p.2 p'.2) θ.Ahead) := by
  have hstart : Engine.Relabelled θ { verbose := asm.verbose } { verbose := asm'.verbose } := by
    refine ⟨#[], {}, ?_, fun c => ?_⟩
    · unfold Engine.relabel
      rw [hverbose, θ.name_empty]
      rfl
    · unfold Engine.counter?
      split <;> split <;> rfl
  have hlabels : ∀ s labels s', withIds (Gather.numberLabels acts []) s = .ok labels s' →
      ∀ name ∈ metaLabelNames acts, (labels.lookup name).isSome = true := by
    intro s labels s' h name hname
    unfold withIds at h
    split at h
    · rename_i hnumber
      cases h
      exact Gather.lookup_of_numberLabels hnumber hname
    · cases h
  refine ((withIds_ahead (Gather.numberLabels_inStep acts [])).ensuring hlabels).andThen
    fun labels labels' hrelated => ?_
  obtain ⟨rfl, hsome⟩ := hrelated
  have hdeclare := Gather.declareAll_inStep (θ := θ) hsome "" hstart
  rw [θ.name_empty] at hdeclare
  cases hm : Gather.declareAll labels "" acts { verbose := asm.verbose } <;>
    cases hm' : Gather.declareAll (Gather.relabel θ labels) "" (θ.actions acts)
      { verbose := asm'.verbose } <;>
    rw [hm, hm'] at hdeclare <;> cases hdeclare
  · rename_i h
    exact (note_ahead asm asm' _ _).andThen fun _ _ _ => InStep.pure fun _ _ hst => ⟨h, hst⟩
  · rename_i h
    exact InStep.throw h

end Assembler

end Mos6510
