import Mos6510.Proofs.RelabelledStages

/-!
# Assemblies under other names and numbers

* `Code.ofActions_relabel`: numbered actions are prepared alike.  The table of
  targets is longer then, but each jump leads to the same actions;
* `Assembler.assemble_relabel`: once the files of source text are spliced in, an
  assembly goes on alike, and fails alike.
-/

namespace Mos6510

open Outcome

/-! ## Code -/

theorem Numbers.relabel (θ : Relabelling) {lo hi : Ids} {acts : List Action}
    (h : Numbers lo hi acts []) : Numbers (lo + θ.shift) (hi + θ.shift) (θ.actions acts) [] where
  apart κ := by
    have hlinked := h.linked.relabel θ
    simpa using hlinked.apart κ
  between κ n hn := by
    rw [pending_nil, List.append_nil, θ.given_actions] at hn
    obtain ⟨m, hm, rfl⟩ := List.mem_map.mp hn
    have hbetween := h.between κ m (List.mem_append_left _ hm)
    have hnext : ∀ ids : Ids, (ids + θ.shift).next κ = ids.next κ + θ.shift.next κ := by
      intro ids
      cases κ <;> rfl
    rw [hnext, hnext]
    unfold Relabelling.number
    rw [if_neg (by omega)]
    omega
  taken κ := by
    have hlinked := h.linked.relabel θ
    simpa using hlinked.taken κ
  held κ n hn := absurd hn List.not_mem_nil

namespace Code

variable {θ : Relabelling}

theorem isTarget_relabel (a : Action) : isTarget (θ.action a) = isTarget a := by
  unfold isTarget
  rw [θ.op_action, θ.kind_op]

theorem strip_relabel (seq : List Action) : strip (θ.actions seq) = θ.actions (strip seq) := by
  have htarget : (fun a => !isTarget a) ∘ θ.action = fun a => !isTarget a := by
    funext a
    exact congrArg not (isTarget_relabel a)
  rw [strip_eq_filter, strip_eq_filter, θ.actions_eq_map, θ.actions_eq_map, List.filter_map, htarget]

theorem targetMarks_relabel (seq : List Action) :
    targetMarks (θ.actions seq) =
      (targetMarks seq).map fun m => (θ.number .jump m.1, θ.actions m.2) := by
  induction seq with
  | nil =>
      rw [θ.actions_nil]
      rfl
  | cons a rest ih =>
      rw [θ.actions_cons]
      cases ha : isTarget a with
      | false => rw [targetMarks_cons ha, targetMarks_cons (isTarget_relabel (θ := θ) a ▸ ha), ih]
      | true =>
          obtain ⟨loc, op, x⟩ := a
          obtain ⟨j, rfl⟩ := exists_target ha
          rw [Relabelling.action, Relabelling.op, targetMarks_target, targetMarks_target, ih,
            strip_relabel]
          rfl

/-- How many counters there are once all are renumbered. -/
def raiseBound (θ : Relabelling) (n : Nat) : Nat := if n = 0 then 0 else n + θ.shift.counter

theorem raiseBound_max (n m : Nat) : raiseBound θ (max n m) = max (raiseBound θ n) (raiseBound θ m) := by
  unfold raiseBound
  rcases Nat.le_total n m with h | h
  · rw [Nat.max_eq_right h]
    split <;> split <;> omega
  · rw [Nat.max_eq_left h]
    split <;> split <;> omega

theorem counterBound_relabel (a : Action) : counterBound (θ.action a) = raiseBound θ (counterBound a) := by
  have hbound : ∀ c : Int, (θ.number .counter c + 1).toNat = raiseBound θ (c + 1).toNat := by
    intro c
    have hshift : θ.shift.next .counter = θ.shift.counter := rfl
    unfold Relabelling.number raiseBound
    split <;> split <;> omega
  obtain ⟨loc, op, x⟩ := a
  cases op with
  | counterSet c | counterTest c j | counterStep c j =>
      simp [counterBound, Relabelling.action, Relabelling.op, hbound]
  | _ => simp [counterBound, Relabelling.action, Relabelling.op, raiseBound]

theorem counters_relabel (seq : List Action) (n : Nat) :
    (θ.actions seq).foldl (fun n a => max n (counterBound a)) (raiseBound θ n) =
      raiseBound θ (seq.foldl (fun n a => max n (counterBound a)) n) := by
  induction seq generalizing n with
  | nil => rw [θ.actions_nil, List.foldl_nil, List.foldl_nil]
  | cons a rest ih =>
      rw [θ.actions_cons, List.foldl_cons, List.foldl_cons, counterBound_relabel, ← raiseBound_max, ih]

/-- Numbered actions are prepared alike under other names and numbers. -/
theorem ofActions_relabel (θ : Relabelling) {seq : List Action} {lo hi : Ids}
    (hnumbers : Numbers lo hi seq []) :
    (∃ code code', ofActions seq = .ok code ∧ ofActions (θ.actions seq) = .ok code' ∧
      Code.Relabelled θ code code') ∨
    ∃ err, ofActions seq = .error err ∧ ofActions (θ.actions seq) = .error (θ.error err) := by
  have hfind : (θ.actions seq).find? (fun a => a.op.isMeta && !isTarget a) =
      (seq.find? fun a => a.op.isMeta && !isTarget a).map θ.action := by
    rw [θ.actions_eq_map, List.find?_map]
    congr 2
    funext a
    simp [isTarget_relabel, Op.isMeta]
  have hnumbers' := hnumbers.relabel θ
  cases hmeta : seq.find? fun a => a.op.isMeta && !isTarget a with
  | some a =>
      refine .inr ⟨Error.metaAction.atLocation a.location, ?_, ?_⟩
      · unfold ofActions
        rw [hmeta]
      · unfold ofActions
        rw [hfind, hmeta, θ.error_atLocation]
        simp [Relabelling.error]
  | none =>
      have hcode : ∃ code, ofActions seq = .ok code := by
        unfold ofActions
        rw [hmeta]
        exact ⟨_, rfl⟩
      have hcode' : ∃ code, ofActions (θ.actions seq) = .ok code := by
        unfold ofActions
        rw [hfind, hmeta]
        exact ⟨_, rfl⟩
      obtain ⟨code, hcode⟩ := hcode
      obtain ⟨code', hcode'⟩ := hcode'
      obtain ⟨-, hactions, -, hcounters⟩ := ofActions_eq_ok hcode
      obtain ⟨-, hactions', -, hcounters'⟩ := ofActions_eq_ok hcode'
      refine .inl ⟨code, code', hcode, hcode', ?_, fun j => ?_, ?_⟩
      · rw [hactions', hactions, strip_relabel]
      · -- a jump leads somewhere where there is a mark of its number
        cases hj : code.target? j with
        | some k =>
            obtain ⟨hpos, -⟩ := target?_eq_getElem?.mp hj
            obtain ⟨i, hi, hmem⟩ := mem_marks_of_target? hcode hj
            have hmem' : (θ.number .jump i, θ.actions k) ∈ targetMarks (θ.actions seq) := by
              rw [targetMarks_relabel]
              exact List.mem_map_of_mem hmem
            have hgiven : i ∈ given .jump seq :=
              targetMarks_given seq ▸ List.mem_map_of_mem hmem
            have hi' := (hnumbers.between .jump i (List.mem_append_left _ hgiven)).1
            obtain rfl : i = j := by omega
            exact target?_of_mark hcode' hnumbers' hmem'
        | none =>
            cases hj' : code'.target? (θ.number .jump j) with
            | none => rfl
            | some k =>
                obtain ⟨hpos, -⟩ := target?_eq_getElem?.mp hj'
                obtain ⟨i, hi, hmem⟩ := mem_marks_of_target? hcode' hj'
                rw [targetMarks_relabel] at hmem
                obtain ⟨⟨i', k'⟩, hmarked, heq⟩ := List.mem_map.mp hmem
                obtain ⟨rfl, rfl⟩ := Prod.mk.inj heq
                have hmark := target?_of_mark hcode hnumbers hmarked
                have hpos' : 0 ≤ i' := (target?_eq_getElem?.mp hmark).1
                have hneg : θ.number .jump i' < 0 ↔ i' < 0 := θ.number_neg
                change (θ.number .jump i').toNat = _ at hi
                obtain rfl : i' = j := θ.number_injective .jump (by omega)
                exact absurd (hmark.symm.trans hj) (by simp)
      · rw [hcounters', hcounters]
        exact counters_relabel seq 0

end Code

/-! ## Stages after the includes -/

namespace Assembler

variable {θ : Relabelling} {asm asm' : Assembler} (hverbose : asm'.verbose = asm.verbose)

/-- The actions of an assembly with all files spliced in. -/
def spliced (asm : Assembler) (actions : List Action) : SessionM (List Action) := do
  asm.notePass .includes actions
  asm.resolveIncludes includeDepth actions

/-- The stages that follow, up to execution. -/
def gathered (asm : Assembler) (spliced : List Action) : SessionM (List Action × Engine) := do
  asm.notePass .macros spliced
  let seq ← asm.expandMacros spliced
  asm.notePass .gather seq
  asm.gather seq

def executed (asm : Assembler) (p : List Action × Engine) : SessionM Assembly :=
  match Code.ofActions p.1 with
  | .error err => throw err
  | .ok code => do
    let e ← withEngine p.2 (runPasses asm.verbose code)
    pure ⟨code, e⟩

theorem assemble_eq_spliced (asm : Assembler) (actions : List Action) :
    asm.assemble actions = asm.spliced actions >>= fun seq => asm.gathered seq >>= asm.executed := by
  unfold spliced gathered
  simp only [bind_assoc]
  rfl

theorem sequence_eq_spliced (asm : Assembler) (actions : List Action) :
    asm.sequence actions = asm.spliced actions >>= asm.gathered := by
  unfold sequence spliced gathered
  simp only [bind_assoc]

include hverbose in
theorem gathered_inStep {acts : List Action} (h : WrittenClauses Op.Resolved acts) :
    InStep θ.Errors θ.Ahead (asm.gathered acts) (asm'.gathered (θ.actions acts))
      (Both (fun p p' => θ.Tells p.1 p'.1 ∧ Engine.Relabelled θ p.2 p'.2) θ.Ahead) := by
  refine (note_ahead asm asm' _ _).andThen fun _ _ _ => ?_
  refine (expandMacros_inStep asm asm' h).andThen fun seq seq' hseq => ?_
  rw [show seq' = θ.actions seq from hseq]
  exact (note_ahead asm asm' _ _).andThen fun _ _ _ => gather_inStep hverbose seq

theorem withEngine_inStep {m m' : EngineM Unit} (h : θ.Echoes m m') {e e' : Engine}
    (he : Engine.Relabelled θ e e') :
    InStep θ.Errors θ.Ahead (withEngine e m) (withEngine e' m')
      (Both (Engine.Relabelled θ) θ.Ahead) := by
  intro s t hst
  have hlog : Engine.Relabelled θ { e with log := s.log } { e' with log := t.log } := by
    obtain ⟨counters, log, rfl, hc⟩ := he
    exact ⟨counters, t.log, rfl, hc⟩
  have hagree := h hlog
  unfold withEngine
  cases hm : m { e with log := s.log } <;> cases hm' : m' { e' with log := t.log } <;>
    rw [hm, hm'] at hagree <;> cases hagree
  · rename_i h
    exact .ok ⟨h.2, hst⟩
  · rename_i h
    exact .error h

include hverbose

/-- Numbered actions are executed alike under other names and numbers. -/
theorem executed_inStep {seq : List Action} {lo hi : Ids} (hnumbers : Numbers lo hi seq [])
    {e e' : Engine} (he : Engine.Relabelled θ e e') :
    InStep θ.Errors θ.Ahead (asm.executed (seq, e)) (asm'.executed (θ.actions seq, e'))
      (Both (fun a a' => Engine.Relabelled θ a.engine a'.engine) θ.Ahead) := by
  unfold executed
  rw [hverbose]
  rcases Code.ofActions_relabel θ hnumbers with ⟨code, code', hcode, hcode', hrelated⟩ |
    ⟨err, herr, herr'⟩
  · simp only [hcode, hcode']
    refine (withEngine_inStep (runPasses_echoes hrelated asm.verbose) he).andThen fun d d' hd => ?_
    exact InStep.pure fun _ _ hst => ⟨hd, hst⟩
  · simp only [herr, herr']
    exact InStep.throw rfl

/-- Once the files of source text are included, an assembly goes on alike under
other names and numbers. -/
theorem assemble_relabel {r : Reader} {file : String} {text : List Text.Glyph}
    {actions seq : List Action} {t₀ t₁ s s₁ t : Session}
    (hmain : r.actions file text t₀ = .ok actions t₁) (hids : t₁.ids ≤ s.ids)
    (hinc : ∀ inc, asm.includer = some inc → inc.InSession)
    (hspliced : asm.spliced actions s = .ok seq s₁) (hahead : θ.Ahead s₁ t) :
    Accord θ.Errors (Both (fun a a' => Engine.Relabelled θ a.engine a'.engine) θ.Ahead)
      ((asm.gathered seq >>= asm.executed) s₁) ((asm'.gathered (θ.actions seq) >>= asm'.executed) t) := by
  have hlowered : Lowered actions := ⟨r, file, text, t₀, t₁, hmain⟩
  have hresolved : WrittenClauses Op.Resolved seq := by
    obtain ⟨_, s₂, -, h⟩ := bind_eq_ok.mp hspliced
    exact resolveIncludes_resolved (fun inc h => (hinc inc h).lowered) includeDepth hlowered.written h
  refine (gathered_inStep hverbose hresolved hahead).bind ?_
  rintro ⟨final, e⟩ s₂ ⟨final', e'⟩ t₂ hgathered ⟨⟨hfinal, he⟩, hahead⟩
  obtain rfl : final' = θ.actions final := hfinal
  have hsequence : asm.sequence actions s = .ok (final, e) s₂ := by
    rw [sequence_eq_spliced, bind_of_ok hspliced, hgathered]
  exact executed_inStep hverbose (sequence_numbers hmain hids hinc hsequence) he hahead

end Assembler

end Mos6510
