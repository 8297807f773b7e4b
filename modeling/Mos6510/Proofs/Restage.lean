import Mos6510.Proofs.Rerun

/-!
# Preparing a mirrored program

Macro expansion and the gathering of symbols treat two programs alike that are
the same but for numbers, locations, and files that are one under two names.

* `Assembler.expandMacros_matched`, `Assembler.gather_mirrored`: what the stages
  make of two programs that match is mirrored, action by action, with numbers
  paired by where they are given;
* `Assembler.assemble_matched`: so they are assembled with the same outcome.
-/

namespace Mos6510

open Outcome

/-- No names stand for one file, where there are none left. -/
def noNames : Location → Location → String → String → Prop := fun _ _ _ _ => False

/-! ## Replacing actions alike -/

/-- What two actions are replaced by is related, and what gives a number is not
replaced by less. -/
structure Replaced (R : Pairing → Action → Action → Prop) (ρ : Pairing) (a a' : Action)
    (bs bs' : List Action) : Prop where
  related : List.Forall₂ (R fun κ n n' => ρ κ n n' ∨ Aligned bs bs' κ n n') bs bs'
  keeps : ∀ κ n n', a.op.given? κ = some n → a'.op.given? κ = some n' → Aligned bs bs' κ n n'

/-- Where each action is replaced like its counterpart, so are all, and the numbers of
what comes of them are paired by where they are given. -/
theorem replaceEach_related {f g : Action → SessionM (List Action)} {S : Action → Action → Prop}
    {R : Pairing → Action → Action → Prop} {I : Session → Session → Prop}
    (hmono : ∀ {ρ τ : Pairing} {a a'}, (∀ κ n n', ρ κ n n' → τ κ n n') → R ρ a a' → R τ a a')
    {ρ : Pairing} (hstep : ∀ {a a' s s' bs s₁}, S a a' → I s s' → f a s = .ok bs s₁ →
      ∃ bs' s₁', g a' s' = .ok bs' s₁' ∧ I s₁ s₁' ∧ Replaced R ρ a a' bs bs')
    {acts acts' out : List Action} {s s₁ s' : Session} (h : List.Forall₂ S acts acts') (hI : I s s')
    (hrun : Assembler.replaceEach f acts s = .ok out s₁) :
    ∃ out' s₁', Assembler.replaceEach g acts' s' = .ok out' s₁' ∧ I s₁ s₁' ∧
      List.Forall₂ (R fun κ n n' => ρ κ n n' ∨ Aligned out out' κ n n') out out' ∧
        ∀ κ n n', Aligned acts acts' κ n n' → Aligned out out' κ n n' := by
  induction h generalizing out s s' with
  | nil =>
      obtain ⟨rfl, rfl⟩ := pure_eq_ok.mp hrun
      exact ⟨[], s', rfl, hI, .nil, fun κ n n' h => absurd h.mem_given List.not_mem_nil⟩
  | @cons a a' acts acts' ha _ ih =>
      obtain ⟨bs, out, s₂, hbs, htail, rfl⟩ := Assembler.replaceEach_cons_eq_ok hrun
      obtain ⟨bs', s₂', hbs', hI', hreplaced⟩ := hstep ha hI hbs
      obtain ⟨out', s₁', hout', hend, hrelated, hkeeps⟩ := ih hI' htail
      have hlength := hreplaced.related.length_eq
      refine ⟨bs' ++ out', s₁', ?_, hend, ?_, ?_⟩
      · rw [Assembler.replaceEach]
        exact bind_eq_ok.mpr ⟨bs', s₂', hbs', bind_eq_ok.mpr ⟨out', s₁', hout', rfl⟩⟩
      · refine List.rel_append (hreplaced.related.imp fun _ _ => hmono fun κ n n' hn => ?_)
          (hrelated.imp fun _ _ => hmono fun κ n n' hn => ?_)
        · exact hn.imp_right fun h => h.append_left hlength
        · exact hn.imp_right fun h => h.append_right hlength
      · rintro κ n n' ⟨p, hp, hn, hn'⟩
        rw [List.zip_cons_cons] at hp
        rcases List.mem_cons.mp hp with rfl | hp
        · exact (hreplaced.keeps κ n n' hn hn').append_left hlength
        · exact (hkeeps κ n n' ⟨p, hp, hn, hn'⟩).append_right hlength

/-- An action that stays is replaced like its counterpart. -/
theorem Replaced.keep {R : Pairing → Action → Action → Prop} {ρ : Pairing} {a a' : Action}
    (h : R (fun κ n n' => ρ κ n n' ∨ Aligned [a] [a'] κ n n') a a') : Replaced R ρ a a' [a] [a'] :=
  ⟨.cons h .nil, fun _ _ _ hn hn' => ⟨_, List.mem_singleton_self _, hn, hn'⟩⟩

/-! ## Renaming -/

section Renaming

variable {ρ τ : Pairing} {op op' : Op} {acts acts' : List Action}

theorem opsOf_mapSymbolsAll (f : String → String) (acts : List Action) :
    opsOf (mapSymbolsAll f acts) = (opsOf acts).map (Op.mapSymbols f) := by
  rw [mapSymbolsAll_eq_map, opsOf, opsOf, List.map_map, List.map_map]
  exact List.map_congr_left fun ⟨loc, op, x⟩ _ => rfl

theorem map_opsOf_mapSymbolsArgs (f : String → String) (args : List (List Action)) :
    (mapSymbolsArgs f args).map opsOf = (args.map opsOf).map (List.map (Op.mapSymbols f)) := by
  rw [mapSymbolsArgs_eq_map, List.map_map, List.map_map]
  exact List.map_congr_left fun arg _ => opsOf_mapSymbolsAll f arg

/-- Which symbols are assigned or placed depends on what the actions do. -/
theorem definedNamesAll_eq (acts : List Action) :
    definedNamesAll acts = (opsOf acts).flatMap Op.definedNames := by
  induction acts with
  | nil => rfl
  | cons a rest ih =>
      obtain ⟨loc, op, x⟩ := a
      rw [definedNamesAll, ih]
      rfl

theorem definedNamesArgs_eq (args : List (List Action)) :
    definedNamesArgs args = (args.map opsOf).flatMap fun ops => ops.flatMap Op.definedNames := by
  induction args with
  | nil => rfl
  | cons arg rest ih =>
      rw [definedNamesArgs, ih, definedNamesAll_eq]
      rfl

theorem Op.Mirrors.definedNames_eq (h : op.Mirrors ρ op') : op.definedNames = op'.definedNames := by
  cases h with
  | message hargs => rw [Op.definedNames, Op.definedNames, definedNamesArgs_eq, definedNamesArgs_eq, hargs]
  | _ => rfl

theorem Mirrored.definedNamesAll_eq (h : Mirrored ρ acts acts') :
    definedNamesAll acts = definedNamesAll acts' := by
  induction h with
  | nil => rfl
  | @cons a a' acts acts' ha _ ih =>
      obtain ⟨loc, op, x⟩ := a
      obtain ⟨loc', op', x'⟩ := a'
      rw [definedNamesAll, definedNamesAll, ih, Action.definedNames, Action.definedNames,
        ha.definedNames_eq]

theorem Mirrored.metaLabelNames_eq (h : Mirrored ρ acts acts') :
    metaLabelNames acts = metaLabelNames acts' := by
  induction h with
  | nil => rfl
  | @cons a a' acts acts' ha _ ih =>
      obtain ⟨loc, op, x⟩ := a
      obtain ⟨loc', op', x'⟩ := a'
      cases ha with
      | @plain op hop =>
          cases op with
          | metaLabel name => exact congrArg (name :: ·) ih
          | _ => exact ih
      | _ => exact ih

/-- Actions that do the same and have no numbers mirror each other. -/
theorem Mirrored.of_opsOf (h : opsOf acts = opsOf acts') (hplain : ∀ a ∈ acts, a.op.isPlain = true) :
    Mirrored ρ acts acts' := by
  induction acts generalizing acts' with
  | nil =>
      obtain rfl : acts' = [] := List.map_eq_nil_iff.mp h.symm
      exact .nil
  | cons a acts ih =>
      obtain ⟨a', acts', rfl, hop, hrest⟩ := List.map_eq_cons_iff.mp h.symm
      obtain ⟨ha, hacts⟩ := List.forall_mem_cons.mp hplain
      refine .cons ?_ (ih hrest.symm hacts)
      rw [hop]
      exact .plain ha

theorem Op.isPlain_of_computes (h : op.computes = true) : op.isPlain = true := by
  cases op <;> first | rfl | cases h

/-- A renaming keeps the numbers paired, if it treats all names alike. -/
theorem Renaming.op_mirrors {r r' : Renaming} (hsymbol : r.symbol = r'.symbol)
    (hmeta : r.metaLabel = r'.metaLabel)
    (hτ : ∀ κ n n', ρ κ n n' → τ κ (r.number κ n) (r'.number κ n')) (h : op.Mirrors ρ op') :
    (r.op op).Mirrors τ (r'.op op') := by
  cases h with
  | @plain op hop =>
      have hsame : r.op op = r'.op op := by
        cases op with
        | metaLabel name => exact congrArg (fun f => Op.metaLabel (f name)) hmeta
        | goto name => exact congrArg (fun f => Op.goto (f name)) hmeta
        | get | set | label => exact congrArg (fun f => Op.mapSymbols f _) hsymbol
        | _ => first | rfl | cases hop
      rw [← hsame]
      exact .plain (by cases op <;> first | rfl | cases hop)
  | bytes name name' bytes => exact .bytes name name' bytes
  | target hj => exact .target (hτ _ _ _ hj)
  | jump hj => exact .jump (hτ _ _ _ hj)
  | jumpIfFalse hj => exact .jumpIfFalse (hτ _ _ _ hj)
  | counterSet hc => exact .counterSet (hτ _ _ _ hc)
  | counterTest hc hj => exact .counterTest (hτ _ _ _ hc) (hτ _ _ _ hj)
  | counterStep hc hj => exact .counterStep (hτ _ _ _ hc) (hτ _ _ _ hj)
  | message hargs =>
      rw [Renaming.op, Renaming.op, Op.mapSymbols, Op.mapSymbols]
      · refine .message ?_
        rw [map_opsOf_mapSymbolsArgs, map_opsOf_mapSymbolsArgs, hargs, hsymbol]
      all_goals simp

/-- Two renamed programs give the renamed numbers at the same places. -/
theorem Aligned.map {κ : Numbered} {n n' : Int} (h : Aligned acts acts' κ n n') (r r' : Renaming)
    (x x' : Expansion) :
    Aligned (acts.map (r.action x)) (acts'.map (r'.action x')) κ (r.number κ n) (r'.number κ n') := by
  obtain ⟨p, hp, hn, hn'⟩ := h
  refine ⟨(r.action x p.1, r'.action x' p.2), ?_, ?_, ?_⟩
  · rw [List.zip_map]
    exact List.mem_map.mpr ⟨p, hp, rfl⟩
  · exact (r.given_op κ p.1.op).trans (by rw [hn]; rfl)
  · exact (r'.given_op κ p.2.op).trans (by rw [hn']; rfl)

end Renaming

/-! ## Calls -/

/-- Two macro definitions that are the same but for numbers and locations. -/
structure WrittenMacro.Mirrors (w w' : WrittenMacro) : Prop where
  name : w.name = w'.name
  params : w.params = w'.params
  body : Mirrored (Aligned w.body w'.body) w.body w'.body

namespace WrittenMacro.Mirrors

variable {w w' : WrittenMacro}

theorem symbol_eq (h : w.Mirrors w') (seq : Nat) (ids ids' : Ids) :
    (w.callRenaming seq ids).symbol = (w'.callRenaming seq ids').symbol := by
  funext name
  unfold callRenaming defined
  rw [h.params, h.body.definedNamesAll_eq, h.name]

theorem metaLabel_eq (h : w.Mirrors w') (seq : Nat) (ids ids' : Ids) :
    (w.callRenaming seq ids).metaLabel = (w'.callRenaming seq ids').metaLabel := by
  funext name
  unfold callRenaming
  rw [h.body.metaLabelNames_eq]

/-- The assignments to parameters are the same. -/
theorem bindings_mirrored {ρ : Pairing} (h : w.Mirrors w') {r r' : Renaming}
    (hsymbol : r.symbol = r'.symbol) (call call' : Location) {args args' : List (List Action)}
    (hargs : args.map opsOf = args'.map opsOf) (hcomputes : ∀ arg ∈ args, Computes arg) :
    Mirrored ρ (w.bindings r call args) (w'.bindings r' call' args') := by
  unfold bindings
  rw [← h.params]
  generalize w.params = params
  induction params generalizing args args' with
  | nil => exact .nil
  | cons p params ih =>
      cases args with
      | nil =>
          obtain rfl : args' = [] := List.map_eq_nil_iff.mp hargs.symm
          exact .nil
      | cons arg args =>
          obtain ⟨arg', args', rfl, harg, hrest⟩ := List.map_eq_cons_iff.mp hargs.symm
          obtain ⟨hc, hcomputes⟩ := List.forall_mem_cons.mp hcomputes
          rw [List.zip_cons_cons, List.zip_cons_cons, List.flatMap_cons, List.flatMap_cons]
          refine Mirrored.append (Mirrored.append ?_ ?_) (ih hrest.symm hcomputes)
          · exact .of_opsOf harg.symm fun a ha => Op.isPlain_of_computes (hc a ha)
          · rw [hsymbol]
            exact .cons (.plain rfl) .nil

end WrittenMacro.Mirrors

/-- A call of one macro is replaced by what a call of the other is, with the numbers
of the bodies paired. -/
theorem Call.actions_mirrored {k k' : Call} (hdefinition : k.definition.Mirrors k'.definition)
    (hargs : k.args.map opsOf = k'.args.map opsOf) (hcomputes : ∀ arg ∈ k.args, Computes arg)
    (hseq : k.seq = k'.seq) : Mirrored (Aligned k.actions k'.actions) k.actions k'.actions := by
  have hsymbol : k.renames.symbol = k'.renames.symbol := by
    unfold renames
    rw [← hseq]
    exact hdefinition.symbol_eq k.seq k.ids k'.ids
  have hmeta : k.renames.metaLabel = k'.renames.metaLabel := by
    unfold renames
    rw [← hseq]
    exact hdefinition.metaLabel_eq k.seq k.ids k'.ids
  have hbindings : ∀ {ρ}, Mirrored ρ (k.definition.bindings k.renames k.location k.args)
      (k'.definition.bindings k'.renames k'.location k'.args) :=
    fun {ρ} => hdefinition.bindings_mirrored hsymbol _ _ hargs hcomputes
  refine .cons ?_ (hbindings.append ?_)
  · show (Op.label _ true).Mirrors _ (Op.label _ true)
    rw [hdefinition.name, hseq]
    exact .plain rfl
  · refine List.forall₂_map_left_iff.mpr (List.forall₂_map_right_iff.mpr ?_)
    refine List.Forall₂.imp (fun a a' ha => ?_) hdefinition.body
    refine Renaming.op_mirrors hsymbol hmeta (fun κ n n' hn => ?_) ha
    refine Aligned.cons (Aligned.append_right ?_ (hbindings (ρ := fun _ _ _ => True)).length_eq)
    exact hn.map k.renames k'.renames k.mark k'.mark

/-! ## Macros -/

/-- The known macros of two programs are the same but for numbers and locations. -/
def MacrosMirror : List (String × MacroDef) → List (String × MacroDef) → Prop :=
  List.Forall₂ fun p p' => ∃ w w' : WrittenMacro, p = (w.name, w.define) ∧ p' = (w'.name, w'.define) ∧
    w.Mirrors w' ∧ w.Sound ∧ w'.Sound

namespace MacrosMirror

variable {known known' : List (String × MacroDef)}

/-- A macro that is known in one program is known in the other. -/
theorem lookup (h : MacrosMirror known known') (name : String) :
    (known.lookup name = none ∧ known'.lookup name = none) ∨
      ∃ w w' : WrittenMacro, known.lookup name = some w.define ∧
        known'.lookup name = some w'.define ∧ w.Mirrors w' ∧ w.Sound ∧ w'.Sound := by
  induction h with
  | nil => exact .inl ⟨rfl, rfl⟩
  | cons hp _ ih =>
      obtain ⟨w, w', rfl, rfl, hw, hsound, hsound'⟩ := hp
      rw [List.lookup_cons, List.lookup_cons, ← hw.name]
      split
      · exact .inr ⟨w, w', rfl, rfl, hw, hsound, hsound'⟩
      · exact ih

end MacrosMirror

namespace Assembler

variable {ρ : Pairing} {asm : Assembler} {known known' found : List (String × MacroDef)}
  {a a' : Action} {acts acts' : List Action}

/-- Two programs that match define the same macros. -/
theorem collectMacros_matched (h : Matched ρ noNames acts acts')
    (hsound : ∀ w ∈ writtenMacros acts, w.Sound) (hsound' : ∀ w ∈ writtenMacros acts', w.Sound)
    (hknown : MacrosMirror known known') (hcollect : collectMacros acts known = .ok found) :
    ∃ found', collectMacros acts' known' = .ok found' ∧ MacrosMirror found found' := by
  induction h generalizing known known' with
  | nil =>
      cases hcollect
      exact ⟨known', rfl, hknown⟩
  | @cons a a' acts acts' ha _ ih =>
      obtain ⟨loc, op, x⟩ := a
      obtain ⟨loc', op', x'⟩ := a'
      have hrest : ∀ {acts : List Action} (a), (∀ w ∈ writtenMacros (a :: acts), w.Sound) →
          ∀ w ∈ writtenMacros acts, w.Sound := by
        intro acts a h w hw
        obtain ⟨x, hw⟩ := mem_writtenMacros.mp hw
        exact h w (mem_writtenMacros.mpr ⟨x, List.mem_cons_of_mem _ hw⟩)
      have hskip : ∀ {known known'}, MacrosMirror known known' → collectMacros acts known = .ok found →
          ∃ found', collectMacros acts' known' = .ok found' ∧ MacrosMirror found found' :=
        ih (hrest _ hsound) (hrest _ hsound')
      cases ha with
      | @defineMacro name params body body' τ hτ hbody =>
          let w : WrittenMacro := ⟨loc, name, params, body⟩
          let w' : WrittenMacro := ⟨loc', name, params, body'⟩
          have hw : w.Sound := hsound w (mem_writtenMacros.mpr ⟨x, List.mem_cons_self⟩)
          have hw' : w'.Sound := hsound' w' (mem_writtenMacros.mpr ⟨x', List.mem_cons_self⟩)
          rw [collectMacros] at hcollect
          rw [collectMacros]
          -- a name that is new on one side is new on the other, as the tables have the same names
          rcases hknown.lookup name with ⟨hnone, hnone'⟩ | ⟨v, v', hv, -⟩
          · simp only [hnone, hnone'] at hcollect ⊢
            have hmirrors : w.Mirrors w' := ⟨rfl, rfl, hbody.aligned hτ hw.linked⟩
            exact hskip (.cons ⟨w, w', rfl, rfl, hmirrors, hw, hw'⟩ hknown) hcollect
          · simp only [hv] at hcollect
            cases hcollect
      | mirrors hop =>
          cases hop with
          | @plain op hplain => cases op <;> first | exact hskip hknown hcollect | cases hplain
          | _ => exact hskip hknown hcollect
      | callMacro => exact hskip hknown hcollect
      | includeBinary hnever => exact hnever.elim

/-- A call is expanded where its counterpart is. -/
theorem replaceCall_matched (hsound : a.op.Sound)
    (h : a.op.Matches ρ (noNames a.location a'.location) a'.op)
    (hknown : MacrosMirror known known') {bs : List Action} {s s₁ s' : Session}
    (hseq : s.ids.seq = s'.ids.seq)
    (hreplace : asm.replaceCall known a s = .ok bs s₁) :
    ∃ bs' s₁', asm.replaceCall known' a' s' = .ok bs' s₁' ∧ s₁.ids.seq = s₁'.ids.seq ∧
      Replaced (fun ρ a a' => a.op.Mirrors ρ a'.op) ρ a a' bs bs' := by
  obtain ⟨loc, op, x⟩ := a
  obtain ⟨loc', op', x'⟩ := a'
  cases h with
  | mirrors hop =>
      have hkept : ∀ {op op' : Op} (known) (loc) (x), (op.Mirrors ρ op' ∨ op'.Mirrors ρ op) →
          asm.replaceCall known ⟨loc, op, x⟩ = pure [⟨loc, op, x⟩] := by
        rintro op op' known loc x (hop | hop) <;> cases hop with
        | @plain op hplain => cases op <;> first | rfl | cases hplain
        | _ => rfl
      rw [hkept known loc x (.inl hop)] at hreplace
      obtain ⟨rfl, rfl⟩ := pure_eq_ok.mp hreplace
      exact ⟨_, s', by rw [hkept known' loc' x' (.inr hop)]; rfl, hseq,
        .keep (hop.mono fun _ _ _ => .inl)⟩
  | defineMacro =>
      obtain ⟨rfl, rfl⟩ := pure_eq_ok.mp hreplace
      exact ⟨[], s', rfl, hseq, .nil, fun κ n n' hn => by cases κ <;> cases hn⟩
  | @callMacro name args args' hargs =>
      have hcomputes : ∀ arg ∈ args, Computes arg := by
        cases hsound with
        | callMacro hargs => exact fun arg harg => (hargs arg harg).computes
        | flat hflat => cases hflat
      simp only [replaceCall] at hreplace
      rcases hknown.lookup name with ⟨hnone, -⟩ | ⟨w, w', hw, hw', hmirrors, hsound, hsound'⟩
      · simp only [hnone] at hreplace
        exact absurd hreplace throw_ne_ok
      simp only [hw] at hreplace
      obtain ⟨seq, s₂, hnext, h⟩ := bind_eq_ok.mp hreplace
      obtain ⟨acts, s₃, hacts, h⟩ := bind_eq_ok.mp h
      obtain ⟨_, s₄, hnote, h⟩ := bind_eq_ok.mp h
      obtain ⟨rfl, rfl⟩ := pure_eq_ok.mp h
      cases hnext
      cases hnote
      let k : Call := ⟨w, loc, args, s.ids.seq + 1, { s.ids with seq := s.ids.seq + 1 }⟩
      let k' : Call := ⟨w', loc', args', s'.ids.seq + 1, { s'.ids with seq := s'.ids.seq + 1 }⟩
      unfold withIds at hacts
      split at hacts
      · rename_i acts ids hinstantiate
        cases hacts
        have hcount : args.length = w.params.length := by
          have hcount := MacroDef.length_of_instantiate hinstantiate
          rwa [show w.define.params = w.params.map MacroDef.hide from rfl, List.length_map] at hcount
        have hcount' : args'.length = w'.params.length := by
          rw [← hmirrors.params, ← hcount]
          simpa using congrArg List.length hargs.symm
        have heq := WrittenMacro.instantiate_eq hsound loc hcount k.seq k.ids
        have heq' := WrittenMacro.instantiate_eq hsound' loc' hcount' k'.seq k'.ids
        obtain ⟨rfl, rfl⟩ := ok_eq_ok.mp (hinstantiate.symm.trans heq)
        have hmirrored : Mirrored (Aligned k.actions k'.actions) k.actions k'.actions :=
          Call.actions_mirrored hmirrors hargs hcomputes (congrArg (· + 1) hseq)
        let t : Session := { s' with
          ids := w'.idsAfter k'.ids
          log := s'.log.addIf asm.verbose (loc'.render ++ ": expand " ++ w'.define.render ++ ": "
            ++ Text.decimal k'.actions.length ++ " actions") }
        -- the second call has the next numbers of its own session, whatever these are
        have hrun : asm.replaceCall known' ⟨loc', .callMacro name args', x'⟩ s' = .ok k'.actions t := by
          simp only [replaceCall, hw']
          refine bind_eq_ok.mpr ⟨k'.seq, { s' with ids := k'.ids }, rfl, bind_eq_ok.mpr ?_⟩
          refine ⟨k'.actions, { s' with ids := w'.idsAfter k'.ids }, ?_, rfl⟩
          unfold withIds
          simp only [heq']
          rfl
        refine ⟨k'.actions, t, hrun, congrArg (· + 1) hseq, hmirrored.mono fun _ _ _ => .inr,
          fun κ n n' hn => ?_⟩
        cases κ <;> cases hn
      · cases hacts
  | includeBinary hnever => exact hnever.elim

/-- Two programs that match are expanded to two that mirror each other. -/
theorem expandMacros_matched {out : List Action} {s s₁ : Session} (s' : Session)
    (h : Matched (Aligned acts acts') noNames acts acts') (hacts : AllSound acts)
    (hsound : ∀ w ∈ writtenMacros acts, w.Sound) (hsound' : ∀ w ∈ writtenMacros acts', w.Sound)
    (hseq : s.ids.seq = s'.ids.seq) (hexpand : asm.expandMacros acts s = .ok out s₁) :
    ∃ out' s₁', asm.expandMacros acts' s' = .ok out' s₁' ∧ Mirrored (Aligned out out') out out' := by
  unfold expandMacros at hexpand ⊢
  cases hcollect : collectMacros acts [] with
  | error err =>
      simp only [hcollect] at hexpand
      exact absurd hexpand throw_ne_ok
  | ok known =>
      simp only [hcollect] at hexpand
      obtain ⟨known', hcollect', hknown⟩ := collectMacros_matched h hsound hsound' .nil hcollect
      simp only [hcollect']
      have hboth := (List.forall₂_and_left _ _).mpr ⟨hacts, h⟩
      obtain ⟨out', s₁', hout', -, hrelated, hkeeps⟩ := replaceEach_related
        (R := fun ρ a a' => a.op.Mirrors ρ a'.op) (I := fun s s' => s.ids.seq = s'.ids.seq)
        (fun hle h => h.mono hle)
        (fun {_ _ _ _ _ _} h hseq => replaceCall_matched h.1 h.2 hknown hseq) hboth hseq hexpand
      exact ⟨out', s₁', hout', Mirrored.mono hrelated fun κ n n' hn => hn.elim (hkeeps κ n n') id⟩

end Assembler

/-! ## Symbols -/

namespace Gather

variable {ρ : Pairing} {acts acts' : List Action} {known known' labels labels' : List (String × Nat)}

/-- What is found depends on the names. -/
theorem isSome_lookup (h : known.map Prod.fst = known'.map Prod.fst) (name : String) :
    (known.lookup name).isSome = (known'.lookup name).isSome := by
  induction known generalizing known' with
  | nil =>
      obtain rfl : known' = [] := List.map_eq_nil_iff.mp h.symm
      rfl
  | cons p known ih =>
      obtain ⟨⟨other, n⟩, known', rfl, hname, hrest⟩ := List.map_eq_cons_iff.mp h.symm
      obtain ⟨own, m⟩ := p
      obtain rfl : other = own := hname
      rw [List.lookup_cons, List.lookup_cons]
      split
      · rfl
      · exact ih hrest.symm

/-- Two programs that mirror each other have the same `.LABEL`s. -/
theorem numberLabels_mirrored {i j : Ids} (i' : Ids) (h : Mirrored ρ acts acts')
    (hnames : known.map Prod.fst = known'.map Prod.fst)
    (hlabels : numberLabels acts known i = .ok labels j) :
    ∃ labels' j', numberLabels acts' known' i' = .ok labels' j' ∧
      labels.map Prod.fst = labels'.map Prod.fst := by
  induction h generalizing known known' i i' with
  | nil =>
      obtain ⟨rfl, rfl⟩ := pure_eq_ok.mp hlabels
      exact ⟨known', i', rfl, hnames⟩
  | @cons a a' acts acts' ha _ ih =>
      obtain ⟨loc, op, x⟩ := a
      obtain ⟨loc', op', x'⟩ := a'
      cases ha with
      | @plain op hop =>
          cases op with
          | metaLabel name =>
              simp only [numberLabels] at hlabels ⊢
              rw [isSome_lookup hnames name] at hlabels
              split at hlabels
              · cases hlabels
              · rename_i hnew
                rw [if_neg hnew]
                exact ih _ (by rw [List.map_cons, List.map_cons, hnames]) hlabels
          | _ => exact ih _ hnames hlabels
      | _ => exact ih _ hnames hlabels

/-- The symbols of two programs that mirror each other are declared alike. -/
theorem declareAll_mirrored (h : Mirrored ρ acts acts')
    (hnames : labels.map Prod.fst = labels'.map Prod.fst) {parent : String} {r : List Action}
    {e e' : Engine} (hdeclare : declareAll labels parent acts e = .ok r e') :
    ∃ r', declareAll labels' parent acts' e = .ok r' e' := by
  induction h generalizing parent r e with
  | nil =>
      obtain ⟨-, rfl⟩ := pure_eq_ok.mp hdeclare
      exact ⟨[], rfl⟩
  | @cons a a' acts acts' ha _ ih =>
      obtain ⟨⟨b, next⟩, e₁, hb, hrest⟩ := bind_eq_ok.mp hdeclare
      obtain ⟨bs, e₂, hbs, hend⟩ := bind_eq_ok.mp hrest
      obtain ⟨-, rfl⟩ := pure_eq_ok.mp hend
      obtain ⟨bs', hbs'⟩ := ih hbs
      -- names are the same on both sides, and numbers have no part in declaring
      have haction : ∃ b', declareAction labels' parent a' e = .ok (b', next) e₁ := by
        obtain ⟨loc, op, x⟩ := a
        obtain ⟨loc', op', x'⟩ := a'
        cases ha with
        | @plain op hop =>
            cases op with
            | goto name =>
                simp only [declareAction] at hb ⊢
                have hsome := isSome_lookup hnames name
                cases hfound : labels.lookup name with
                | none =>
                    simp only [hfound] at hb
                    cases hb
                | some j =>
                    simp only [hfound] at hb
                    cases hb
                    rw [hfound] at hsome
                    obtain ⟨j', hfound'⟩ := Option.isSome_iff_exists.mp hsome.symm
                    simp only [hfound']
                    exact ⟨_, rfl⟩
            | set name | label name =>
                simp only [declareAction] at hb ⊢
                split at hb
                · rename_i hrun
                  cases hb
                  exact ⟨_, rfl⟩
                · cases hb
            | _ =>
                cases hb
                exact ⟨_, rfl⟩
        | _ =>
            cases hb
            exact ⟨_, rfl⟩
      obtain ⟨b', hb'⟩ := haction
      exact ⟨b' :: bs', bind_eq_ok.mpr ⟨(b', next), e₁, hb', bind_eq_ok.mpr ⟨bs', e', hbs', rfl⟩⟩⟩

/-- Settling leaves what is paired at its place. -/
theorem aligned_settle {κ : Numbered} {n n' : Int} (h : Aligned acts acts' κ n n') :
    Aligned (acts.map (settle labels)) (acts'.map (settle labels')) κ n n' := by
  have hgiven : ∀ {labels : List (String × Nat)} {a : Action} {n}, a.op.given? κ = some n →
      (settle labels a).op.given? κ = some n := by
    intro labels a n hn
    obtain ⟨loc, op, x⟩ := a
    cases op with
    | metaLabel | goto => cases κ <;> cases hn
    | _ => exact hn
  obtain ⟨p, hp, hn, hn'⟩ := h
  refine ⟨(settle labels p.1, settle labels' p.2), ?_, hgiven hn, hgiven hn'⟩
  rw [List.zip_map]
  exact List.mem_map.mpr ⟨p, hp, rfl⟩

/-- Once `.LABEL`s are settled, two programs still mirror each other: a `.GOTO`
takes the number that its `.LABEL` got. -/
theorem settle_mirrored (h : Mirrored (Aligned acts acts') acts acts')
    (hgotos : ∀ a ∈ acts, ∀ name, a.op = .goto name → name ∈ metaLabelNames acts) :
    Mirrored (Aligned (acts.map (settle labels)) (acts'.map (settle labels')))
      (acts.map (settle labels)) (acts'.map (settle labels')) := by
  -- the numbers of a `.LABEL` are paired where it stands
  have hown : ∀ a a' name, (a, a') ∈ acts.zip acts' → a.op = .metaLabel name →
      a'.op = .metaLabel name →
        Aligned (acts.map (settle labels)) (acts'.map (settle labels')) .jump (jumpOf labels name)
          (jumpOf labels' name) := by
    intro a a' name hp hop hop'
    refine ⟨(settle labels a, settle labels' a'), ?_, ?_, ?_⟩
    · rw [List.zip_map]
      exact List.mem_map.mpr ⟨_, hp, rfl⟩
    · unfold settle
      rw [hop]
      rfl
    · unfold settle
      rw [hop']
      rfl
  refine List.forall₂_map_left_iff.mpr (List.forall₂_map_right_iff.mpr ?_)
  refine List.forall₂_iff_zip.mpr ⟨h.length_eq, fun {a a'} hp => ?_⟩
  have hmirrors := h.of_mem_zip hp
  obtain ⟨loc, op, x⟩ := a
  obtain ⟨loc', op', x'⟩ := a'
  have hkeep : op.Mirrors (Aligned (acts.map (settle labels)) (acts'.map (settle labels'))) op' :=
    hmirrors.mono fun κ n n' hn => aligned_settle hn
  cases hmirrors with
  | @plain op hplain =>
      cases op with
      | metaLabel name => exact .target (hown _ _ name hp rfl rfl)
      -- a jump is paired by way of the `.LABEL` that it goes to
      | goto name =>
          obtain ⟨b, hb, hname⟩ := List.mem_filterMap.mp (hgotos _ (List.of_mem_zip hp).1 name rfl)
          have hop : b.op = .metaLabel name := by
            split at hname
            · rename_i hop
              cases hname
              exact hop
            · cases hname
          obtain ⟨i, hi, rfl⟩ := List.getElem_of_mem hb
          have hi' : i < acts'.length := h.length_eq ▸ hi
          have hzip : (acts[i], acts'[i]) ∈ acts.zip acts' :=
            List.mem_iff_getElem.mpr ⟨i, by simpa using ⟨hi, hi'⟩, by simp⟩
          have hsame := h.of_mem_zip hzip
          simp only [hop] at hsame
          have hop' : acts'[i].op = .metaLabel name := by
            generalize acts'[i].op = op at hsame
            cases hsame
            rfl
          exact .jump (hown _ _ name hzip hop hop')
      | _ => exact hkeep
  | _ => exact hkeep

end Gather

namespace Assembler

variable {asm : Assembler} {acts acts' seq : List Action} {e : Engine} {s s₁ s' : Session}

/-- Two programs that mirror each other are gathered to two that do, on the same
engine. -/
theorem gather_mirrored (s' : Session) (h : Mirrored (Aligned acts acts') acts acts')
    (hgather : asm.gather acts s = .ok (seq, e) s₁) :
    ∃ seq' s₁', asm.gather acts' s' = .ok (seq', e) s₁' ∧ Mirrored (Aligned seq seq') seq seq' := by
  obtain ⟨labels, hlabels, hdeclare⟩ := gather_eq_ok hgather
  obtain ⟨labels', j', hlabels', hnames⟩ :=
    Gather.numberLabels_mirrored s'.ids h (Eq.refl (List.map Prod.fst [])) hlabels
  obtain ⟨seq', hdeclare'⟩ := Gather.declareAll_mirrored h hnames hdeclare
  obtain ⟨rfl, hgotos⟩ := Gather.declareAll_eq_settle hdeclare
  obtain ⟨rfl, -⟩ := Gather.declareAll_eq_settle hdeclare'
  obtain ⟨-, -, hsource, -⟩ := Gather.numberLabels_eq_ok hlabels
  refine ⟨acts'.map (Gather.settle labels'), { s' with
    ids := j'
    log := s'.log.addIf asm.verbose ("gather: " ++ Text.decimal e.vars.size ++ " variables, "
      ++ Text.decimal e.labels.size ++ " labels, "
      ++ Text.decimal labels'.length ++ " meta labels") }, ?_, Gather.settle_mirrored h ?_⟩
  · unfold gather
    refine bind_eq_ok.mpr ⟨labels', { s' with ids := j' }, ?_, ?_⟩
    · unfold withIds
      rw [hlabels']
    · simp only [hdeclare']
      rfl
  · exact fun a ha name hop => (hsource name (hgotos a ha name hop)).resolve_left (by simp)

/-- What two programs come to once their files are included matches. -/
def IncludesMatch (asm : Assembler) (actions actions' : List Action) (seq : Nat) : Prop :=
  ∀ s s₁ s' included, s.ids.seq = seq → s'.ids.seq = seq →
    asm.resolveIncludes includeDepth actions s = .ok included s₁ →
      ∃ included' s₁', asm.resolveIncludes includeDepth actions' s' = .ok included' s₁' ∧
        s₁.ids.seq = s₁'.ids.seq ∧ Matched (Aligned included included') noNames included included'

variable {actions actions' : List Action}

/-- Two programs whose files match become two sequences that mirror each other. -/
theorem sequence_matched (hinc : ∀ inc, asm.includer = some inc → inc.Lowered)
    (hlowered : Lowered actions) (hlowered' : Lowered actions') (hseq : s.ids.seq = s'.ids.seq)
    (hmatch : asm.IncludesMatch actions actions' s.ids.seq)
    (h : asm.sequence actions s = .ok (seq, e) s₁) :
    ∃ seq' s₁', asm.sequence actions' s' = .ok (seq', e) s₁' ∧
      Mirrored (Aligned seq seq') seq seq' := by
  obtain ⟨included, expanded, t₁, t₂, t₃, t₄, t₅, hids₁, hincluded, hids₃, hexpanded, -, hgathered⟩ :=
    sequence_eq_ok h
  let t : Session := { s' with
    log := s'.log.addIf asm.verbose (Pass.includes.name ++ ": " ++ Text.decimal actions'.length
      ++ " actions") }
  obtain ⟨included', u, hincluded', hseq', hmatched⟩ :=
    hmatch t₁ t₂ t included (by rw [hids₁]) hseq.symm hincluded
  let u₁ : Session := { u with
    log := u.log.addIf asm.verbose (Pass.macros.name ++ ": " ++ Text.decimal included'.length
      ++ " actions") }
  have hresolved := resolveIncludes_resolved hinc includeDepth hlowered.written hincluded
  have hresolved' := resolveIncludes_resolved hinc includeDepth hlowered'.written hincluded'
  have hsound := resolveIncludes_sound hinc includeDepth hlowered.allSound ⟨_, _, hincluded⟩
  obtain ⟨expanded', v, hexpanded', hmirrored⟩ := expandMacros_matched u₁ hmatched hsound
    (sound_of_resolved hresolved) (sound_of_resolved hresolved')
    ((congrArg Ids.seq hids₃).trans hseq') hexpanded
  let v₁ : Session := { v with
    log := v.log.addIf asm.verbose (Pass.gather.name ++ ": " ++ Text.decimal expanded'.length
      ++ " actions") }
  obtain ⟨seq', w, hgathered', hsettled⟩ := gather_mirrored v₁ hmirrored hgathered
  refine ⟨seq', w, ?_, hsettled⟩
  unfold sequence
  refine bind_eq_ok.mpr ⟨(), t, rfl, bind_eq_ok.mpr ⟨included', u, hincluded', ?_⟩⟩
  refine bind_eq_ok.mpr ⟨(), u₁, rfl, bind_eq_ok.mpr ⟨expanded', v, hexpanded', ?_⟩⟩
  exact bind_eq_ok.mpr ⟨(), v₁, rfl, hgathered'⟩

/-- Of two source texts whose files match, one is assembled where the other is, and
with the same outcome but for locations and the state of control. -/
theorem assemble_matched {r : Reader} {file file' : String} {text text' : List Text.Glyph}
    (hinc : ∀ inc, asm.includer = some inc → inc.InSession) {t t' : Session}
    (hread : r.actions file text t = .ok actions s) (hread' : r.actions file' text' t' = .ok actions' s')
    (hseq : s.ids.seq = s'.ids.seq) (hmatch : asm.IncludesMatch actions actions' s.ids.seq)
    {a : Assembly} (h : asm.assemble actions s = .ok a s₁) :
    ∃ a' s₁', asm.assemble actions' s' = .ok a' s₁' ∧ a.engine.core = a'.engine.core := by
  have hincluders : ∀ inc, asm.includer = some inc → inc.Lowered := fun inc h => (hinc inc h).lowered
  have hlowered : Lowered actions := ⟨r, file, text, t, s, hread⟩
  have hlowered' : Lowered actions' := ⟨r, file', text', t', s', hread'⟩
  rw [assemble_eq, prepare_eq] at h
  obtain ⟨⟨code, e⟩, u, hprepare, h⟩ := bind_eq_ok.mp h
  obtain ⟨⟨seq, e₀⟩, v, hsequence, hcode⟩ := bind_eq_ok.mp hprepare
  obtain ⟨seq', v', hsequence', hmirrored⟩ :=
    sequence_matched hincluders hlowered hlowered' hseq hmatch hsequence
  have hspeaks := speaks_of_clauses (sequence_clauses hlowered hincluders hsequence)
  have hnumbers := sequence_numbers hread le_rfl hinc hsequence
  have hnumbers' := sequence_numbers hread' le_rfl hinc hsequence'
  cases hofActions : Code.ofActions seq with
  | error err =>
      simp only [hofActions] at hcode
      exact absurd hcode throw_ne_ok
  | ok code₀ =>
      simp only [hofActions] at hcode
      obtain ⟨hpair, rfl⟩ := pure_eq_ok.mp hcode
      cases hpair
      obtain ⟨code', hcode', hmirrors⟩ :=
        Code.ofActions_mirrored hnumbers hnumbers' hmirrored hspeaks hofActions
      obtain ⟨n, w, hengine, hend⟩ := bind_eq_ok.mp h
      obtain ⟨rfl, rfl⟩ := pure_eq_ok.mp hend
      obtain ⟨hpasses, -⟩ := withEngine_eq_ok_iff.mp hengine
      have hstart : Engine.core { e with log := u.log } = Engine.core { e with log := v'.log } := rfl
      obtain ⟨n', hpasses', hcore⟩ := runPasses_mirrored hmirrors hstart hpasses
      refine ⟨⟨code', n'⟩, { v' with log := n'.log }, ?_, hcore⟩
      rw [assemble_eq, prepare_eq]
      refine bind_eq_ok.mpr ⟨(code', e), v', bind_eq_ok.mpr ⟨(seq', e), v', hsequence', ?_⟩, ?_⟩
      · simp only [hcode']
        rfl
      · exact bind_eq_ok.mpr ⟨n', _, withEngine_eq_ok_iff.mpr ⟨hpasses', rfl⟩, rfl⟩

end Assembler

end Mos6510
