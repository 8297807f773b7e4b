import Mos6510.Proofs.Settled

/-!
# Linked programs

All parts of a program take their numbers from one session.  So the sequence
that is prepared for execution is linked, whatever was included and whichever
macros were called on the way.

* `Includer.InSession`: included files take their numbers from the session;
* `Replaces i j acts r`: in any numbered program `r` can take the place of
  `acts`, if the numbers given out go from `i` to `j` meanwhile;
* `resolveIncludes_replaces`, `Expanded.replaces`, `Gather.settle_replaces`:
  all stages replace actions in this way;
* `sequence_numbers`: so the sequence is numbered.
-/

namespace Mos6510

open Outcome

/-! ## Sessions -/

/-- Included files are read with the numbers of the session. -/
structure Includer.InSession (inc : Includer) : Prop where
  source : ∀ ⦃name loc acts s s'⦄, inc.source name loc s = .ok acts s' →
    ∃ (r : Reader) (file : String) (text : List Text.Glyph) (t t' : Session),
      s.ids ≤ t.ids ∧ r.actions file text t = .ok acts t' ∧ t'.ids ≤ s'.ids
  binary : ∀ ⦃name loc bytes s s'⦄, inc.binary name loc s = .ok bytes s' → s.ids ≤ s'.ids

theorem Includer.InSession.lowered {inc : Includer} (h : inc.InSession) : inc.Lowered := by
  rintro name loc acts ⟨s, s', hrun⟩
  obtain ⟨r, file, text, t, t', -, hread, -⟩ := h.source hrun
  exact ⟨r, file, text, t, t', hread⟩

namespace Loader

variable {ld : Loader} {name file : String} {loc : Location} {s s' : Session}

theorem resolve_ids (h : ld.resolve name loc s = .ok file s') : s'.ids = s.ids := by
  unfold resolve at h
  dsimp only at h
  split at h
  · cases h
    rfl
  · cases h

/-- A loader reads files with the numbers of the session. -/
theorem includer_inSession (ld : Loader) : ld.includer.InSession where
  source name loc acts s s' h := by
    change ld.source name loc s = .ok acts s' at h
    unfold source at h
    obtain ⟨file, s₁, hresolve, hrest⟩ := bind_eq_ok.mp h
    rw [bind_of_ok (get_eq_ok.mpr ⟨rfl, rfl⟩)] at hrest
    split at hrest
    · exact absurd hrest throw_ne_ok
    -- between resolving the name and reading the text only the notes of the session change
    · obtain ⟨_, s₂, hmodify, hnoted⟩ := bind_eq_ok.mp hrest
      obtain ⟨_, s₃, hnote, hread⟩ := bind_eq_ok.mp hnoted
      cases hmodify
      cases hnote
      cases hsource : ld.library.source file with
      | error err =>
          simp only [hsource] at hread
          exact absurd hread throw_ne_ok
      | ok bytes =>
          simp only [hsource] at hread
          refine ⟨ld.reader, file, _, _, s', ?_, hread, le_refl _⟩
          exact (resolve_ids hresolve).ge
  binary name loc bytes s s' h := by
    change ld.binary name loc s = .ok bytes s' at h
    unfold binary at h
    obtain ⟨file, s₁, hresolve, hrest⟩ := bind_eq_ok.mp h
    obtain ⟨_, s₂, hnote, hread⟩ := bind_eq_ok.mp hrest
    cases hnote
    cases hbinary : ld.library.binary file with
    | error err =>
        simp only [hbinary] at hread
        exact absurd hread throw_ne_ok
    | ok bytes' =>
        simp only [hbinary] at hread
        obtain ⟨-, rfl⟩ := pure_eq_ok.mp hread
        exact (resolve_ids hresolve).ge

end Loader

/-! ## Replacing actions -/

/-- In any numbered program some actions can take the place of others, while
the numbers given out go from one state to another. -/
structure Replaces (i j : Ids) (acts r : List Action) : Prop where
  le : i ≤ j
  numbers : ∀ {lo before after}, lo ≤ i → Numbers lo i (before ++ acts ++ after) [] →
    Numbers lo j (before ++ r ++ after) []

namespace Replaces

variable {i j k : Ids} {acts as bs r r' : List Action}

theorem refl (i : Ids) (acts : List Action) : Replaces i i acts acts := ⟨le_refl i, fun _ h => h⟩

theorem trans (h : Replaces i j acts r) (h' : Replaces j k r r') : Replaces i k acts r' :=
  ⟨h.le.trans h'.le, fun hlo hall => h'.numbers (hlo.trans h.le) (h.numbers hlo hall)⟩

theorem append (h : Replaces i j as r) (h' : Replaces j k bs r') :
    Replaces i k (as ++ bs) (r ++ r') where
  le := h.le.trans h'.le
  numbers {lo before after} hlo hall := by
    have hfirst : Numbers lo j (before ++ r ++ (bs ++ after)) [] :=
      h.numbers hlo (by simpa only [List.append_assoc] using hall)
    have hboth : Numbers lo k (before ++ r ++ r' ++ after) [] :=
      h'.numbers (hlo.trans h.le) (by simpa only [List.append_assoc] using hfirst)
    simpa only [List.append_assoc] using hboth

/-- Actions with numbers of their own take the place of actions without. -/
theorem of_numbers (hle : i ≤ j) (hacts : Unnumbered acts) (hr : Numbers i j r []) :
    Replaces i j acts r where
  le := hle
  numbers {lo before after} hlo hall := by
    refine hall.grow (fun κ => given κ r) hlo hle (fun κ => ⟨hr.linked.apart κ, fun n hn => ?_⟩)
      (fun κ => ?_) fun κ n hn => ?_
    · exact hr.between κ n (List.mem_append_left _ hn)
    · simp only [given_append, hacts.given κ, List.append_assoc]
      exact List.perm_append_comm_assoc _ _ _
    · simp only [taken_append, given_append, hacts.taken κ, List.append_nil, List.mem_append] at hn ⊢
      rcases hn with (hn | hn) | hn
      · exact .inr (.inl hn)
      · exact .inl (.inl (.inr (hr.linked.taken κ n hn)))
      · exact .inr (.inr hn)

/-- Actions without numbers are dropped. -/
theorem drop (hacts : Unnumbered acts) : Replaces i i acts [] :=
  of_numbers (le_refl i) hacts (.nil i)

end Replaces

/-- An action other than targets, jumps and counters is unnumbered. -/
theorem Unnumbered.single {a : Action} (h : ∀ κ, a.op.given? κ = none ∧ a.op.taken? κ = none) :
    Unnumbered [a] :=
  fun _ hb => List.mem_singleton.mp hb ▸ h

theorem Unnumbered.numbers {acts : List Action} (h : Unnumbered acts) (i j : Ids) :
    Numbers i j acts [] := by
  constructor <;> simp [h.given, h.taken]

theorem IsExpr.unnumbered {acts : List Action} (h : IsExpr acts) : Unnumbered acts :=
  h.computes.unnumbered

/-! ## Includes -/

namespace Assembler

theorem replaceEach_replaces {f : Action → SessionM (List Action)} {acts r : List Action}
    {s s' : Session}
    (hf : ∀ a ∈ acts, ∀ bs s s', f a s = .ok bs s' → Replaces s.ids s'.ids [a] bs)
    (h : replaceEach f acts s = .ok r s') : Replaces s.ids s'.ids acts r := by
  induction acts generalizing r s with
  | nil =>
      obtain ⟨rfl, rfl⟩ := pure_eq_ok.mp h
      exact .refl _ _
  | cons a rest ih =>
      -- each action is replaced in the counters its predecessors left
      obtain ⟨ha, hrest⟩ := List.forall_mem_cons.mp hf
      obtain ⟨bs, rest', s₁, hbs, htail, rfl⟩ := replaceEach_cons_eq_ok h
      exact (ha bs s s₁ hbs).append (ih hrest htail)

theorem replaceInclude_replaces {asm : Assembler}
    {nested : Option (List Action → SessionM (List Action))}
    (hinc : ∀ inc, asm.includer = some inc → inc.InSession)
    (hnested : ∀ f, nested = some f → ∀ acts r s s', AllSound acts → f acts s = .ok r s' →
      Replaces s.ids s'.ids acts r)
    {a : Action} {bs : List Action} {s s' : Session} (ha : a.op.Sound)
    (h : asm.replaceInclude nested a s = .ok bs s') : Replaces s.ids s'.ids [a] bs := by
  obtain ⟨loc, op, x⟩ := a
  rcases replaceInclude_eq_ok h with ⟨rfl, rfl, -⟩ |
    ⟨name, inc, f, acts, s₁, s₂, rfl, hasm, hf, hsource, hids, hacts⟩ |
    ⟨name, args, inc, bytes, s₁, rfl, hasm, hbinary, hids, rfl⟩
  · exact .refl _ _
  · obtain ⟨r, file, text, t, t', hle, hread, hle'⟩ := (hinc inc hasm).source hsource
    obtain ⟨hids', hnumbers, -⟩ := Reader.actions_numbers hread
    -- the text is numbered from the session that reads it, then expanded within
    have hsound : AllSound acts := Lowered.allSound ⟨r, file, text, t, t', hread⟩
    have hread : Replaces s.ids s₁.ids [⟨loc, .includeSource name, x⟩] acts := by
      refine .of_numbers ((hle.trans hids').trans hle') (.single ?_)
        ((hnumbers.mono hle').mono_left hle)
      rintro (_ | _) <;> exact ⟨rfl, rfl⟩
    have hall := hnested f hf acts bs s₂ s' hsound hacts
    rw [hids] at hall
    exact hread.trans hall
  · have hargs : Unnumbered (args.flatten ++ [Action.plain loc (.bytes name bytes)]) := by
      refine List.forall_mem_append.mpr ⟨fun b hb => ?_, Unnumbered.single ?_⟩
      · obtain ⟨arg, harg, hb⟩ := List.mem_flatten.mp hb
        cases ha with
        | includeBinary hargs => exact (hargs arg harg).unnumbered b hb
        | flat hflat => cases hflat
      · rintro (_ | _) <;> exact ⟨rfl, rfl⟩
    have hle : s.ids ≤ s'.ids := hids ▸ (hinc inc hasm).binary hbinary
    refine .of_numbers hle (.single ?_) (hargs.numbers _ _)
    rintro (_ | _) <;> exact ⟨rfl, rfl⟩

/-- Includes are replaced by what takes its numbers from the session. -/
theorem resolveIncludes_replaces {asm : Assembler}
    (hinc : ∀ inc, asm.includer = some inc → inc.InSession) (levels : Nat) {acts r : List Action}
    {s s' : Session} (hacts : AllSound acts) (h : asm.resolveIncludes levels acts s = .ok r s') :
    Replaces s.ids s'.ids acts r := by
  induction levels generalizing acts r s s' with
  | zero =>
      rw [resolveIncludes] at h
      refine replaceEach_replaces (fun a ha bs s s' hbs => ?_) h
      exact replaceInclude_replaces hinc (fun _ hf => by cases hf) (hacts a ha) hbs
  | succ levels ih =>
      rw [resolveIncludes] at h
      refine replaceEach_replaces (fun a ha bs s s' hbs => ?_) h
      refine replaceInclude_replaces hinc (fun f hf acts r s s' hacts h => ?_) (hacts a ha) hbs
      cases hf
      exact ih hacts h

end Assembler

/-! ## Macro calls -/

namespace Renaming

variable (r : Renaming) (x : Expansion) (κ : Numbered) (acts : List Action)

theorem given_op (op : Op) : (r.op op).given? κ = (op.given? κ).map (r.number κ) := by
  cases κ <;> cases op <;> rfl

theorem taken_op (op : Op) : (r.op op).taken? κ = (op.taken? κ).map (r.number κ) := by
  cases κ <;> cases op <;> rfl

theorem given_map : given κ (acts.map (r.action x)) = (given κ acts).map (r.number κ) := by
  unfold given
  rw [List.filterMap_map, List.map_filterMap]
  exact List.filterMap_congr fun a _ => r.given_op κ a.op

theorem taken_map : taken κ (acts.map (r.action x)) = (taken κ acts).map (r.number κ) := by
  unfold taken
  rw [List.filterMap_map, List.map_filterMap]
  exact List.filterMap_congr fun a _ => r.taken_op κ a.op

end Renaming

namespace Call

variable {k : Call}

/-- The assignments to the parameters have no numbers. -/
theorem bindings_unnumbered (hargs : ∀ arg ∈ k.args, Unnumbered arg) :
    Unnumbered (k.definition.bindings k.renames k.location k.args) := by
  intro a ha
  obtain ⟨⟨p, arg⟩, hb, ha⟩ := List.mem_flatMap.mp ha
  rcases List.mem_append.mp ha with ha | ha
  · exact hargs arg (List.of_mem_zip hb).2 a ha
  · obtain rfl := List.mem_singleton.mp ha
    rintro (_ | _) <;> exact ⟨rfl, rfl⟩

/-- A call gives out the numbers of its body. -/
theorem numbers (hlinked : Linked k.definition.body) (hargs : ∀ arg ∈ k.args, Unnumbered arg) :
    Numbers k.ids (k.definition.idsAfter k.ids) k.actions [] := by
  have hopening : Unnumbered [k.opening] := .single fun κ => by cases κ <;> exact ⟨rfl, rfl⟩
  have hbindings := bindings_unnumbered hargs
  have hsplit : k.actions = [k.opening] ++
      (k.definition.bindings k.renames k.location k.args ++ k.body) := rfl
  have hgiven : ∀ κ, given κ k.actions = (given κ k.definition.body).map (k.renames.number κ) := by
    intro κ
    rw [hsplit, given_append, given_append, hopening.given, hbindings.given]
    exact k.renames.given_map k.mark κ _
  have htaken : ∀ κ, taken κ k.actions = (taken κ k.definition.body).map (k.renames.number κ) := by
    intro κ
    rw [hsplit, taken_append, taken_append, hopening.taken, hbindings.taken]
    exact k.renames.taken_map k.mark κ _
  constructor
  · intro κ
    rw [pending_nil, List.append_nil, hgiven]
    exact (hlinked.apart κ).map_on fun n hn m hm h =>
      WrittenMacro.number_injective k.seq k.ids κ hn hm h
  · intro κ n hn
    rw [pending_nil, List.append_nil, hgiven] at hn
    obtain ⟨m, hm, rfl⟩ := List.mem_map.mp hn
    exact WrittenMacro.number_between k.seq k.ids κ hm
  · intro κ n hn
    rw [htaken] at hn
    obtain ⟨m, hm, rfl⟩ := List.mem_map.mp hn
    rw [pending_nil, List.append_nil, hgiven]
    exact List.mem_map_of_mem (hlinked.taken κ m hm)
  · intro κ n hn
    cases hn

end Call

/-- Definitions are dropped, and calls replaced by what gives out numbers of its
own. -/
theorem Expanded.replaces {macros : List WrittenMacro} {i j : Ids} {acts out : List Action}
    {calls : List Call} (hmacros : ∀ w ∈ macros, w.Sound) (hacts : AllSound acts)
    (h : Expanded macros i acts calls out j) : Replaces i j acts out := by
  induction h with
  | nil => exact .refl _ _
  | keep _ _ _ ih =>
      obtain ⟨-, hrest⟩ := List.forall_mem_cons.mp hacts
      exact (Replaces.refl _ [_]).append (ih hrest)
  | @define _ _ a _ _ _ hdefine _ ih =>
      obtain ⟨-, hrest⟩ := List.forall_mem_cons.mp hacts
      have hnone : Unnumbered [a] := .single fun κ => by
        obtain ⟨loc, op, x⟩ := a
        cases op with
        | defineMacro => cases κ <;> exact ⟨rfl, rfl⟩
        | _ => cases hdefine
      exact (Replaces.drop hnone).append (ih hrest)
  | @call i _ a _ k _ _ hop _ hmem _ _ hids _ ih =>
      obtain ⟨ha, hrest⟩ := List.forall_mem_cons.mp hacts
      rw [hop] at ha
      have hargs : ∀ arg ∈ k.args, Unnumbered arg := by
        cases ha with
        | callMacro hargs => exact fun arg harg => (hargs arg harg).unnumbered
        | flat hflat => cases hflat
      -- the call counter alone moves before the body draws its numbers
      have hle : i ≤ k.ids := hids ▸ ⟨Nat.le_refl _, Nat.le_refl _, Nat.le_succ _⟩
      have hafter : k.ids ≤ k.definition.idsAfter k.ids :=
        ⟨Nat.le_add_right _ _, Nat.le_add_right _ _, Nat.le_refl _⟩
      have hnone : Unnumbered [a] := .single fun κ => by
        rw [hop]
        cases κ <;> exact ⟨rfl, rfl⟩
      have hcall := (Call.numbers (hmacros _ hmem).linked hargs).mono_left hle
      exact (Replaces.of_numbers (hle.trans hafter) hnone hcall).append (ih hrest)

/-! ## Settling `.LABEL`s -/

namespace Gather

/-- The jump that a `.LABEL` stands for. -/
def jumpOf (labels : List (String × Nat)) (name : String) : Int := (labels.lookup name).getD 0

/-- Each `.LABEL` gets the next number of a jump, and keeps it. -/
theorem numberLabels_eq_ok {acts : List Action} {known labels : List (String × Nat)} {i j : Ids}
    (h : numberLabels acts known i = .ok labels j) :
    (∀ name n, known.lookup name = some n → labels.lookup name = some n) ∧
      (metaLabelNames acts).map (jumpOf labels) = i.upTo j .jump ∧
      (∀ name, (labels.lookup name).isSome = true →
        (known.lookup name).isSome = true ∨ name ∈ metaLabelNames acts) ∧
      j = { i with jump := i.jump + (metaLabelNames acts).length } := by
  -- the numbers given are consecutive: the label met first has the counter at its start
  induction acts generalizing known i with
  | nil =>
      obtain ⟨rfl, rfl⟩ := pure_eq_ok.mp h
      exact ⟨fun _ _ h => h, by simp [metaLabelNames, Ids.upTo], fun _ h => .inl h, rfl⟩
  | cons a rest ih =>
      obtain ⟨loc, op, x⟩ := a
      cases op with
      | metaLabel name =>
          simp only [numberLabels] at h
          split at h
          · cases h
          · rename_i hnew
            have hnone : known.lookup name = none := Option.not_isSome_iff_eq_none.mp hnew
            obtain ⟨hkeep, hmap, hsource, hj⟩ := ih h
            have hnames : metaLabelNames (⟨loc, .metaLabel name, x⟩ :: rest) =
                name :: metaLabelNames rest := rfl
            have hown : labels.lookup name = some i.jump :=
              hkeep name i.jump List.lookup_cons_self
            have hother : ∀ other, other ≠ name →
                ((name, i.jump) :: known).lookup other = known.lookup other := by
              intro other hne
              rw [List.lookup_cons, beq_false_of_ne hne]
            rw [hnames]
            refine ⟨fun other n hknown => hkeep other n ?_, ?_, fun other hfound => ?_, ?_⟩
            -- a name known before is not the new one, which was not known
            · have hne : other ≠ name := by
                rintro rfl
                rw [hnone] at hknown
                cases hknown
              rwa [hother other hne]
            · have hcount : i.jump + 1 + (metaLabelNames rest).length - i.jump =
                  (metaLabelNames rest).length + 1 := by omega
              rw [List.map_cons, hmap, hj]
              simp [jumpOf, hown, Ids.upTo, Ids.next, hcount, List.range'_succ]
            · rcases hsource other hfound with hknown | hmem
              · by_cases hne : other = name
                · exact .inr (hne ▸ List.mem_cons_self)
                · exact .inl (hother other hne ▸ hknown)
              · exact .inr (List.mem_cons_of_mem _ hmem)
            · rw [hj, List.length_cons]
              simp [Nat.add_assoc, Nat.add_comm 1]
      | _ => exact ih h

variable {labels : List (String × Nat)}

theorem given_settle (acts : List Action) :
    (given .jump (acts.map (settle labels))).Perm
        ((metaLabelNames acts).map (jumpOf labels) ++ given .jump acts) ∧
      given .counter (acts.map (settle labels)) = given .counter acts := by
  induction acts with
  | nil => exact ⟨.refl _, rfl⟩
  | cons a rest ih =>
      -- a label gives its own number, a target the one it has; nothing else gives a jump
      obtain ⟨hjump, hcounter⟩ := ih
      obtain ⟨loc, op, x⟩ := a
      cases op with
      | metaLabel name => exact ⟨hjump.cons (jumpOf labels name), hcounter⟩
      | target j => exact ⟨(hjump.cons j).trans List.perm_middle.symm, hcounter⟩
      | counterSet c => exact ⟨hjump, congrArg (c :: ·) hcounter⟩
      | _ => exact ⟨hjump, hcounter⟩

/-- What a settled program takes was taken before, or belongs to a `.GOTO`. -/
theorem taken_settle {acts : List Action} {κ : Numbered} {n : Int}
    (h : n ∈ taken κ (acts.map (settle labels))) :
    n ∈ taken κ acts ∨
      (κ = .jump ∧ ∃ a ∈ acts, ∃ name, a.op = .goto name ∧ n = jumpOf labels name) := by
  obtain ⟨b, hb, hn⟩ := List.mem_filterMap.mp h
  obtain ⟨⟨loc, op, x⟩, ha, rfl⟩ := List.mem_map.mp hb
  cases op with
  | goto name =>
      cases κ with
      | jump =>
          cases hn
          exact .inr ⟨rfl, _, ha, name, rfl, rfl⟩
      | counter => cases hn
  | metaLabel name => cases κ <;> cases hn
  | _ => exact .inl (List.mem_filterMap.mpr ⟨_, ha, hn⟩)

/-- `.LABEL`s get numbers of their own, and each `.GOTO` takes one of these. -/
theorem settle_replaces {acts : List Action} {i j : Ids}
    (hlabels : numberLabels acts [] i = .ok labels j)
    (hgotos : ∀ a ∈ acts, ∀ name, a.op = .goto name → (labels.lookup name).isSome = true) :
    Replaces i j acts (acts.map (settle labels)) := by
  obtain ⟨-, hmap, hsource, hj⟩ := numberLabels_eq_ok hlabels
  obtain ⟨hjump, hcounter⟩ := @given_settle labels acts
  have hle : i ≤ j := hj ▸ ⟨Nat.le_add_right _ _, Nat.le_refl _, Nat.le_refl _⟩
  rw [hmap] at hjump
  -- settling gives exactly the new jump numbers and keeps the counters given
  have hgiven : ∀ κ, (given κ (acts.map (settle labels))).Perm (i.upTo j κ ++ given κ acts) := by
    rintro (_ | _)
    · exact hjump
    · rw [hcounter, show i.upTo j .counter = [] by rw [hj]; simp [Ids.upTo, Ids.next]]
      exact .refl _
  refine ⟨hle, fun {lo before after} hlo hall => ?_⟩
  refine hall.grow (i.upTo j) hlo hle
    (fun κ => ⟨Ids.nodup_upTo i j κ, fun n hn => Ids.mem_upTo.mp hn⟩) (fun κ => ?_) fun κ n hn => ?_
  · simp only [given_append, List.append_assoc]
    refine .trans ?_ (List.perm_append_comm_assoc (given κ before) (i.upTo j κ) _)
    refine .append_left _ ?_
    rw [← List.append_assoc]
    exact (hgiven κ).append_right _
  · simp only [taken_append, given_append, List.mem_append] at hn ⊢
    rcases hn with (hn | hn) | hn
    -- a number taken stood there before, or is that of a label a goto names
    · exact .inr (.inl (.inl hn))
    · rcases taken_settle hn with hn | ⟨rfl, a, ha, name, hop, rfl⟩
      · exact .inr (.inl (.inr hn))
      · refine .inl (.inl (.inr (hjump.mem_iff.mpr (List.mem_append_left _ ?_))))
        rw [← hmap]
        have hname := (hsource name (hgotos a ha name hop)).resolve_left (by simp)
        exact List.mem_map_of_mem hname
    · exact .inr (.inr hn)

end Gather

/-! ## The sequence -/

/-- The sequence that is prepared for execution is numbered. -/
theorem Assembler.sequence_numbers {asm : Assembler} {r : Reader} {file : String}
    {text : List Text.Glyph} {actions seq : List Action} {e : Engine} {t t' s s' : Session}
    (hmain : r.actions file text t = .ok actions t') (hids : t'.ids ≤ s.ids)
    (hinc : ∀ inc, asm.includer = some inc → inc.InSession)
    (h : asm.sequence actions s = .ok (seq, e) s') : Numbers t.ids s'.ids seq [] := by
  have hlowered : Lowered actions := ⟨r, file, text, t, t', hmain⟩
  have hincluders : ∀ inc, asm.includer = some inc → inc.Lowered :=
    fun inc h => (hinc inc h).lowered
  obtain ⟨included, expanded, s₁, s₂, s₃, s₄, s₅, hids₁, hincluded, hids₃, hexpanded, hids₅,
    hgathered⟩ := sequence_eq_ok h
  have hresolved := resolveIncludes_resolved hincluders includeDepth hlowered.written hincluded
  have hmacros := sound_of_resolved hresolved
  have hsound := resolveIncludes_sound hincluders includeDepth hlowered.allSound ⟨_, _, hincluded⟩
  obtain ⟨calls, hcalls⟩ := expandMacros_eq_ok hmacros hexpanded
  obtain ⟨labels, hlabels, hdeclare⟩ := gather_eq_ok hgathered
  obtain ⟨rfl, hgotos⟩ := Gather.declareAll_eq_settle hdeclare
  obtain ⟨hle, hnumbers, -⟩ := Reader.actions_numbers hmain
  -- three stages, each replacing actions while it draws further numbers
  have hall : Replaces s.ids s'.ids actions (expanded.map (Gather.settle labels)) := by
    have hfirst := resolveIncludes_replaces hinc includeDepth hlowered.allSound hincluded
    have hsecond := hcalls.replaces hmacros hsound
    have hthird := Gather.settle_replaces hlabels hgotos
    rw [hids₁] at hfirst
    rw [hids₃] at hsecond
    rw [hids₅] at hthird
    exact (hfirst.trans hsecond).trans hthird
  have hstart : Numbers t.ids s.ids ([] ++ actions ++ []) [] := by
    simpa using hnumbers.mono hids
  simpa using hall.numbers (hle.trans hids) hstart

end Mos6510
