import Mathlib.Data.List.Induction
import Mos6510.Listing
import Mos6510.Loader
import Mos6510.Proofs.Reference

/-!
# What labels are listed with

A label is known for the whole text, whether or not control flow comes to it,
and keeps its value from pass to pass.  So a program lists every label of the
text, and not only those that the final pass came to:

* `labels_latest`: the value of a label is where it was placed latest, in the
  final pass if that places it, or else before, and zero if no pass does; and
  the names of addresses in reports and listings are those of labels with that
  value, and no others.

A label that only the warm-up pass comes to shows the difference
(`labels_outlive_passes`).
-/

namespace Mos6510

open Outcome

/-! ## Placements -/

/-- The visit sets the label with a full name to a value: the program counter at
that time, or zero for the label of a macro call before there is one. -/
inductive Visit.Places (v : Visit) (full : String) : Int64 → Prop
  | here {name : String} {synthetic : Bool} {a : UInt16} : v.action.op = .label name synthetic →
      qualify name v.engine.parent = .ok full → v.engine.pcAddress? = some a →
      Visit.Places v full (Int64.ofNat a.toNat)
  | early {name : String} : v.action.op = .label name true →
      qualify name v.engine.parent = .ok full → v.engine.pc.isSet = false →
      Visit.Places v full 0

/-- No visit among these sets the label. -/
def Unplaced (full : String) (vs : List Visit) : Prop := ∀ v ∈ vs, v.places full = false

/-- The last of these visits that sets the label gives it this value. -/
def PlacedLast (full : String) (x : Int64) (vs : List Visit) : Prop :=
  ∃ before v after, vs = before ++ v :: after ∧ v.Places full x ∧ Unplaced full after

theorem Unplaced.append {full : String} {vs ws : List Visit} (hvs : Unplaced full vs)
    (hws : Unplaced full ws) : Unplaced full (vs ++ ws) :=
  List.forall_mem_append.mpr ⟨hvs, hws⟩

theorem Unplaced.singleton {full : String} {v : Visit} (h : v.places full = false) :
    Unplaced full [v] :=
  List.forall_mem_singleton.mpr h

/-- A placement that goes through is made at an address. -/
theorem Visit.places_of_run {v : Visit} {full : String} {e : Engine}
    (hrun : v.action.run v.engine = .ok () e) (h : v.places full = true) :
    v.Places full v.placement := by
  obtain ⟨⟨loc, op, x⟩, d⟩ := v
  cases op with
  | label name synthetic =>
      obtain ⟨full', a, hq, -, haddr, -⟩ := Engine.placeLabel_eq_ok.mp hrun
      have hplacement : Visit.placement ⟨⟨loc, .label name synthetic, x⟩, d⟩ =
          Int64.ofNat a.toNat := by
        simp only [Visit.placement, haddr]
      have hfull : full' = full := by
        simp only [Visit.places, hq] at h
        exact eq_of_beq h
      subst hfull
      rw [hplacement]
      unfold Engine.labelAddress? at haddr
      split at haddr
      · rename_i hearly
        obtain ⟨rfl, hunset⟩ := Bool.and_eq_true_iff.mp hearly
        cases haddr
        exact .early rfl hq (by simpa using hunset)
      · exact .here rfl hq haddr
  | _ => cases h

/-- After visits that go through, a label has the value of the last placement
among them, or else the value from before. -/
theorem latestValue_cases {full : String} {vs : List Visit}
    (hrun : ∀ v ∈ vs, ∃ e, v.action.run v.engine = .ok () e) (x : Int64) :
    PlacedLast full (latestValue full x vs) vs ∨
      (Unplaced full vs ∧ latestValue full x vs = x) := by
  induction vs using List.reverseRecOn with
  | nil => exact .inr ⟨fun v hv => absurd hv List.not_mem_nil, rfl⟩
  | append_singleton vs v ih =>
      obtain ⟨hvs, hv⟩ := List.forall_mem_append.mp hrun
      have hlast : latestValue full x (vs ++ [v]) =
          if v.places full then v.placement else latestValue full x vs := by
        rw [latestValue_append]
        rfl
      rw [hlast]
      cases hplaces : v.places full with
      | true =>
          obtain ⟨e, hv⟩ := hv v (List.mem_singleton_self v)
          refine .inl ⟨vs, v, [], rfl, ?_, fun w hw => absurd hw List.not_mem_nil⟩
          exact Visit.places_of_run hv hplaces
      | false =>
          rcases ih hvs with ⟨before, w, after, rfl, hw, hafter⟩ | ⟨hnone, hx⟩
          · refine .inl ⟨before, w, after ++ [v], by simp, hw, ?_⟩
            exact hafter.append (.singleton hplaces)
          · exact .inr ⟨hnone.append (.singleton hplaces), hx⟩

/-! ## Passes -/

namespace Assembler

/-- A pass leaves a label with the value of its latest placement. -/
theorem runPass_labelValue {verbose : Bool} {code : Code} {pass : Pass} {e e' : Engine}
    (h : runPass verbose code pass e = .ok () e') (hapart : e.NamesApart) {full : String}
    {x : Int64} (hx : e.labelValue? full = some x) :
    e'.NamesApart ∧ e'.labelValue? full = some (latestValue full x (code.passTrace pass e)) ∧
      ∀ v ∈ code.passTrace pass e, ∃ d, v.action.run v.engine = .ok () d := by
  obtain ⟨vs, e₁, hruns, rfl⟩ := runPass_eq_ok_iff.mp h
  have htrace : code.passTrace pass e = vs := hruns.trace_eq
  rw [htrace]
  obtain ⟨halong, hapart', hvalue⟩ :=
    (labelValue_symbolTraced full x).along hruns ⟨hapart.of_names rfl rfl, hx⟩
  refine ⟨hapart'.of_names rfl rfl, hvalue, fun v hv => ?_⟩
  obtain ⟨before, after, rfl⟩ := List.append_of_mem hv
  exact halong.visit.2

/-- The visits of the warm-up pass and of the first pass of an assembly. -/
def earlierTrace (asm : Assembler) (actions : List Action) (s : Session) : List Visit :=
  match asm.prepare actions s with
  | .error _ _ => []
  | .ok (code, e₀) s =>
    code.passTrace .warmUp { e₀ with log := s.log } ++
      match runPass asm.verbose code .warmUp { e₀ with log := s.log } with
      | .error _ _ => []
      | .ok _ w => code.passTrace .first w

/-- Where the value of a label comes from, by the visits of the passes before
the final one and of the final one itself. -/
inductive LabelOrigin (full : String) (earlier final : List Visit) : Int64 → Prop
  | final {x : Int64} : PlacedLast full x final → LabelOrigin full earlier final x
  | earlier {x : Int64} : Unplaced full final → PlacedLast full x earlier →
      LabelOrigin full earlier final x
  | never : Unplaced full final → Unplaced full earlier → LabelOrigin full earlier final 0

theorem LabelOrigin.of_latestValue {full : String} {earlier final : List Visit}
    (hearlier : ∀ v ∈ earlier, ∃ e, v.action.run v.engine = .ok () e)
    (hfinal : ∀ v ∈ final, ∃ e, v.action.run v.engine = .ok () e) :
    LabelOrigin full earlier final (latestValue full (latestValue full 0 earlier) final) := by
  rcases latestValue_cases hfinal (latestValue full 0 earlier) with hlast | ⟨hnone, heq⟩
  · exact .final hlast
  · rw [heq]
    rcases latestValue_cases hearlier 0 with hlast | ⟨hnone', heq'⟩
    · exact .earlier hnone hlast
    · rw [heq']
      exact .never hnone hnone'

/-- A label that is known has no value before the passes. -/
theorem labelValue?_of_declared {e : Engine} (he : e.Declared) {full : String}
    (hmem : full ∈ e.labels.names) : e.labelValue? full = some 0 := by
  obtain ⟨entry, hentry, rfl⟩ := List.mem_map.mp hmem
  have hvalue : (entry.1, (0 : Int64)) ∈ e.labels.values := by
    refine List.mem_map.mpr ⟨entry, hentry, ?_⟩
    rw [he.freshLabels entry hentry]
  obtain ⟨c, hc, hcx⟩ := SymbolTable.find?_of_mem_values he.labels hvalue
  exact Option.map_eq_some_iff.mpr ⟨c, hc, hcx⟩

end Assembler

/-! ## Names of addresses -/

theorem mem_of_mem_consKey {κ α : Type} [BEq κ] {e x : κ × α} {es : List (κ × α)}
    (h : x ∈ consKey e es) : x = e ∨ x ∈ es := by
  cases es with
  | nil => exact .inl (List.mem_singleton.mp h)
  | cons f rest =>
      rw [consKey] at h
      split at h
      · exact (List.mem_cons.mp h).imp_right (List.mem_cons_of_mem f)
      · exact List.mem_cons.mp h

theorem mem_of_mem_dedupKeys {κ α : Type} [BEq κ] {x : κ × α} {es : List (κ × α)}
    (h : x ∈ dedupKeys es) : x ∈ es := by
  induction es with
  | nil => exact h
  | cons e rest ih =>
      rcases mem_of_mem_consKey h with rfl | h
      · exact List.mem_cons_self
      · exact List.mem_cons_of_mem e (ih h)

/-- What a table of addresses holds is one of its entries. -/
theorem mem_of_byAddress {α : Type} {entries : List (UInt16 × α)} {a : UInt16} {x : α}
    (h : byAddress entries a = some x) : (a, x) ∈ entries := by
  suffices hfrom : ∀ (entries : List (UInt16 × α)) (m : Std.HashMap UInt16 α),
      (m.insertMany entries)[a]? = some x → (a, x) ∈ entries ∨ m[a]? = some x by
    unfold byAddress at h
    rw [Std.HashMap.ofList_eq_insertMany_empty] at h
    refine (hfrom entries ∅ h).resolve_right ?_
    simp
  intro entries
  induction entries with
  | nil =>
      intro m h
      exact .inr (by simpa using h)
  | cons e rest ih =>
      intro m h
      rw [Std.HashMap.insertMany_cons] at h
      rcases ih _ h with hrest | hm
      · exact .inl (List.mem_cons_of_mem e hrest)
      · rw [Std.HashMap.getElem?_insert] at hm
        split at hm
        · rename_i hkey
          cases hm
          rw [← eq_of_beq hkey]
          exact .inl List.mem_cons_self
        · exact .inr hm

namespace Program

/-- The program names an address after a label: in its map of labels, where it
describes an address, or in its listing. -/
inductive Names (p : Program) (a : UInt16) (name : String) : Prop
  | map : (a, name) ∈ p.labelMap → Names p a name
  | nearest {b : UInt16} : p.nearestLabel b = some (a, name) → Names p a name
  | listing : (Listing.ofProgram p).labels a = some name → Names p a name

/-- An address is named after a label with that address. -/
theorem Names.value {p : Program} {a : UInt16} {name : String} (h : p.Names a name) :
    ∃ v, (name, v) ∈ p.labels ∧ addressOf v = a := by
  have hmap : (a, name) ∈ p.labelMap := by
    cases h with
    | map h => exact h
    | nearest h => exact List.mem_of_mem_filter (List.mem_of_getLast? h)
    | listing h => exact mem_of_byAddress h
  have hnamed := List.mem_mergeSort.mp (mem_of_mem_dedupKeys hmap)
  obtain ⟨⟨name', v⟩, hmem, heq⟩ := List.mem_map.mp hnamed
  cases heq
  exact ⟨v, hmem, rfl⟩

end Program

/-! ## The program -/

namespace Assembler

/-- A program lists each label with the place where it was placed latest: where
the final pass placed it last, or, if it did not, where a pass before did, or
zero.  And it names an address only after labels that it lists with it. -/
theorem labels_latest (asm : Assembler) (actions : List Action) (s s' : Session) (a : Assembly)
    (h : asm.assemble actions s = .ok a s') :
    (∀ full v, (full, v) ∈ a.program.labels →
      LabelOrigin full (asm.earlierTrace actions s) (asm.finalTrace actions s) v) ∧
      ∀ address name, a.program.Names address name →
        ∃ v, (name, v) ∈ a.program.labels ∧ Program.addressOf v = address := by
  refine ⟨?_, fun _ _ => Program.Names.value⟩
  intro full v hv
  obtain ⟨e₀, s₁, w, f, hprepare, hstages, -, -⟩ := assemble_eq_ok_iff.mp h
  have hdeclared : e₀.Declared := prepare_declared ⟨s, s₁, hprepare⟩
  have hmem : (full, v) ∈ a.engine.labels.values := List.mem_mergeSort.mp hv
  -- the labels are those that were declared, all without a value
  have hnames : a.engine.labels.names = e₀.labels.names := by
    rw [← (runPass_grows hstages.final).2.names_eq, ← (runPass_grows hstages.first).2.names_eq,
      ← (runPass_grows hstages.warmUp).2.names_eq]
  have hknown : full ∈ e₀.labels.names := by
    rw [← hnames]
    obtain ⟨entry, hentry, heq⟩ := List.mem_map.mp hmem
    exact List.mem_map.mpr ⟨entry, hentry, congrArg Prod.fst heq⟩
  have hstart : ({ e₀ with log := s₁.log } : Engine).labelValue? full = some 0 :=
    labelValue?_of_declared hdeclared hknown
  have hapart : ({ e₀ with log := s₁.log } : Engine).NamesApart :=
    hdeclared.toNamesApart.of_names rfl rfl
  obtain ⟨hapartw, hvaluew, hrunw⟩ := runPass_labelValue hstages.warmUp hapart hstart
  obtain ⟨hapartf, hvaluef, hrunf⟩ := runPass_labelValue hstages.first hapartw hvaluew
  obtain ⟨hapartn, hvaluen, hrunn⟩ := runPass_labelValue hstages.final hapartf hvaluef
  have hearlier : asm.earlierTrace actions s = a.code.passTrace .warmUp { e₀ with log := s₁.log } ++
      a.code.passTrace .first w := by
    unfold earlierTrace
    simp only [hprepare, hstages.warmUp]
  have hfinal : asm.finalTrace actions s = a.code.passTrace .final f := by
    obtain ⟨e, log, hpasses, -⟩ := exists_passes_finalTrace hprepare hstages
    exact hpasses.trace_eq.symm
  obtain ⟨c, hc, hcv⟩ := SymbolTable.find?_of_mem_values hapartn.labels hmem
  have hv : v = latestValue full (latestValue full 0 (asm.earlierTrace actions s))
      (asm.finalTrace actions s) := by
    rw [hearlier, hfinal, latestValue_append]
    have hcell : a.engine.labelValue? full = some v := Option.map_eq_some_iff.mpr ⟨c, hc, hcv⟩
    exact Option.some.inj (hcell.symm.trans hvaluen)
  rw [hv]
  refine .of_latestValue ?_ ?_
  · rw [hearlier]
    exact List.forall_mem_append.mpr ⟨hrunw, hrunf⟩
  · rw [hfinal]
    exact hrunn

/-- The label between two words is listed with the place where it stands. -/
theorem labels_latest_wordsAround :
    ∃ a s', ({} : Assembler).assemble wordsAround {} = .ok a s' ∧
      ("mid", 0x1002) ∈ a.program.labels ∧ a.program.Names 0x1002 "mid" ∧
      LabelOrigin "mid" (({} : Assembler).earlierTrace wordsAround {})
        (({} : Assembler).finalTrace wordsAround {}) 0x1002 ∧
      ∃ v, ("mid", v) ∈ a.program.labels ∧ Program.addressOf v = 0x1002 := by
  have hrun : isOkWith (fun a _ => a.program.labels.contains ("mid", 0x1002) &&
      a.program.labelMap.contains (0x1002, "mid"))
        (({} : Assembler).assemble wordsAround {}) = true := by
    decide +kernel
  obtain ⟨a, s', h, hlisted⟩ := exists_of_isOkWith hrun
  simp only [Bool.and_eq_true, List.contains_iff_mem] at hlisted
  have hlatest := labels_latest {} wordsAround {} s' a h
  have hnames : a.program.Names 0x1002 "mid" := .map hlisted.2
  exact ⟨a, s', h, hlisted.1, hnames, hlatest.1 _ _ hlisted.1, hlatest.2 _ _ hnames⟩

/-- A label that stands under a condition which holds only as long as a variable
has no value. -/
def onceSource : List Text.Glyph :=
  Text.Glyph.ofString "@ = $1000\n.IF X == 0\nL:\n.ENDIF\nNOP\nX = 1\n"

/-- Only the warm-up pass comes to the label, and yet it is listed, and its
address named after it. -/
theorem labels_outlive_passes :
    ∃ actions t a s', ({} : Reader).actions "main.s" onceSource {} = .ok actions t ∧
      ({} : Assembler).assemble actions t = .ok a s' ∧
      a.program.labels = [("L", 0x1000)] ∧ a.program.labelMap = [(0x1000, "L")] ∧
      Unplaced "L" (({} : Assembler).finalTrace actions t) := by
  have hrun : isOkWith (fun actions t =>
      isOkWith (fun a _ => a.program.labels == [("L", 0x1000)] &&
          a.program.labelMap == [(0x1000, "L")] &&
          (({} : Assembler).finalTrace actions t).all fun v => !v.places "L")
        (({} : Assembler).assemble actions t))
      (({} : Reader).actions "main.s" onceSource {}) = true := by
    decide +kernel
  obtain ⟨actions, t, hread, hrun⟩ := exists_of_isOkWith hrun
  obtain ⟨a, s', hassemble, hrun⟩ := exists_of_isOkWith hrun
  simp only [Bool.and_eq_true, beq_iff_eq, List.all_eq_true, Bool.not_eq_true'] at hrun
  exact ⟨actions, t, a, s', hread, hassemble, hrun.1.1, hrun.1.2, hrun.2⟩

end Assembler

end Mos6510
