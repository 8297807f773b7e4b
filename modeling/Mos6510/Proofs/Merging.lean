import Mathlib.Data.List.Sort
import Mos6510.Command

/-!
# Definitions of two sources

Definitions come from a project file and from the command line.  They are kept by name
(`ByName`), and where both have one of a name, that of the command line counts
(`lookup_merge`).  The command line takes names in upper case (`Arguments.read_sound`), a
project file takes them as they are written.  So the two agree about a name exactly if the
file has it in upper case (`merge_eq_iff`, `merge_filter_iff`).
-/

namespace Mos6510

/-! ## Entries by name -/

section

variable {α : Type} {l l' : List (String × α)}

/-- The entries are ordered by name, and no two have the same one. -/
def ByName (l : List (String × α)) : Prop := l.Pairwise fun e e' => e.1 < e'.1

theorem lookup_cons_eq (n : String) (e : String × α) (l : List (String × α)) :
    (e :: l).lookup n = if n = e.1 then some e.2 else l.lookup n := by
  by_cases h : n = e.1
  · rw [if_pos h, List.lookup_cons, beq_iff_eq.mpr h]
  · rw [if_neg h, List.lookup_cons, beq_eq_false_iff_ne.mpr h]

theorem lookup_insertByName (name : String) (value : α) (l : List (String × α)) (n : String) :
    (insertByName name value l).lookup n = if n = name then some value else l.lookup n := by
  induction l with
  | nil => exact lookup_cons_eq n (name, value) []
  | cons e l ih =>
      rw [insertByName]
      split
      · rename_i hsame
        rw [lookup_cons_eq, lookup_cons_eq, ← beq_iff_eq.mp hsame]
        split <;> rfl
      · rename_i hne
        split
        · rw [lookup_cons_eq]
        · -- the entry goes behind another one
          rw [lookup_cons_eq, ih, lookup_cons_eq]
          split <;> split <;> simp_all

theorem mem_insertByName {name : String} {value : α} {e : String × α}
    (h : e ∈ insertByName name value l) : e = (name, value) ∨ e ∈ l := by
  induction l with
  | nil => exact .inl (List.mem_singleton.mp h)
  | cons e' l ih =>
      rw [insertByName] at h
      split at h
      · exact (List.mem_cons.mp h).imp_right (List.mem_cons_of_mem _)
      · split at h
        · exact List.mem_cons.mp h
        · rcases List.mem_cons.mp h with rfl | h
          · exact .inr List.mem_cons_self
          · exact (ih h).imp_right (List.mem_cons_of_mem _)

theorem ByName.insertByName (h : ByName l) (name : String) (value : α) :
    ByName (insertByName name value l) := by
  induction l with
  | nil => exact List.pairwise_singleton _ _
  | cons e l ih =>
      obtain ⟨he, hl⟩ := List.pairwise_cons.mp h
      rw [Mos6510.insertByName]
      split
      · rename_i hsame
        rw [← beq_iff_eq.mp hsame] at he
        exact List.pairwise_cons.mpr ⟨he, hl⟩
      · rename_i hne
        split
        · rename_i hlt
          refine List.pairwise_cons.mpr ⟨List.forall_mem_cons.mpr ⟨hlt, fun e' he' => ?_⟩, h⟩
          exact String.lt_trans hlt (he e' he')
        · rename_i hge
          refine List.pairwise_cons.mpr ⟨fun e' he' => ?_, ih hl⟩
          rcases mem_insertByName he' with rfl | he'
          · have hle := String.not_lt.mp hge
            by_contra hnot
            exact hne (beq_iff_eq.mpr (String.le_antisymm (String.not_lt.mp hnot) hle))
          · exact he e' he'

/-- An entry is what its name stands for. -/
theorem ByName.lookup_eq_iff (h : ByName l) {n : String} {v : α} :
    l.lookup n = some v ↔ (n, v) ∈ l := by
  induction l with
  | nil => exact iff_of_false nofun List.not_mem_nil
  | cons e l ih =>
      obtain ⟨he, hl⟩ := List.pairwise_cons.mp h
      rw [lookup_cons_eq, List.mem_cons]
      split
      · rename_i hn
        subst hn
        refine ⟨fun hv => .inl (Prod.ext rfl (Option.some.inj hv).symm), ?_⟩
        rintro (heq | hmem)
        · rw [← heq]
        · exact absurd (he _ hmem) (String.lt_irrefl _)
      · rename_i hn
        rw [ih hl, or_iff_right]
        rintro rfl
        exact hn rfl

theorem ne_of_name_lt {e e' : String × α} (h : e.1 < e'.1) : e.1 ≠ e'.1 := by
  intro heq
  rw [heq] at h
  exact String.lt_irrefl _ h

/-- Entries by name are told by what they are. -/
theorem ByName.ext_mem (h : ByName l) (h' : ByName l') (hmem : ∀ e, e ∈ l ↔ e ∈ l') : l = l' := by
  have hirrefl : ∀ {e e' : String × α}, e.1 < e'.1 → e ≠ e' := fun hlt heq =>
    ne_of_name_lt hlt (congrArg Prod.fst heq)
  have hperm := (List.perm_ext_iff_of_nodup (h.imp hirrefl) (h'.imp hirrefl)).mpr hmem
  exact hperm.eq_of_pairwise
    (fun _ _ _ _ hlt hgt => absurd (String.lt_trans hlt hgt) (String.lt_irrefl _)) h h'

/-- Entries by name are told by what names stand for. -/
theorem ByName.ext (h : ByName l) (h' : ByName l') (hlookup : ∀ n, l.lookup n = l'.lookup n) :
    l = l' :=
  h.ext_mem h' fun e => by rw [← h.lookup_eq_iff, hlookup, h'.lookup_eq_iff]

/-- Where a name has an entry more than elsewhere, it has none there. -/
theorem ByName.lookup_more (h : ByName l) (h' : ByName l') {n : String} {v : α}
    (hperm : l.Perm ((n, v) :: l')) (k : String) :
    l'.lookup n = none ∧ l.lookup k = if k = n then some v else l'.lookup k := by
  have hnone : l'.lookup n = none := by
    by_contra hsome
    obtain ⟨v', hv'⟩ := Option.ne_none_iff_exists'.mp hsome
    have hnodup : (l.map Prod.fst).Nodup := List.pairwise_map.mpr (h.imp ne_of_name_lt)
    have hnames := (hperm.map Prod.fst).nodup_iff.mp hnodup
    exact (List.nodup_cons.mp hnames).1 (List.mem_map.mpr ⟨_, h'.lookup_eq_iff.mp hv', rfl⟩)
  refine ⟨hnone, Option.ext fun x => ?_⟩
  rw [h.lookup_eq_iff, hperm.mem_iff, List.mem_cons, ← h'.lookup_eq_iff]
  split
  · rename_i hk
    subst hk
    rw [hnone, or_iff_left nofun, Prod.mk.injEq, and_iff_right rfl, Option.some.injEq, eq_comm]
  · rename_i hk
    exact or_iff_right fun heq => hk (Prod.mk.inj heq).1

end

/-! ## Adding definitions -/

namespace Settings

theorem byName_define {s : Settings} (h : ByName s.defines) (ds : List (String × Int64)) :
    ByName (s.define ds).defines := by
  induction ds generalizing s with
  | nil => exact h
  | cons d ds ih => exact ih (s := s.define [d]) (h.insertByName _ _)

/-- A name stands for its new definition, or if it has none for what it did before. -/
theorem lookup_define {ds : List (String × Int64)} (h : ByName ds) (s : Settings) (n : String) :
    (s.define ds).defines.lookup n = (ds.lookup n).or (s.defines.lookup n) := by
  induction ds generalizing s with
  | nil => rfl
  | cons d ds ih =>
      obtain ⟨hd, hds⟩ := List.pairwise_cons.mp h
      have hnone : ds.lookup d.1 = none := by
        by_contra hsome
        obtain ⟨v, hv⟩ := Option.ne_none_iff_exists'.mp hsome
        exact String.lt_irrefl _ (hd (d.1, v) ((ByName.lookup_eq_iff hds).mp hv))
      refine (ih hds (s.define [d])).trans ?_
      rw [lookup_cons_eq, define, List.foldl_cons, List.foldl_nil, lookup_insertByName]
      split
      · rename_i hn
        rw [hn, hnone]
        rfl
      · rfl

end Settings

/-! ## What project files say -/

namespace Settings

theorem byName_setNode? {s s' : Settings} {name : String} {node : Toml.Node}
    (h : ByName s.defines) (hset : s.setNode? name node = some s') : ByName s'.defines := by
  unfold setNode? at hset
  split at hset
  · cases hset
    exact h
  · rename_i key
    unfold setKey? at hset
    split at hset
    all_goals first
      | (cases hset; exact h)
      | (obtain ⟨_, _, rfl⟩ := Option.map_eq_some_iff.mp hset; exact h)
      | (obtain ⟨_, _, rfl⟩ := Option.map_eq_some_iff.mp hset; exact byName_define h _)
      | cases hset

theorem byName_setNodes {es : List (String × Toml.Node)} {s? : Option Settings} {s' : Settings}
    (h : ∀ s, s? = some s → ByName s.defines)
    (hset : es.foldl (fun s e => s.bind fun s => s.setNode? e.1 e.2) s? = some s') :
    ByName s'.defines := by
  induction es generalizing s? with
  | nil => exact h s' hset
  | cons e es ih =>
      refine ih (fun s hs => ?_) hset
      obtain ⟨s₀, rfl, hs⟩ := Option.bind_eq_some_iff.mp hs
      exact byName_setNode? (h s₀ rfl) hs

/-- The definitions of a project file are kept by name. -/
theorem byName_ofText {text : String} {s : Settings} (h : ofText text = .ok s) : ByName s.defines := by
  unfold ofText at h
  split at h
  · cases h
  · split at h
    · cases h
    · rename_i doc _ _ s' hs'
      dsimp only at h
      split at h
      · cases h
      · cases h
        refine byName_setNodes ?_ hs'
        rintro s ⟨⟩
        exact .nil

end Settings

/-! ## Upper case -/

namespace Text

/-- The code points of a run. -/
def CaseRun.codes (r : CaseRun) : List Nat :=
  (List.range ((r.high - r.low) / r.step + 1)).map fun k => r.low + k * r.step

/-- The upper cases of the run are characters, and no small letters of ASCII. -/
def CaseRun.sound (r : CaseRun) : Bool :=
  r.codes.all fun n =>
    let n' := (n + r.shift).toNat
    Nat.blt n' 97 || (Nat.blt 122 n' && Nat.blt n' 0xD800) || (Nat.ble 0xE000 n' && Nat.blt n' 0x110000)

/-- No upper case of the run is in the other run. -/
def CaseRun.apart (r r' : CaseRun) : Bool :=
  Nat.blt (r.high + r.shift).toNat r'.low || Nat.blt r'.high (r.low + r.shift).toNat ||
    r.codes.all fun n => !r'.holds (n + r.shift).toNat

theorem sound_caseRuns : caseRuns.toList.all CaseRun.sound = true := by decide +kernel

-- most runs are apart as ranges: the code points are compared for the others only
theorem apart_caseRuns : (caseRuns.toList.all fun r => caseRuns.toList.all r.apart) = true := by
  decide +kernel

theorem CaseRun.mem_codes {r : CaseRun} {n : Nat} (h : r.holds n = true) : n ∈ r.codes := by
  simp only [holds, Bool.and_eq_true, decide_eq_true_eq, beq_iff_eq] at h
  obtain ⟨⟨hlow, hhigh⟩, hmod⟩ := h
  refine List.mem_map.mpr ⟨(n - r.low) / r.step, List.mem_range.mpr ?_, ?_⟩
  · exact Nat.lt_succ_of_le (Nat.div_le_div_right (by omega))
  · have hdiv := Nat.div_add_mod (n - r.low) r.step
    rw [hmod, Nat.add_zero, Nat.mul_comm] at hdiv
    omega

theorem CaseRun.holds_shift {r r' : CaseRun} {n : Nat} (h : r.holds n = true)
    (hapart : r.apart r' = true) : r'.holds (n + r.shift).toNat = false := by
  simp only [apart, Bool.or_eq_true, Nat.blt_eq, List.all_eq_true, Bool.not_eq_true'] at hapart
  have hcodes := mem_codes h
  simp only [holds, Bool.and_eq_true, decide_eq_true_eq, beq_iff_eq] at h
  rcases hapart with (hlt | hlt) | hall
  · simp only [holds, Bool.and_eq_false_iff, decide_eq_false_iff_not]
    omega
  · simp only [holds, Bool.and_eq_false_iff, decide_eq_false_iff_not]
    omega
  · exact hall n hcodes

theorem CaseRun.of_find? {runs : Array CaseRun} {r : CaseRun} {n : Nat}
    (h : (runs.find? fun r => r.holds n) = some r) : r ∈ runs.toList ∧ r.holds n = true := by
  have hholds := Array.find?_some h
  exact ⟨Array.mem_toList_iff.mpr (Array.mem_of_find?_eq_some h), hholds⟩

theorem upperChar_of_none {c : Char} (hascii : c.toNat < 128 → c.toUpper = c)
    (hnone : ∀ r ∈ caseRuns.toList, r.holds c.toNat = false) : upperChar c = c := by
  have hfind : (caseRuns.find? fun r => r.holds c.toNat) = none := by
    refine Array.find?_eq_none.mpr fun r hr => ?_
    rw [hnone r (Array.mem_toList_iff.mpr hr)]
    exact Bool.false_ne_true
  unfold upperChar
  split
  · exact hascii ‹_›
  · rw [hfind]

/-- An upper case is its own upper case. -/
theorem upperChar_upperChar (c : Char) : upperChar (upperChar c) = upperChar c := by
  -- in ASCII the upper case is a table of 128 entries
  have hascii : ∀ n < 128, (Char.ofNat n).toUpper.toNat < 128 ∧
      (Char.ofNat n).toUpper.toUpper = (Char.ofNat n).toUpper := by decide +kernel
  by_cases hsmall : c.toNat < 128
  · obtain ⟨hlt, hsame⟩ := hascii c.toNat hsmall
    rw [Char.ofNat_toNat] at hlt hsame
    have hupper : upperChar c = c.toUpper := if_pos hsmall
    rw [hupper, upperChar, if_pos hlt, hsame]
  · cases hfind : caseRuns.find? fun r => r.holds c.toNat with
    | none =>
        have hself : upperChar c = c := by
          rw [upperChar, if_neg hsmall, hfind]
        rw [hself, hself]
    | some r =>
        have hupper : upperChar c = Char.ofNat ((c.toNat : Int) + r.shift).toNat := by
          rw [upperChar, if_neg hsmall, hfind]
        obtain ⟨hmem, hholds⟩ := CaseRun.of_find? hfind
        have hsound := List.all_eq_true.mp (List.all_eq_true.mp sound_caseRuns r hmem) _
          (CaseRun.mem_codes hholds)
        -- the upper case lands in no run of cases, so it is its own
        have hapart := List.all_eq_true.mp (List.all_eq_true.mp apart_caseRuns r hmem)
        have hnone := fun r' hr' => CaseRun.holds_shift hholds (hapart r' hr')
        rw [hupper]
        generalize ((c.toNat : Int) + r.shift).toNat = n at hsound hnone
        simp only [Bool.or_eq_true, Bool.and_eq_true, Nat.blt_eq, Nat.ble_eq] at hsound
        -- a run of cases shifts to a code that is a character
        have hvalue : (Char.ofNat n).toNat = n := by
          rw [Char.ofNat, dif_pos (by unfold Nat.isValidChar; omega)]
          rfl
        refine upperChar_of_none (fun hlt => ?_) (by rwa [hvalue])
        have hlarge : ∀ n < 128, n < 97 ∨ 122 < n → (Char.ofNat n).toUpper = Char.ofNat n := by
          decide +kernel
        exact hlarge n (by omega) (by omega)

theorem upper_upper (s : String) : upper (upper s) = upper s := by
  refine String.toList_inj.mp ?_
  simp [upper, upperChar_upperChar, Function.comp_def]

end Text

/-! ## What arguments say -/

namespace Arguments

/-- What is defined is kept by name, the flag for it was given, and names are in upper case. -/
structure Sound (a : Arguments) : Prop where
  byName : ByName a.settings.defines
  given : a.settings.defines ≠ [] → .define ∈ a.given
  upper : ∀ d ∈ a.settings.defines, Text.upper d.1 = d.1

theorem Sound.start : Sound {} := ⟨.nil, fun h => absurd rfl h, nofun⟩

variable {a : Arguments}

/-- Definitions stay where something else is set. -/
theorem Sound.of_same (h : Sound a) {a' : Arguments} (hdefines : a'.settings.defines = a.settings.defines)
    (hgiven : ∀ f ∈ a.given, f ∈ a'.given) : Sound a' :=
  ⟨hdefines ▸ h.byName, fun hne => hgiven _ (h.given (hdefines ▸ hne)), hdefines ▸ h.upper⟩

theorem mem_give (a : Arguments) {f f' : Flag} (h : f ∈ a.given) : f ∈ (a.give f').given := by
  by_cases heq : f = f'
  · exact heq ▸ List.mem_cons_self
  · exact List.mem_cons_of_mem _ (List.mem_filter.mpr ⟨h, bne_iff_ne.mpr heq⟩)

theorem defines_setSwitch (s : Settings) (f : Flag) (b : Bool) : (setSwitch s f b).defines = s.defines := by
  cases f <;> rfl

theorem addSwitch_sound (h : Sound a) (f : Flag) (value : String) : Sound (a.addSwitch f value).1 := by
  unfold addSwitch
  split
  · exact h.of_same (defines_setSwitch _ _ _) fun _ => mem_give a
  · exact h.of_same (defines_setSwitch _ _ _) fun _ hf => hf

theorem addCycles_sound (h : Sound a) (value : String) : Sound (a.addCycles value).1 := by
  unfold addCycles
  dsimp only
  split
  · exact h.of_same rfl fun _ => mem_give a
  · exact h.of_same rfl fun _ hf => hf
  · exact h.of_same rfl fun _ hf => hf

/-- The name of a definition is in upper case. -/
theorem upper_of_readDefine {t : String} {d : String × Int64} (h : Settings.readDefine t = .ok d) :
    Text.upper d.1 = d.1 := by
  unfold Settings.readDefine at h
  dsimp only at h
  split at h
  · cases h
  · split at h
    · cases h
    · split at h
      · cases h
        exact Text.upper_upper _
      · cases h

theorem addDefine_sound (h : Sound a) {t : String} {d : String × Int64}
    (hd : Settings.readDefine t = .ok d) :
    Sound ({ a with settings := a.settings.define [d] }.give .define) := by
  refine ⟨Settings.byName_define h.byName [d], fun _ => List.mem_cons_self, fun e he => ?_⟩
  rcases mem_insertByName he with rfl | he
  · exact upper_of_readDefine hd
  · exact h.upper e he

theorem addValue_sound (h : Sound a) (f : Flag) (value : String) : Sound (a.addValue f value).1 := by
  cases f with
  | define =>
      simp only [addValue]
      split
      · exact addDefine_sound h ‹_›
      · exact h
  | cycles => exact addCycles_sound h value
  | emulate | trace | verbose => exact addSwitch_sound h _ value
  | includeFolder | project | listing | language | output => exact h.of_same rfl fun _ => mem_give a

theorem read_sound (known : List Flag) (h : Sound a) (args : List String) : Sound (read known a args).1 := by
  fun_induction read known a args with
  | case1 | case2 | case3 | case4 | case5 => exact h
  | case6 a arg rest text _ _ _ name value? _ f _ _ a' hadd ih =>
      have hsound := addSwitch_sound h f (value?.getD "true")
      rw [hadd] at hsound
      exact ih hsound
  | case7 a arg rest text _ _ _ name value? _ f _ _ a' err hadd =>
      have hsound := addSwitch_sound h f (value?.getD "true")
      rwa [hadd] at hsound
  | case8 a arg text _ _ _ name f _ _ value rest a' hadd _ ih
  | case10 a arg text _ _ _ name f _ _ value rest a' hadd _ ih =>
      have hsound := addValue_sound h f value
      rw [hadd] at hsound
      exact ih hsound
  | case9 a arg text _ _ _ name f _ _ value rest a' err hadd
  | case11 a arg text _ _ _ name f _ _ value rest a' err hadd =>
      have hsound := addValue_sound h f value
      rwa [hadd] at hsound
  | case12 => exact h

/-- A definition on the command line is taken in, and then what comes after it. -/
theorem read_define {t : String} {d : String × Int64} (hd : Settings.readDefine t = .ok d)
    (a : Arguments) (more : List String) :
    read Flag.all a ("-D" :: t :: more) =
      read Flag.all ({ a with settings := a.settings.define [d] }.give .define) more := by
  have hadd : a.addValue .define t = ({ a with settings := a.settings.define [d] }.give .define, none) := by
    simp only [addValue, hd]
  have hflag : (Flag.all.find? fun f => f.name == "D") = some .define := by decide
  have hsplit : splitFlag ['D'] = ("D", none) := by decide
  have hdashed : dashed? "-D" = some ['D'] := by decide
  rw [read]
  simp only [hdashed, hsplit, hflag, hadd]
  rfl

end Arguments

/-! ## Merging -/

namespace Settings

/-- Of all flags that are merged, only definitions change definitions. -/
theorem lookup_mergeFlags {cli : Settings} (hcli : ByName cli.defines) (fs : List Flag) (s : Settings)
    (n : String) :
    (fs.foldl (fun s f => cli.mergeFlag s f) s).defines.lookup n =
      if .define ∈ fs then (cli.defines.lookup n).or (s.defines.lookup n) else s.defines.lookup n := by
  induction fs generalizing s with
  | nil => rfl
  | cons f fs ih =>
      rw [List.foldl_cons, ih]
      by_cases hf : f = .define
      · subst hf
        have hmerged : (cli.mergeFlag s .define).defines.lookup n =
            (cli.defines.lookup n).or (s.defines.lookup n) := lookup_define hcli s n
        rw [hmerged, if_pos List.mem_cons_self]
        cases cli.defines.lookup n <;> simp
      · have hsame : (cli.mergeFlag s f).defines = s.defines := by
          cases f <;> first | rfl | exact absurd rfl hf
        rw [hsame]
        simp [Ne.symm hf]

theorem byName_mergeFlags {cli : Settings} (fs : List Flag) {s : Settings} (h : ByName s.defines) :
    ByName (fs.foldl (fun s f => cli.mergeFlag s f) s).defines := by
  induction fs generalizing s with
  | nil => exact h
  | cons f fs ih =>
      refine ih ?_
      cases f with
      | define => exact byName_define h _
      | _ => exact h

/-- A name stands for what the command line says, or else for what the project file does. -/
theorem lookup_merge {a : Arguments} (ha : a.Sound) (s : Settings) (n : String) :
    (s.merge a).defines.lookup n = (a.settings.defines.lookup n).or (s.defines.lookup n) := by
  rw [merge, lookup_mergeFlags ha.byName]
  split
  · rfl
  · rename_i hnot
    have hnil : a.settings.defines = [] := by
      by_contra hne
      exact hnot (ha.given hne)
    rw [hnil]
    rfl

theorem byName_merge {s : Settings} (h : ByName s.defines) (a : Arguments) :
    ByName (s.merge a).defines := byName_mergeFlags a.given h

variable {m : String} {v w : Int64} {s s' : Settings} {a a' : Arguments}

/-- A definition that is in the project file only, and one that is on the command line only,
come to the same exactly if the file has the name in upper case. -/
theorem merge_eq_iff (hs : ByName s.defines) (hs' : ByName s'.defines) (ha : a.Sound) (ha' : a'.Sound)
    (hfile : s.defines.Perm ((m, v) :: s'.defines))
    (hcli : a'.settings.defines.Perm ((Text.upper m, v) :: a.settings.defines)) :
    (s.merge a).defines = (s'.merge a').defines ↔ Text.upper m = m := by
  have hfileLookup := hs.lookup_more hs' hfile
  have hcliLookup := ha'.byName.lookup_more ha.byName hcli
  constructor
  · intro heq
    by_contra hne
    have hnone : a.settings.defines.lookup m = none := by
      by_contra hsome
      obtain ⟨x, hx⟩ := Option.ne_none_iff_exists'.mp hsome
      exact hne (ha.upper _ (ha.byName.lookup_eq_iff.mp hx))
    -- the spelling of the file has a value in the one and none in the other
    have hlookup := congrArg (List.lookup m) heq
    rw [lookup_merge ha, lookup_merge ha', (hfileLookup m).2, (hcliLookup m).2, if_pos rfl,
      if_neg (Ne.symm hne), hnone, (hfileLookup m).1] at hlookup
    cases hlookup
  · intro hupper
    rw [hupper] at hcliLookup
    refine (byName_merge hs a).ext (byName_merge hs' a') fun n => ?_
    rw [lookup_merge ha, lookup_merge ha', (hfileLookup n).2, (hcliLookup n).2]
    split
    · rename_i hn
      rw [hn, (hcliLookup n).1]
      rfl
    · rfl

/-- Where both define a name, there is one definition of it, that of the command line, exactly
if the file has the name in upper case. -/
theorem merge_filter_iff (hs : ByName s.defines) (ha : a.Sound) (hfile : (m, v) ∈ s.defines)
    (honly : ∀ d ∈ s.defines, Text.upper d.1 = Text.upper m → d.1 = m)
    (hcli : (Text.upper m, w) ∈ a.settings.defines) :
    ((s.merge a).defines.filter fun d => Text.upper d.1 == Text.upper m) = [(Text.upper m, w)] ↔
      Text.upper m = m := by
  have hmem : ∀ n x, (n, x) ∈ (s.merge a).defines ↔
      (a.settings.defines.lookup n).or (s.defines.lookup n) = some x := fun n x => by
    rw [← (byName_merge hs a).lookup_eq_iff, lookup_merge ha]
  constructor
  · intro heq
    by_contra hne
    have hnone : a.settings.defines.lookup m = none := by
      by_contra hsome
      obtain ⟨x, hx⟩ := Option.ne_none_iff_exists'.mp hsome
      exact hne (ha.upper _ (ha.byName.lookup_eq_iff.mp hx))
    have hboth : (m, v) ∈ (s.merge a).defines.filter fun d => Text.upper d.1 == Text.upper m := by
      refine List.mem_filter.mpr ⟨(hmem m v).mpr ?_, beq_self_eq_true _⟩
      rw [hnone, hs.lookup_eq_iff.mpr hfile]
      rfl
    rw [heq, List.mem_singleton] at hboth
    exact hne (Prod.mk.inj hboth).1.symm
  · intro hupper
    rw [hupper] at honly hcli ⊢
    have hw := ha.byName.lookup_eq_iff.mpr hcli
    refine ByName.ext_mem (List.Pairwise.filter _ (byName_merge hs a)) (List.pairwise_singleton _ _)
      fun d => ?_
    rw [List.mem_filter, hmem, List.mem_singleton, beq_iff_eq]
    constructor
    · rintro ⟨hlookup, hspelling⟩
      -- the only spelling on either side is the name itself
      have hname : d.1 = m := by
        cases hd : a.settings.defines.lookup d.1 with
        | some x => exact (ha.upper _ (ha.byName.lookup_eq_iff.mp hd)).symm.trans hspelling
        | none =>
            rw [hd, Option.none_or] at hlookup
            exact honly d (hs.lookup_eq_iff.mp hlookup) hspelling
      rw [hname, hw] at hlookup
      exact Prod.ext hname (Option.some.inj hlookup).symm
    · rintro rfl
      exact ⟨by rw [hw]; rfl, hupper⟩

end Settings

end Mos6510
