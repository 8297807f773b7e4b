import Mos6510.Command
import Mos6510.Proofs.Pieces

/-!
# Numbers in definitions and in source

A number is written the same way on the command line and in source: in decimal,
in hex after a dollar sign, or after one of the leads `0x`, `0o` and `0b`.  The
two are read by different means.  In source the base is found first and the
digits are read in it; a definition hands all of the text to a reader that finds
the base itself, and for that reader a plain leading zero says octal.

* `literal_spelled`: what a literal of a source text looks like;
* `defineValue_dollar`, `defineValue_lead`, `defineValue_plain`: a definition
  reads the same digits in the same base, but for a leading zero;
* `octal_eq_iff`: octal and decimal agree below eight only;
* `literal_assigns_iff`: so a definition and an assignment give the same value,
  unless the literal is a decimal of eight or more with a leading zero.
-/

namespace Mos6510

open Text (Glyph)

namespace Text

/-! ## Digits -/

theorem digitIn?_eq_some {base d : Nat} {c : Char} (h : digitIn? base c = some d) :
    digitValue? c = some d ∧ d < base := by
  unfold digitIn? at h
  split at h
  · split at h
    · cases h
      exact ⟨‹_›, ‹_›⟩
    · cases h
  · cases h

/-- A digit of some base is an ASCII digit or letter. -/
theorem toNat_of_digitIn? {base : Nat} {c : Char} (h : (digitIn? base c).isSome = true) :
    (48 ≤ c.toNat ∧ c.toNat ≤ 57) ∨ (65 ≤ c.toNat ∧ c.toNat ≤ 90) ∨
      (97 ≤ c.toNat ∧ c.toNat ≤ 122) := by
  obtain ⟨d, hd⟩ := Option.isSome_iff_exists.mp h
  have hvalue := (digitIn?_eq_some hd).1
  unfold digitValue? at hvalue
  split at hvalue
  · exact .inl ‹_›
  · split at hvalue
    · exact .inr (.inr ‹_›)
    · split at hvalue
      · exact .inr (.inl ‹_›)
      · cases hvalue

/-- Without underscores it does not matter whether they may divide digits. -/
theorem readDigits_marks (base : Nat) {ds : List Char} (h : '_' ∉ ds) (n : Nat) :
    readDigits base true n ds = readDigits base false n ds := by
  induction ds generalizing n with
  | nil => rfl
  | cons c ds ih =>
      have hds := List.not_mem_of_not_mem_cons h
      have hmark : (true && c == '_') = false := by
        simpa using (List.ne_of_not_mem_cons h).symm
      rw [readDigits, readDigits, hmark]
      simp only [Bool.false_and, Bool.false_eq_true, if_false, ih hds]

theorem readDigits_cons_eq_ok {base n x : Nat} {c : Char} {ds : List Char} :
    readDigits base false n (c :: ds) = .ok x ↔
      ∃ d, digitIn? base c = some d ∧ n * base + d < UInt64.size ∧
        readDigits base false (n * base + d) ds = .ok x := by
  rw [readDigits]
  simp only [Bool.false_and, Bool.false_eq_true, if_false]
  cases hd : digitIn? base c with
  | none => simp
  | some d =>
      by_cases hlt : n * base + d < UInt64.size
      · simp [hlt]
      · simp [hlt]

theorem le_of_readDigits {base : Nat} (hbase : 0 < base) {n x : Nat} {ds : List Char}
    (h : readDigits base false n ds = .ok x) : n ≤ x := by
  induction ds generalizing n with
  | nil => exact Nat.le_of_eq (Except.ok.inj h)
  | cons c ds ih =>
      obtain ⟨d, -, -, h⟩ := readDigits_cons_eq_ok.mp h
      have hmul := Nat.le_mul_of_pos_right n hbase
      have := ih h
      omega

/-- From a smaller number on, octal stays behind decimal. -/
theorem octal_lt {n m x y : Nat} {ds : List Char} (hlt : n < m)
    (hx : readDigits 8 false n ds = .ok x) (hy : readDigits 10 false m ds = .ok y) : x < y := by
  induction ds generalizing n m with
  | nil =>
      obtain rfl := Except.ok.inj hx
      obtain rfl := Except.ok.inj hy
      exact hlt
  | cons c ds ih =>
      obtain ⟨d, hd, -, hx⟩ := readDigits_cons_eq_ok.mp hx
      obtain ⟨e, he, -, hy⟩ := readDigits_cons_eq_ok.mp hy
      have hde : some d = some e := (digitIn?_eq_some hd).1.symm.trans (digitIn?_eq_some he).1
      obtain rfl := Option.some.inj hde
      exact ih (by omega) hx hy

/-- Digits mean the same in octal and in decimal only below eight: then at most
the last of them is not zero. -/
theorem octal_eq_iff {ds : List Char} {y : Nat} (hy : readDigits 10 false 0 ds = .ok y) :
    readDigits 8 false 0 ds = .ok y ↔ y < 8 := by
  induction ds with
  | nil =>
      obtain rfl := Except.ok.inj hy
      exact iff_of_true rfl (by decide)
  | cons c ds ih =>
      obtain ⟨d, hd, -, hy⟩ := readDigits_cons_eq_ok.mp hy
      have hvalue := (digitIn?_eq_some hd).1
      have hle := le_of_readDigits (by decide) hy
      rw [readDigits_cons_eq_ok]
      by_cases hoctal : d < 8
      · have hd8 : digitIn? 8 c = some d := by
          unfold digitIn?
          rw [hvalue]
          exact if_pos hoctal
        simp only [hd8, Option.some.injEq, exists_eq_left', Nat.zero_mul, Nat.zero_add] at hy hle ⊢
        rw [and_iff_right (Nat.lt_trans hoctal (by decide))]
        obtain rfl | hpos := Nat.eq_zero_or_pos d
        · exact ih hy
        · cases ds with
          | nil =>
              obtain rfl := Except.ok.inj hy
              exact iff_of_true rfl hoctal
          | cons e ds =>
              -- a second digit makes the decimal at least ten
              have hle' : d * 10 ≤ y := by
                obtain ⟨f, -, -, hy⟩ := readDigits_cons_eq_ok.mp hy
                have := le_of_readDigits (by decide) hy
                omega
              refine iff_of_false (fun hx => ?_) (by omega)
              obtain ⟨f, hf, -, hx⟩ := readDigits_cons_eq_ok.mp hx
              obtain ⟨g, hg, -, hy⟩ := readDigits_cons_eq_ok.mp hy
              have hfg : some f = some g := (digitIn?_eq_some hf).1.symm.trans (digitIn?_eq_some hg).1
              obtain rfl := Option.some.inj hfg
              exact Nat.lt_irrefl y (octal_lt (by omega) hx hy)
      · refine iff_of_false ?_ (by omega)
        rintro ⟨e, he, -⟩
        obtain ⟨he, hlt⟩ := digitIn?_eq_some he
        have hde : some e = some d := he.symm.trans hvalue
        obtain rfl := Option.some.inj hde
        exact hoctal hlt

/-! ## Blanks -/

/-- A text without blanks is not trimmed. -/
theorem trimChars_eq_self {cs : List Char} (h : ∀ c ∈ cs, isBlank c = false) :
    trimChars cs = cs := by
  have hdrop : ∀ {cs : List Char}, (∀ c ∈ cs, isBlank c = false) → cs.dropWhile isBlank = cs := by
    intro cs h
    cases cs with
    | nil => rfl
    | cons c cs =>
        rw [List.dropWhile_cons_of_neg]
        simp [h c List.mem_cons_self]
  rw [trimChars, hdrop h, hdrop fun c hc => h c (List.mem_reverse.mp hc), List.reverse_reverse]

/-- The code points of blanks. -/
def blankCodes : List Nat :=
  [9, 10, 11, 12, 13, 0x20, 0x85, 0xA0, 0x1680, 0x2000, 0x2001, 0x2002, 0x2003, 0x2004, 0x2005,
    0x2006, 0x2007, 0x2008, 0x2009, 0x200A, 0x2028, 0x2029, 0x202F, 0x205F, 0x3000]

theorem toNat_mem_blankCodes {c : Char} (h : isBlank c = true) : c.toNat ∈ blankCodes := by
  simp only [isBlank, Bool.or_eq_true, Bool.and_eq_true, decide_eq_true_eq, beq_iff_eq] at h
  simp only [blankCodes, List.mem_cons, List.not_mem_nil, or_false]
  omega

/-- No blank is inside one of the ranges. -/
def blankFree (ranges : Array (Nat × Nat)) : Bool :=
  ranges.toList.all fun r => blankCodes.all fun n => n < r.1 || r.2 < n

-- a range is compared with all blanks at once: a walk through the ranges for each
-- blank takes the kernel much longer
theorem blankFree_letterRanges : blankFree letterRanges = true := by decide +kernel

theorem blankFree_digitRanges : blankFree digitRanges = true := by decide +kernel

theorem inRanges_blank {ranges : Array (Nat × Nat)} (h : blankFree ranges = true) {n : Nat}
    (hn : n ∈ blankCodes) : inRanges ranges n = false := by
  rw [inRanges, ← Array.any_toList, List.any_eq_false]
  intro r hr
  have hfree := List.all_eq_true.mp (List.all_eq_true.mp h r hr) n hn
  simp only [Bool.or_eq_true, decide_eq_true_eq] at hfree
  simp only [Bool.and_eq_true, decide_eq_true_eq]
  omega

theorem isBlank_wordChar {c : Char} (h : isWordChar c = true) : isBlank c = false := by
  have hcodes : ∀ n ∈ blankCodes, (Char.ofNat n).isAlpha = false ∧ (Char.ofNat n).isDigit = false ∧
      (Char.ofNat n == '_') = false := by decide
  by_contra hblank
  have hmem := toNat_mem_blankCodes (Bool.eq_true_of_not_eq_false hblank)
  have hascii := hcodes c.toNat hmem
  rw [Char.ofNat_toNat] at hascii
  simp only [isWordChar, isLetter, isDigit, hascii, inRanges_blank blankFree_letterRanges hmem,
    inRanges_blank blankFree_digitRanges hmem, ite_self, Bool.or_false, Bool.false_eq_true] at h

theorem isBlank_digit {base : Nat} {c : Char} (h : (digitIn? base c).isSome = true) :
    isBlank c = false := by
  have hrange := toNat_of_digitIn? h
  by_contra hblank
  have hmem := toNat_mem_blankCodes (Bool.eq_true_of_not_eq_false hblank)
  simp only [blankCodes, List.mem_cons, List.not_mem_nil, or_false] at hmem
  omega

end Text

/-! ## Literals -/

namespace Lexer

section

variable {defines : List (String × Int64)} {line n : Nat} {g : Glyph} {gs rest : List Glyph} {l : Lexeme}

theorem directive_makes (h : (directive line gs).takes? = some (some l, n)) :
    ∃ name, l = .directive name := by
  unfold directive at h
  split at h
  · cases h
  · cases h
    exact ⟨_, rfl⟩

theorem string_makes {screen : Bool} {lead : Nat}
    (h : (string screen lead line gs).takes? = some (some l, n)) : ∃ text bytes, l = .string text bytes := by
  unfold string at h
  split at h
  · cases h
  · cases h
    exact ⟨_, _, rfl⟩

theorem script_makes (h : (script defines line gs).takes? = some (some l, n)) :
    ∃ text v, l = .number text v := by
  unfold script at h
  split at h
  · cases h
  dsimp only at h
  split at h
  · cases h
    exact ⟨_, _, rfl⟩
  · cases h

theorem number_makes (h : (number line gs).takes? = some (some l, n)) : ∃ text v, l = .number text v := by
  unfold number at h
  dsimp only at h
  split at h
  · cases h
    exact ⟨_, _, rfl⟩
  · cases h

theorem name_makes (h : (name line gs).takes? = some (some l, n)) : ∀ text v, l ≠ .number text v := by
  unfold name at h
  dsimp only at h
  split at h
  · cases h
  split at h
  · cases h
    exact nofun
  split at h
  · cases h
    exact nofun
  · cases h
    exact nofun

/-- A number is written out, or computed by a script. -/
theorem number_of_step {text : String} {v : Int64}
    (h : (step defines line g rest).takes? = some (some (.number text v), n)) :
    (g = .char '$' ∧ rest.head? = some (.char '(')) ∨
      (number line (g :: rest)).takes? = some (some (.number text v), n) := by
  have hstarts := step_starts defines line g rest
  generalize step defines line g rest = s at hstarts h
  cases hstarts with
  | newline | space | comment | sign | unknown => cases h
  | directive =>
      obtain ⟨_, hl⟩ := directive_makes h
      cases hl
  | lone _ hl =>
      cases h
      exact absurd hl (by simp [lones])
  | string | marked =>
      obtain ⟨_, _, hl⟩ := string_makes h
      cases hl
  | script => exact .inl ⟨rfl, rfl⟩
  | number => exact .inr h
  | name => exact absurd rfl (name_makes h text v)

/-- A name starts with a letter or an underscore. -/
theorem name_of_step {w : String} (h : (step defines line g rest).takes? = some (some (.word w), n)) :
    isNameStart g = true ∧ (name line (g :: rest)).takes? = some (some (.word w), n) := by
  have hstarts := step_starts defines line g rest
  generalize step defines line g rest = s at hstarts h
  cases hstarts with
  | newline | space | comment | sign | unknown => cases h
  | directive =>
      obtain ⟨_, hl⟩ := directive_makes h
      cases hl
  | lone _ hl =>
      cases h
      exact absurd hl (by simp [lones])
  | string | marked =>
      obtain ⟨_, _, hl⟩ := string_makes h
      cases hl
  | script =>
      obtain ⟨_, _, hl⟩ := script_makes h
      cases hl
  | number =>
      obtain ⟨_, _, hl⟩ := number_makes h
      cases hl
  | name _ hstart => exact ⟨hstart, h⟩

end

/-- The whole text is one token. -/
def ReadsAs (defines : List (String × Int64)) (t : String) (l : Lexeme) : Prop :=
  ∃ g gs, Glyph.ofString t = g :: gs ∧
    (step defines 1 g gs).takes? = some (some l, gs.length + 1)

/-- The whole text is one number, and no script that computes it. -/
def ReadsNumber (defines : List (String × Int64)) (t : String) (v : Int64) : Prop :=
  ¬['$', '('] <+: t.toList ∧ ∃ ds, ReadsAs defines t (.number ds v)

/-- The leads of numbers with their bases. -/
def leads : List (Char × Nat) := [('x', 16), ('X', 16), ('o', 8), ('O', 8), ('b', 2), ('B', 2)]

/-- How digits of a base are written. -/
inductive Spelled : List Char → Nat → List Char → Prop
  | dollar (ds : List Char) : Spelled ('$' :: ds) 16 ds
  | lead {k : Char} {base : Nat} (ds : List Char) : (k, base) ∈ leads → Spelled ('0' :: k :: ds) base ds
  | plain (ds : List Char) : Spelled ds 10 ds

theorem numberLead_spelled (cs : List Char) :
    ∃ base lead, numberLead (cs.map .char) = (base, lead) ∧ Spelled cs base (cs.drop lead) := by
  have hcons : ∀ {c : Char} {gs : List Glyph} {cs : List Char}, cs.map Glyph.char = .char c :: gs →
      ∃ ds, cs = c :: ds ∧ ds.map Glyph.char = gs := by
    intro c gs cs h
    obtain ⟨d, ds, rfl, hd, hds⟩ := List.map_eq_cons_iff.mp h
    cases hd
    exact ⟨ds, rfl, hds⟩
  -- a lead is a zero and one letter, behind which the digits start
  have htwo : ∀ {k : Char} {gs : List Glyph} {base : Nat}, (k, base) ∈ leads →
      cs.map Glyph.char = .char '0' :: .char k :: gs → Spelled cs base (cs.drop 2) := by
    intro k gs base hk h
    obtain ⟨ds, rfl, htail⟩ := hcons h
    obtain ⟨es, rfl, -⟩ := hcons htail
    exact .lead es hk
  unfold numberLead
  split
  · obtain ⟨ds, rfl, -⟩ := hcons ‹_›
    exact ⟨16, 1, rfl, .dollar ds⟩
  · exact ⟨16, 2, rfl, htwo (k := 'x') (by decide) ‹_›⟩
  · exact ⟨16, 2, rfl, htwo (k := 'X') (by decide) ‹_›⟩
  · exact ⟨8, 2, rfl, htwo (k := 'o') (by decide) ‹_›⟩
  · exact ⟨8, 2, rfl, htwo (k := 'O') (by decide) ‹_›⟩
  · exact ⟨2, 2, rfl, htwo (k := 'b') (by decide) ‹_›⟩
  · exact ⟨2, 2, rfl, htwo (k := 'B') (by decide) ‹_›⟩
  · exact ⟨10, 0, rfl, .plain cs⟩

/-- A literal is spelled with digits of its base, whose value it has. -/
theorem literal_spelled {defines : List (String × Int64)} {t : String} {v : Int64}
    (h : ReadsNumber defines t v) :
    ∃ base ds, Spelled t.toList base ds ∧ ds ≠ [] ∧ (∀ c ∈ ds, (Text.digitIn? base c).isSome = true) ∧
      Text.readInteger (some base) ds = .ok v := by
  obtain ⟨hscript, text, g, gs, htext, htakes⟩ := h
  have hnumber : (number 1 (g :: gs)).takes? = some (some (.number text v), gs.length + 1) := by
    refine (number_of_step htakes).resolve_left ?_
    rintro ⟨rfl, hopen⟩
    obtain ⟨rest, rfl⟩ := List.head?_eq_some_iff.mp hopen
    obtain ⟨c, cs, hcs, hc, hrest⟩ := List.map_eq_cons_iff.mp htext
    obtain ⟨d, ds, rfl, hd, -⟩ := List.map_eq_cons_iff.mp hrest
    cases hc
    cases hd
    rw [hcs] at hscript
    exact hscript ⟨ds, rfl⟩
  rw [← htext, Glyph.ofString] at hnumber
  have hlength : gs.length + 1 = t.toList.length := by
    rw [← List.length_map (f := Glyph.char), ← Glyph.ofString, htext, List.length_cons]
  obtain ⟨base, lead, hlead, hspelled⟩ := numberLead_spelled t.toList
  unfold number at hnumber
  simp only [hlead] at hnumber
  split at hnumber
  · next value hvalue =>
    simp only [Step.takes?, Option.some.injEq, Prod.mk.injEq, Lexeme.number.injEq] at hnumber
    obtain ⟨⟨-, rfl⟩, hused⟩ := hnumber
    have hdigits : digitsOf base ((t.toList.map Glyph.char).drop lead) =
        (t.toList.drop lead).takeWhile fun c => (Text.digitIn? base c).isSome := by
      rw [digitsOf, ← List.map_drop, List.takeWhile_map, List.map_map]
      exact List.map_id _
    have hne : (t.toList.drop lead).takeWhile (fun c => (Text.digitIn? base c).isSome) ≠ [] := by
      intro hnil
      rw [hdigits, hnil] at hvalue
      cases hvalue
    rw [hdigits] at hused hvalue
    -- the digits reach to the end of the text
    have hall : (t.toList.drop lead).takeWhile (fun c => (Text.digitIn? base c).isSome) =
        t.toList.drop lead := by
      have hpos := List.length_pos_iff.mpr hne
      have hprefix := List.takeWhile_prefix (l := t.toList.drop lead)
        fun c => (Text.digitIn? base c).isSome
      have hle := hprefix.length_le
      refine hprefix.eq_of_length ?_
      rw [List.length_drop] at hle ⊢
      omega
    rw [hall] at hvalue hne
    exact ⟨base, _, hspelled, hne, List.takeWhile_eq_self_iff.mp hall, hvalue⟩
  · cases hnumber

end Lexer

/-! ## Definitions -/

namespace Text

theorem signed_eq_ok {n : Nat} {v : Int64} : signed false n = .ok v ↔ v.toInt = n := by
  unfold signed
  rw [if_neg Bool.false_ne_true]
  by_cases hlt : n < 0x8000000000000000
  · rw [if_pos hlt, ← Int64.toInt_ofNat_of_lt hlt, Int64.toInt_inj, Except.ok.injEq, eq_comm]
  · have := v.toInt_lt
    rw [if_neg hlt]
    exact iff_of_false nofun (by omega)

/-- Without a sign in front, a number is read as it is. -/
theorem readInteger_cons {base : Option Nat} {c : Char} {cs : List Char} (hminus : c ≠ '-')
    (hplus : c ≠ '+') {v : Int64} :
    readInteger base (c :: cs) = .ok v ↔ ∃ n : Nat, readNatural base (c :: cs) = .ok n ∧ v.toInt = n := by
  have hread : readInteger base (c :: cs) = readNatural base (c :: cs) >>= signed false := by
    rw [readInteger]
    · rintro rest heq
      exact hminus (List.cons.inj heq).1
    · rintro rest heq
      exact hplus (List.cons.inj heq).1
  rw [hread]
  cases readNatural base (c :: cs) with
  | error fault => exact iff_of_false (fun h => by cases h) (by simp)
  | ok n =>
      show signed false n = .ok v ↔ _
      rw [signed_eq_ok]
      simp

theorem digit_ne {base : Nat} {c : Char} (h : (digitIn? base c).isSome = true) :
    c ≠ '-' ∧ c ≠ '+' ∧ c ≠ '_' ∧ c ≠ '$' := by
  have hrange := toNat_of_digitIn? h
  refine ⟨?_, ?_, ?_, ?_⟩ <;> rintro rfl <;> revert hrange <;> decide

theorem readInteger_digits {base : Nat} {ds : List Char} (hne : ds ≠ [])
    (hds : ∀ c ∈ ds, (digitIn? base c).isSome = true) {v : Int64} :
    readInteger (some base) ds = .ok v ↔
      ∃ n : Nat, readDigits base false 0 ds = .ok n ∧ v.toInt = n := by
  cases ds with
  | nil => exact absurd rfl hne
  | cons c cs =>
      have hc := digit_ne (hds c List.mem_cons_self)
      exact readInteger_cons hc.1 hc.2.1

theorem splitLead_suffix (cs : List Char) : (splitLead cs).2 <:+ cs := by
  unfold splitLead
  split
  · split
    · exact ⟨['0', _], rfl⟩
    · split
      · exact ⟨['0', _], rfl⟩
      · split
        · exact ⟨['0', _], rfl⟩
        · exact ⟨['0'], rfl⟩
  · exact ⟨['0'], rfl⟩
  · exact List.suffix_rfl

/-- A text without underscores is read by its lead. -/
theorem readNatural_none {c : Char} {cs : List Char} (hmarks : '_' ∉ c :: cs) :
    readNatural none (c :: cs) =
      readDigits (splitLead (c :: cs)).1 false 0 (splitLead (c :: cs)).2 := by
  have hcontains : (c :: cs).contains '_' = false := by simpa using hmarks
  have hmarks' : '_' ∉ (splitLead (c :: cs)).2 := fun h => hmarks ((splitLead_suffix _).subset h)
  rw [readNatural]
  · simp only [hcontains, readDigits_marks _ hmarks', Bool.false_and, Bool.false_eq_true,
      if_false]
    cases readDigits (splitLead (c :: cs)).1 false 0 (splitLead (c :: cs)).2 <;> rfl
  · exact nofun

/-- A text that starts with a digit and has no underscore is read by its lead. -/
theorem readInteger_none {c : Char} {cs : List Char} (hc : (digitIn? 10 c).isSome = true)
    (hmarks : '_' ∉ c :: cs) {v : Int64} :
    readInteger none (c :: cs) = .ok v ↔
      ∃ n : Nat, readDigits (splitLead (c :: cs)).1 false 0 (splitLead (c :: cs)).2 = .ok n ∧
        v.toInt = n := by
  rw [readInteger_cons (digit_ne hc).1 (digit_ne hc).2.1, readNatural_none hmarks]

end Text

open Lexer (Spelled leads ReadsNumber ReadsAs)

namespace Settings

theorem defineValue_eq_ok {cs : List Char} {v : Int64} (h : cs.head? ≠ some '$') :
    defineValue cs = .ok v ↔ Text.readInteger none cs = .ok v := by
  have hnone : afterDollar? cs = none := by
    unfold afterDollar?
    split
    · exact absurd rfl h
    · rfl
  unfold defineValue
  rw [hnone]
  dsimp only
  cases Text.readInteger none cs <;> simp

theorem defineValue_dollar (ds : List Char) (v : Int64) :
    defineValue ('$' :: ds) = .ok v ↔ Text.readInteger (some 16) ds = .ok v := by
  unfold defineValue
  simp only [afterDollar?]
  cases Text.readInteger (some 16) ds <;> simp

/-- After a lead the base is the same as in source. -/
theorem defineValue_lead {k : Char} {base : Nat} (hk : (k, base) ∈ leads) {ds : List Char}
    (hne : ds ≠ []) (hds : ∀ c ∈ ds, (Text.digitIn? base c).isSome = true) (v : Int64) :
    defineValue ('0' :: k :: ds) = .ok v ↔ Text.readInteger (some base) ds = .ok v := by
  have hsplit : Text.splitLead ('0' :: k :: ds) = (base, ds) := by
    obtain ⟨d, es, rfl⟩ := List.exists_cons_of_ne_nil hne
    have hall : ∀ e ∈ leads, Text.splitLead ('0' :: e.1 :: d :: es) = (e.2, d :: es) := by
      intro e he
      simp only [leads, List.mem_cons, List.not_mem_nil, or_false] at he
      rcases he with rfl | rfl | rfl | rfl | rfl | rfl <;> rfl
    exact hall (k, base) hk
  -- without a mark between digits both readers see the same digits
  have hmarks : '_' ∉ '0' :: k :: ds := by
    have hlead : ∀ e ∈ leads, e.1 ≠ '_' := by decide
    intro hmem
    rcases List.mem_cons.mp hmem with heq | hmem
    · cases heq
    rcases List.mem_cons.mp hmem with heq | hmem
    · exact hlead _ hk heq.symm
    · exact (Text.digit_ne (hds _ hmem)).2.2.1 rfl
  rw [defineValue_eq_ok (by simp), Text.readInteger_none (by decide) hmarks, hsplit,
    Text.readInteger_digits hne hds]

/-- A plain leading zero says octal. -/
theorem splitLead_plain {c : Char} {ds : List Char}
    (hds : ∀ d ∈ c :: ds, (Text.digitIn? 10 d).isSome = true) :
    Text.splitLead (c :: ds) = if c = '0' then (8, ds) else (10, c :: ds) := by
  by_cases hzero : c = '0'
  · subst hzero
    rw [if_pos rfl]
    cases ds with
    | nil => rfl
    | cons k ds =>
        cases ds with
        | nil => rfl
        | cons d ds =>
            have hk := hds k (List.mem_cons_of_mem _ List.mem_cons_self)
            -- a decimal digit is none of the letters that choose a base
            have hletters : ∀ l ∈ ['x', 'X', 'o', 'O', 'b', 'B'], (k == l) = false := by
              intro l hl
              refine beq_eq_false_iff_ne.mpr ?_
              rintro rfl
              have hall : (['x', 'X', 'o', 'O', 'b', 'B'].all
                  fun l => (Text.digitIn? 10 l).isNone) = true := rfl
              have hnone := Option.isNone_iff_eq_none.mp (List.all_eq_true.mp hall k hl)
              rw [hnone] at hk
              cases hk
            simp (disch := decide) only [Text.splitLead, hletters, Bool.or_false,
              Bool.false_eq_true, if_false]
  · rw [if_neg hzero]
    unfold Text.splitLead
    split
    · next heq => exact absurd (List.cons.inj heq).1 hzero
    · next heq => exact absurd (List.cons.inj heq).1 hzero
    · rfl

/-- A literal that is a decimal with a zero in front of other digits. -/
def LeadingZero (cs : List Char) : Prop :=
  ∃ d ds, cs = '0' :: d :: ds ∧ (Text.digitIn? 10 d).isSome = true

/-- Decimal digits are read as such, unless a leading zero makes them octal. -/
theorem defineValue_plain {ds : List Char} (hne : ds ≠ [])
    (hds : ∀ c ∈ ds, (Text.digitIn? 10 c).isSome = true) {v : Int64}
    (hv : Text.readInteger (some 10) ds = .ok v) :
    defineValue ds = .ok v ↔ ¬(LeadingZero ds ∧ 8 ≤ v) := by
  obtain ⟨c, cs, rfl⟩ := List.exists_cons_of_ne_nil hne
  obtain ⟨n, hn, hvn⟩ := (Text.readInteger_digits hne hds).mp hv
  have hc := hds c List.mem_cons_self
  have hmarks : '_' ∉ c :: cs := fun hmem => (Text.digit_ne (hds _ hmem)).2.2.1 rfl
  have hdollar : (c :: cs).head? ≠ some '$' := fun heq =>
    (Text.digit_ne hc).2.2.2 (Option.some.inj heq)
  -- the digits denote one number, so the readers can only differ about the base
  have hunique : (∃ m : Nat, Text.readDigits (Text.splitLead (c :: cs)).1 false 0
      (Text.splitLead (c :: cs)).2 = .ok m ∧ v.toInt = m) ↔
      Text.readDigits (Text.splitLead (c :: cs)).1 false 0 (Text.splitLead (c :: cs)).2 = .ok n := by
    constructor
    · rintro ⟨m, hm, hvm⟩
      obtain rfl : m = n := by omega
      exact hm
    · exact fun h => ⟨n, h, hvn⟩
  have hsmall : 8 ≤ v ↔ 8 ≤ n := by
    rw [Int64.le_iff_toInt_le, hvn]
    exact Int.ofNat_le
  rw [defineValue_eq_ok hdollar, Text.readInteger_none hc hmarks, hunique, splitLead_plain hds]
  -- a leading zero chooses octal: it changes nothing below eight
  by_cases hzero : c = '0'
  · subst hzero
    have hn : Text.readDigits 10 false 0 cs = .ok n := by
      obtain ⟨d, hd, -, hn⟩ := Text.readDigits_cons_eq_ok.mp hn
      have hd0 : some 0 = some d := hd
      obtain rfl := Option.some.inj hd0
      exact hn
    rw [if_pos rfl, Text.octal_eq_iff hn, hsmall]
    cases cs with
    | nil =>
        obtain rfl := Except.ok.inj hn
        exact iff_of_true (by decide) fun h => absurd h.2 (by decide)
    | cons d ds =>
        have hlead : LeadingZero ('0' :: d :: ds) :=
          ⟨d, ds, rfl, hds d (List.mem_cons_of_mem _ List.mem_cons_self)⟩
        rw [and_iff_right hlead, Nat.not_le]
  · rw [if_neg hzero]
    refine iff_of_true hn ?_
    rintro ⟨⟨d, ds, heq, -⟩, -⟩
    exact hzero (List.cons.inj heq).1

/-- A definition reads a literal as the source does, unless it is a decimal of
eight or more with a leading zero. -/
theorem defineValue_spelled {cs ds : List Char} {base : Nat} (h : Spelled cs base ds)
    (hne : ds ≠ []) (hds : ∀ c ∈ ds, (Text.digitIn? base c).isSome = true) {v : Int64}
    (hv : Text.readInteger (some base) ds = .ok v) :
    defineValue cs = .ok v ↔ ¬(LeadingZero cs ∧ 8 ≤ v) := by
  cases h with
  | dollar =>
      refine iff_of_true ((defineValue_dollar _ v).mpr hv) ?_
      rintro ⟨⟨d, ds, heq, -⟩, -⟩
      cases heq
  | @lead k base _ hk =>
      refine iff_of_true ((defineValue_lead hk hne hds v).mpr hv) ?_
      rintro ⟨⟨d, ds, heq, hd⟩, -⟩
      obtain ⟨rfl, -⟩ := List.cons.inj (List.cons.inj heq).2
      have hall : ∀ e ∈ leads, ¬(Text.digitIn? 10 e.1).isSome = true := by decide
      exact hall _ hk hd
  | plain => exact defineValue_plain hne hds hv

/-- A definition is cut at its first equals sign, and blanks around its parts do
not count. -/
theorem readDefine_append {name t : String} (hname : '=' ∉ name.toList)
    (hne : Text.trimChars name.toList ≠ []) (ht : ∀ c ∈ t.toList, Text.isBlank c = false)
    {d : String × Int64} :
    readDefine (name ++ "=" ++ t) = .ok d ↔
      d.1 = Text.upper (Text.trim name) ∧ defineValue t.toList = .ok d.2 := by
  have hall : ∀ c ∈ name.toList, (c != '=') = true := by
    intro c hc
    refine bne_iff_ne.mpr ?_
    rintro rfl
    exact hname hc
  have htext : (name ++ "=" ++ t).toList = name.toList ++ '=' :: t.toList := by
    rw [String.toList_append, String.toList_append, List.append_assoc]
    rfl
  -- the name holds no equals sign, so the first one ends it
  have hbefore : (name.toList ++ '=' :: t.toList).takeWhile (· != '=') = name.toList := by
    rw [List.takeWhile_append_of_pos hall, List.takeWhile_cons_of_neg (by decide), List.append_nil]
  have hafter : (name.toList ++ '=' :: t.toList).dropWhile (· != '=') = '=' :: t.toList := by
    rw [List.dropWhile_append_of_pos hall, List.dropWhile_cons_of_neg (by decide)]
  have hempty : (Text.trimChars name.toList).isEmpty = false := by simpa using hne
  unfold readDefine
  simp only [htext, hbefore, hafter, hempty, Text.trimChars_eq_self ht, Bool.false_eq_true, if_false]
  obtain ⟨w, v⟩ := d
  cases defineValue t.toList with
  | error err => exact iff_of_false nofun fun h => nomatch h.2
  | ok x =>
      rw [Except.ok.injEq, Except.ok.injEq, Prod.mk.injEq, eq_comm (a := w)]
      rfl

end Settings

/-! ## Assignments -/

namespace Lexer

/-- A literal holds no blanks. -/
theorem literal_blank {defines : List (String × Int64)} {t : String} {v : Int64}
    (h : ReadsNumber defines t v) : ∀ c ∈ t.toList, Text.isBlank c = false := by
  obtain ⟨base, ds, hspelled, -, hdigits, -⟩ := literal_spelled h
  have hds : ∀ c ∈ ds, Text.isBlank c = false := fun c hc => Text.isBlank_digit (hdigits c hc)
  generalize t.toList = cs at hspelled ⊢
  cases hspelled with
  | dollar => exact List.forall_mem_cons.mpr ⟨by decide, hds⟩
  | lead _ hk =>
      have hleads : ∀ e ∈ leads, Text.isBlank e.1 = false := by decide
      exact List.forall_mem_cons.mpr ⟨by decide, List.forall_mem_cons.mpr ⟨hleads (_, _) hk, hds⟩⟩
  | plain => exact hds

/-- A text that is one word: its glyphs are those of a name, and it stands for
itself in upper case. -/
theorem word_glyphs {defines : List (String × Int64)} {name w : String}
    (h : ReadsAs defines name (.word w)) :
    ∃ c cs, name.toList = c :: cs ∧ isNameStart (.char c) = true ∧
      (∀ d ∈ name.toList, Text.isWordChar d = true) ∧ Text.upper name = w ∧
      ¬['_', '_'] <+: w.toList ∧ Mnemonic.ofName? w = none := by
  obtain ⟨g, gs, hglyphs, htakes⟩ := h
  obtain ⟨hstart, hname⟩ := name_of_step htakes
  obtain ⟨c, cs, hcs, rfl, rfl⟩ := List.map_eq_cons_iff.mp hglyphs
  have hprefix : word (Glyph.char c :: cs.map Glyph.char) <+: Glyph.char c :: cs.map Glyph.char :=
    List.takeWhile_prefix _
  unfold Lexer.name at hname
  dsimp only at hname
  split at hname
  · cases hname
  · next hplain =>
    split at hname
    · cases hname
    · split at hname
      · cases hname
      · next hnone =>
        simp only [Step.takes?, Option.some.injEq, Prod.mk.injEq, Lexeme.word.injEq] at hname
        obtain ⟨hw, hlength⟩ := hname
        -- the word is all of the text
        have hall : word (Glyph.char c :: cs.map Glyph.char) = Glyph.char c :: cs.map Glyph.char :=
          hprefix.eq_of_length (by rw [List.length_cons]; omega)
        rw [hw] at hplain hnone
        rw [hall, ← List.map_cons (f := Glyph.char), ← hcs] at hw
        refine ⟨c, cs, hcs, hstart, fun d hd => ?_, ?_, ?_, hnone⟩
        · rw [hcs] at hd
          exact List.takeWhile_eq_self_iff.mp hall (.char d) (List.mem_map_of_mem hd)
        · have hchars : (name.toList.map Glyph.char).map Glyph.toChar = name.toList := by
            rw [List.map_map]
            exact List.map_id _
          rwa [nameOf, Glyph.toText, hchars, String.ofList_toList] at hw
        · rwa [← List.isPrefixOf_iff_prefix]

/-- A single piece that makes a lexeme. -/
theorem Makes.single {defines : List (String × Int64)} {rest gs : List Glyph} {line : Nat} {g : Glyph}
    {l : Lexeme} (h : (step defines line g (gs ++ rest)).takes? = some (some l, gs.length + 1)) :
    Makes defines rest (g :: gs) [l] := by
  have hpiece : Makes defines rest (g :: (gs ++ [])) ((some l).toList ++ []) :=
    @Makes.piece defines rest line g gs [] (some l) [] h .nil
  rwa [List.append_nil] at hpiece

/-- A word reads the same in front of a blank. -/
theorem makes_word {defines : List (String × Int64)} {name w : String}
    (h : ReadsAs defines name (.word w)) (rest : List Glyph) :
    Makes defines (.char ' ' :: rest) (Glyph.ofString name) [.word w] := by
  obtain ⟨c, cs, hcs, hstart, hchars, hupper, hplain, hnone⟩ := word_glyphs h
  have hall : ∀ g ∈ name.toList.map Glyph.char, isWordGlyph g = true := by
    intro g hg
    obtain ⟨d, hd, rfl⟩ := List.mem_map.mp hg
    exact hchars d hd
  have hword : word (name.toList.map Glyph.char ++ .char ' ' :: rest) = name.toList.map Glyph.char := by
    rw [word, List.takeWhile_append_of_pos hall, List.takeWhile_cons_of_neg (by decide), List.append_nil]
  have hnameOf : nameOf (name.toList.map Glyph.char) = w := by
    -- every glyph is a character, so the name is read back as it was written
    have hback : (name.toList.map Glyph.char).map Glyph.toChar = name.toList := by
      rw [List.map_map]
      exact List.map_id _
    rw [nameOf, Glyph.toText, hback, String.ofList_toList, hupper]
  have hafter : (name.toList.map Glyph.char ++ .char ' ' :: rest).drop (name.toList.map Glyph.char).length =
      .char ' ' :: rest := List.drop_left
  have hquote : (cs.map Glyph.char ++ .char ' ' :: rest).head? ≠ some (.char '"') := by
    cases cs with
    | nil =>
        intro heq
        cases heq
    | cons d ds =>
        intro heq
        have hd := hchars d (by rw [hcs]; simp)
        cases heq
        exact absurd hd (by decide)
  have htakes : (step defines 1 (.char c) (cs.map Glyph.char ++ .char ' ' :: rest)).takes? =
      some (some (.word w), (cs.map Glyph.char).length + 1) := by
    have hreserved : ¬['_', '_'].isPrefixOf w.toList = true := by
      rwa [List.isPrefixOf_iff_prefix]
    have hcolon : ¬((Glyph.char ' ' :: rest).head? == some (.char ':')) = true := by simp
    rw [step_nameStart hstart 1 hquote, ← List.cons_append, ← List.map_cons, ← hcs, Lexer.name]
    simp only [hword, hnameOf, if_neg hreserved, hafter, hnone]
    rw [if_neg hcolon, Step.takes?, hcs, List.map_cons, List.length_cons]
  rw [Glyph.ofString, hcs, List.map_cons]
  exact .single htakes

/-- A text that reads as one token. -/
theorem ReadsAs.makes {defines : List (String × Int64)} {t : String} {l : Lexeme}
    (h : ReadsAs defines t l) : Makes defines [] (Glyph.ofString t) [l] := by
  obtain ⟨g, gs, hglyphs, htakes⟩ := h
  rw [hglyphs]
  exact @Makes.single defines [] gs 1 g l (by rwa [List.append_nil])

/-- A source line that assigns a literal to a name. -/
theorem makes_assignment {defines : List (String × Int64)} {name w t : String} {l : Lexeme}
    (hname : ReadsAs defines name (.word w)) (ht : ReadsAs defines t l) :
    Makes defines [] (Glyph.ofString (name ++ " = " ++ t)) [.word w, .assign, l] := by
  have hspace : ∀ {text : List Glyph} {ls : List Lexeme}, Makes defines [] text ls →
      Makes defines [] (.char ' ' :: text) ls :=
    fun h => @Makes.piece defines [] 1 (.char ' ') [] _ none _ rfl h
  have hsign : Makes defines [] (.char '=' :: .char ' ' :: Glyph.ofString t) [.assign, l] :=
    @Makes.piece defines [] 1 (.char '=') [] _ (some .assign) _ rfl (hspace ht.makes)
  have hglyphs : Glyph.ofString (name ++ " = " ++ t) =
      Glyph.ofString name ++ .char ' ' :: .char '=' :: .char ' ' :: Glyph.ofString t := by
    simp only [Glyph.ofString, String.toList_append, List.map_append, List.append_assoc]
    rfl
  have hword : Makes defines (.char ' ' :: .char '=' :: .char ' ' :: Glyph.ofString t ++ [])
      (Glyph.ofString name) [.word w] := by
    rw [List.append_nil]
    exact makes_word hname _
  rw [hglyphs]
  exact hword.append (hspace hsign)

end Lexer

/-- The line assigns a number to a name. -/
def Line.Assigns (w : String) (v : Int64) (l : Line) : Prop :=
  ∃ loc, l.statement = .assign w [Action.load loc v]

/-- A name, an equals sign and a number make one line. -/
theorem linesOf_assignment {w ds : String} {v : Int64} {ts : List Token}
    (hts : ts.map Token.lexeme = [.word w, .assign, .number ds v]) (file : String) (last : Nat) :
    ∃ l, linesOf file (ts ++ [⟨.endOfFile, last⟩]) = ([l], none) ∧ l.Assigns w v := by
  obtain ⟨⟨_, line⟩, ts, rfl, hword, hts⟩ := List.map_eq_cons_iff.mp hts
  obtain ⟨⟨_, line'⟩, ts, rfl, hsign, hts⟩ := List.map_eq_cons_iff.mp hts
  obtain ⟨⟨_, line''⟩, ts, rfl, hnumber, hts⟩ := List.map_eq_cons_iff.mp hts
  obtain rfl := List.map_eq_nil_iff.mp hts
  dsimp only at hword hsign hnumber
  subst hword hsign hnumber
  have hvalue : Parse.Reads (Expr.climb 0) file
      [⟨.number ds v, line''⟩, ⟨.endOfFile, last⟩] (.number ⟨file, line''⟩ v) [⟨.endOfFile, last⟩] :=
    Expr.reads_alone (Expr.reads_number ds v) rfl
  refine ⟨⟨⟨file, line⟩, .assign w [Action.load ⟨file, line''⟩ v]⟩, ?_, _, rfl⟩
  simp only [List.cons_append, List.nil_append]
  have hend : Lexeme.word w ≠ .endOfFile := nofun
  rw [linesOf, readLines_single hend rfl (Statement.reads_assignment w hvalue), readLines, if_pos rfl]
  rfl

open Lexer (scan literal_spelled literal_blank word_glyphs makes_assignment)

/-- A definition of a name and an assignment to it give it the same value, for every
literal but the decimals of eight or more with a leading zero. -/
theorem literal_assigns_iff {defines : List (String × Int64)} {t : String} {v : Int64}
    (ht : ReadsNumber defines t v) :
    (∀ name : String, '=' ∉ name.toList → Text.trimChars name.toList ≠ [] →
      (Settings.readDefine (name ++ "=" ++ t) = .ok (Text.upper (Text.trim name), v) ↔
        ¬(Settings.LeadingZero t.toList ∧ 8 ≤ v))) ∧
    ∀ name w file : String, ReadsAs defines name (.word w) →
      ('=' ∉ name.toList ∧ Text.trimChars name.toList ≠ [] ∧ Text.upper (Text.trim name) = w) ∧
      (∃ l, Command.defineLines (({} : Settings).define [(w, v)]) = [l] ∧ l.Assigns w v) ∧
      ∃ tokens last l, scan defines (Glyph.ofString (name ++ " = " ++ t)) = ⟨tokens, last, none⟩ ∧
        linesOf file tokens = ([l], none) ∧ l.Assigns w v := by
  constructor
  · intro name hname hne
    obtain ⟨base, ds, hspelled, hds, hdigits, hv⟩ := literal_spelled ht
    rw [Settings.readDefine_append hname hne (literal_blank ht),
      ← Settings.defineValue_spelled hspelled hds hdigits hv]
    exact and_iff_right rfl
  · intro name w file hname
    obtain ⟨c, cs, hcs, -, hchars, hupper, -, -⟩ := word_glyphs hname
    have htrim : Text.trimChars name.toList = name.toList :=
      Text.trimChars_eq_self fun d hd => Text.isBlank_wordChar (hchars d hd)
    refine ⟨⟨fun hequal => ?_, ?_, ?_⟩, ⟨_, rfl, _, rfl⟩, ?_⟩
    · exact absurd (hchars '=' hequal) (by decide)
    · rw [htrim, hcs]
      exact List.cons_ne_nil c cs
    · rw [Text.trim, htrim, String.ofList_toList, hupper]
    · obtain ⟨ds, hreads⟩ := ht.2
      obtain ⟨ts, last, hts, hscan⟩ := (makes_assignment hname hreads).scan_eq
      obtain ⟨l, hlines, hassigns⟩ := linesOf_assignment hts file last
      exact ⟨_, _, l, hscan, hlines, hassigns⟩

/-- A literal in hex, with its lead and its digits in either letter case. -/
theorem literal_assigns_hex :
    ReadsNumber [] "0X1f" 31 ∧ Settings.readDefine "base=0X1f" = .ok ("BASE", 31) ∧
      ∃ tokens last l, scan [] (Glyph.ofString "base = 0X1f") = ⟨tokens, last, none⟩ ∧
        linesOf "main.s" tokens = ([l], none) ∧ l.Assigns "BASE" 31 := by
  have ht : ReadsNumber [] "0X1f" 31 := by
    refine ⟨by decide +kernel, "1f", .char '0', _, rfl, ?_⟩
    decide +kernel
  have hname : ReadsAs [] "base" (.word "BASE") := by
    refine ⟨.char 'b', _, rfl, ?_⟩
    decide +kernel
  obtain ⟨hdefine, hassign⟩ := literal_assigns_iff ht
  obtain ⟨⟨hequal, hne, hupper⟩, -, hsource⟩ := hassign "base" "BASE" "main.s" hname
  have hplain : ¬(Settings.LeadingZero "0X1f".toList ∧ (8 : Int64) ≤ 31) := by
    rintro ⟨⟨d, ds, heq, hd⟩, -⟩
    cases heq
    exact absurd hd (by decide)
  have hvalue := (hdefine "base" hequal hne).mpr hplain
  rw [hupper] at hvalue
  exact ⟨ht, hvalue, hsource⟩

/-- A decimal with a leading zero means one number in source and another one in a
definition. -/
theorem literal_leading_zero :
    ReadsNumber [] "010" 10 ∧ Settings.readDefine "N=010" = .ok ("N", 8) := by
  refine ⟨⟨by decide +kernel, "010", .char '0', _, rfl, ?_⟩, ?_⟩ <;> decide +kernel

end Mos6510
