import Mos6510.Proofs.Literals
import Mos6510.Proofs.Merging
import Mos6510.Proofs.Printing

/-!
# Definitions as they are written

A definition is a line of a project file or an argument of the command line.  Every
number reads back in both (`readInteger_decimal_toInt`), and so does every name
(`ofText_projectText`, `readDefine_defineText`): as it is written in the file, and in upper
case on the command line.  `defines_interchangeable_iff` says when the two come to the same.
-/

namespace Mos6510

/-! ## Numbers -/

namespace Text

/-- The first digit of a number above zero is not zero. -/
theorem head?_digitsAux {fuel n : Nat} (hpos : 0 < n) (h : n < 2 ^ fuel) (acc : List Char) :
    (digitsAux upperDigit 10 fuel n acc).head? ≠ some '0' := by
  induction fuel generalizing n acc with
  | zero => omega
  | succ fuel ih =>
      rw [digitsAux, if_neg (Nat.pos_iff_ne_zero.mp hpos)]
      obtain hzero | hmore := Nat.eq_zero_or_pos (n / 10)
      · have hfirst : digitsAux upperDigit 10 fuel (n / 10) (upperDigit (n % 10) :: acc) =
            upperDigit (n % 10) :: acc := by
          rw [hzero]
          cases fuel <;> rfl
        have hdigit : ∀ d < 10, 0 < d → upperDigit d ≠ '0' := by decide
        rw [hfirst]
        exact fun h => hdigit (n % 10) (by omega) (by omega) (Option.some.inj h)
      · exact ih hmore (by omega) _

/-- Only zero starts with a zero. -/
theorem eq_zero_of_head?_decimal {n : Nat} (h : (decimal n).toList.head? = some '0') : n = 0 := by
  by_contra hne
  rw [toList_decimal, digits, if_neg hne] at h
  exact head?_digitsAux (Nat.pos_iff_ne_zero.mpr hne) Nat.lt_log2_self [] h

theorem digitIn?_of_mem_decimal {n : Nat} {c : Char} (h : c ∈ (decimal n).toList) :
    (digitIn? 10 c).isSome = true := by
  obtain ⟨d, hd, rfl⟩ := mem_decimal h
  rw [Lexer.digitIn?_upperDigit hd]
  rfl

theorem readDigits_decimal_eq {n : Nat} (h : n < UInt64.size) :
    readDigits 10 false 0 (decimal n).toList = .ok n := by
  have hvalue : decimalValue 0 (decimal n).toList = n := by
    rw [toList_decimal, decimalValue_digits]
  rw [Lexer.readDigits_decimal (Lexer.isDigits_decimal n) 0 (by rwa [hvalue]), hvalue]

/-- A number without sign reads back in decimal, and where its lead says the base. -/
theorem readNatural_decimal {base : Option Nat} (hbase : base = none ∨ base = some 10) {n : Nat}
    (h : n < UInt64.size) : readNatural base (decimal n).toList = .ok n := by
  have hread := readDigits_decimal_eq h
  have hzero := @eq_zero_of_head?_decimal n
  have hdigits := fun c => @digitIn?_of_mem_decimal n c
  obtain ⟨c, cs, hcs⟩ := List.exists_cons_of_ne_nil (decimal_ne_nil n)
  rw [hcs] at hread hzero hdigits ⊢
  rcases hbase with rfl | rfl
  · have hmarks : '_' ∉ c :: cs := fun hmem => (digit_ne (hdigits _ hmem)).2.2.1 rfl
    rw [readNatural_none hmarks, Settings.splitLead_plain hdigits]
    split
    · rename_i hc
      obtain rfl := hzero (congrArg some hc)
      obtain ⟨-, rfl⟩ := List.cons.inj (hcs.symm.trans (by rfl : (decimal 0).toList = ['0']))
      rfl
    · exact hread
  · exact hread

theorem signed_true {n : Nat} {v : Int64} (h : v.toInt = -n) : signed true n = .ok v := by
  have hlow := v.le_toInt
  rw [signed, if_pos rfl, if_pos (by omega), ← h, Int64.ofInt_toInt]

theorem toList_decimal_toInt (v : Int64) :
    (decimal v.toInt).toList =
      (if v.toInt < 0 then ['-'] else []) ++ (decimal v.toInt.natAbs).toList := by
  rw [toList_decimal, decimal, String.toList_ofList]

/-- What holds of the minus sign and of digits holds of all characters of a number. -/
theorem forall_mem_decimal {P : Char → Prop} (hminus : P '-') (hdigit : ∀ d < 10, P (upperDigit d))
    (v : Int64) : ∀ c ∈ (decimal v.toInt).toList, P c := by
  intro c h
  rw [toList_decimal_toInt, List.mem_append] at h
  rcases h with h | h
  · split at h
    · exact List.mem_singleton.mp h ▸ hminus
    · cases h
  · obtain ⟨d, hd, rfl⟩ := mem_decimal h
    exact hdigit d hd

/-- Every number reads back, in decimal and where its lead says the base. -/
theorem readInteger_decimal_toInt {base : Option Nat} (hbase : base = none ∨ base = some 10) (v : Int64) :
    readInteger base (decimal v.toInt).toList = .ok v := by
  have hlow := v.le_toInt
  have hhigh := v.toInt_lt
  have hread : readNatural base (decimal v.toInt.natAbs).toList = .ok v.toInt.natAbs :=
    readNatural_decimal hbase (by show _ < 18446744073709551616; omega)
  rw [toList_decimal_toInt]
  split
  · show readNatural base (decimal v.toInt.natAbs).toList >>= signed true = _
    rw [hread]
    exact signed_true (by omega)
  · obtain ⟨c, cs, hcs⟩ := List.exists_cons_of_ne_nil (decimal_ne_nil v.toInt.natAbs)
    have hc := digit_ne (digitIn?_of_mem_decimal (hcs ▸ List.mem_cons_self : c ∈ _))
    rw [hcs] at hread
    rw [hcs, List.nil_append]
    exact (readInteger_cons hc.1 hc.2.1).mpr ⟨_, hread, by omega⟩

end Text

/-! ## Arguments -/

/-- A definition as an argument. -/
def defineText (name : String) (v : Int64) : String := name ++ "=" ++ Text.decimal v.toInt

theorem Settings.readDefine_defineText {name : String} (hne : name.toList ≠ [])
    (hword : ∀ c ∈ name.toList, Text.isWordChar c = true) (v : Int64) :
    readDefine (defineText name v) = .ok (Text.upper name, v) := by
  have htrim : Text.trimChars name.toList = name.toList :=
    Text.trimChars_eq_self fun c hc => Text.isBlank_wordChar (hword c hc)
  refine (readDefine_append (fun h => ?_) (by rwa [htrim]) ?_).mpr ⟨?_, ?_⟩
  · have hequal : Text.isWordChar '=' = false := by decide +kernel
    rw [hword _ h] at hequal
    cases hequal
  · exact Text.forall_mem_decimal (by decide) (by decide) v
  · rw [Text.trim, htrim, String.ofList_toList]
  · refine (defineValue_eq_ok fun h => ?_).mpr (Text.readInteger_decimal_toInt (.inl rfl) v)
    have hdollar : ∀ c ∈ (Text.decimal v.toInt).toList, c ≠ '$' :=
      Text.forall_mem_decimal (by decide) (by decide) v
    exact hdollar _ (List.mem_of_head? h) rfl

/-! ## Project files -/

/-- A project file with one definition. -/
def projectText (name : String) (v : Int64) : String :=
  "[defines]\n" ++ name ++ " = " ++ Text.decimal v.toInt ++ "\n"

namespace Toml

theorem marksPlaced_digits {isDigit : Char → Bool} {cs : List Char} (h : ∀ c ∈ cs, isDigit c = true)
    (afterDigit : Bool) : Text.marksPlaced isDigit afterDigit false cs = true := by
  induction cs generalizing afterDigit with
  | nil => rfl
  | cons c cs ih =>
      obtain ⟨hc, hcs⟩ := List.forall_mem_cons.mp h
      rw [Text.marksPlaced, if_pos hc]
      exact ih hcs true

theorem wholeOk_decimal (n : Nat) : wholeOk (Text.decimal n).toList = true := by
  have hdigits : ∀ c ∈ (Text.decimal n).toList, c.isDigit = true := by
    intro c hc
    obtain ⟨d, hd, rfl⟩ := Text.mem_decimal hc
    have hall : ∀ d < 10, (Text.upperDigit d).isDigit = true := by decide
    exact hall d hd
  have hwhole : ((Text.decimal n).toList.length == 1 ||
      (Text.decimal n).toList.head? != some '0') = true := by
    by_cases hzero : (Text.decimal n).toList.head? = some '0'
    · obtain rfl := Text.eq_zero_of_head?_decimal hzero
      rfl
    · rw [bne_iff_ne.mpr hzero, Bool.or_true]
  have hnil := Text.decimal_ne_nil n
  simp only [wholeOk, digitsOk, hwhole, marksPlaced_digits hdigits, Bool.and_eq_true, List.all_eq_true,
    Bool.or_eq_true, Bool.not_eq_true', List.isEmpty_eq_false_iff]
  exact ⟨⟨⟨fun c hc => .inl (hdigits c hc), trivial⟩, hnil⟩, trivial⟩

/-- A number in decimal is an integer. -/
theorem integer?_decimal (v : Int64) : integer? (Text.decimal v.toInt).toList = some v := by
  have hletter : ∀ c ∈ (Text.decimal v.toInt).toList, c ≠ 'x' ∧ c ≠ 'o' ∧ c ≠ 'b' ∧ c ≠ '_' :=
    Text.forall_mem_decimal (by decide) (by decide) v
  have hunsigned : unsigned (Text.decimal v.toInt).toList = (Text.decimal v.toInt.natAbs).toList := by
    rw [Text.toList_decimal_toInt]
    split
    · rfl
    · obtain ⟨c, cs, hcs⟩ := List.exists_cons_of_ne_nil (Text.decimal_ne_nil v.toInt.natAbs)
      have hc := Text.digit_ne (Text.digitIn?_of_mem_decimal (hcs ▸ List.mem_cons_self : c ∈ _))
      rw [hcs, List.nil_append, unsigned]
      · rintro rest heq
        exact hc.2.1 (List.cons.inj heq).1
      · rintro rest heq
        exact hc.1 (List.cons.inj heq).1
  have hfilter : (Text.decimal v.toInt).toList.filter (· != '_') = (Text.decimal v.toInt).toList := by
    exact List.filter_eq_self.mpr fun c hc => bne_iff_ne.mpr (hletter c hc).2.2.2
  have hwhole := wholeOk_decimal v.toInt.natAbs
  have hread := Text.readInteger_decimal_toInt (.inr rfl) v
  rw [← hunsigned] at hwhole
  generalize (Text.decimal v.toInt).toList = w at hletter hwhole hfilter hread
  unfold integer?
  -- there is no lead
  split
  · exact absurd rfl (hletter 'x' (List.mem_cons_of_mem _ List.mem_cons_self)).1
  · exact absurd rfl (hletter 'o' (List.mem_cons_of_mem _ List.mem_cons_self)).2.1
  · exact absurd rfl (hletter 'b' (List.mem_cons_of_mem _ List.mem_cons_self)).2.2.1
  · simp only [hwhole, if_true, hfilter, hread, Except.toOption]

/-- Characters of bare keys mark nothing else. -/
theorem of_isBare {c : Char} (h : isBare c = true) :
    isControl c = false ∧ isGap c = false ∧ c ≠ '[' ∧ c ≠ '#' ∧ c ≠ '\n' ∧ c ≠ '\r' := by
  have hcontrol : isControl c = false := by
    by_contra hc
    have hsmall : ∀ n < 128, isControl (Char.ofNat n) = true → isBare (Char.ofNat n) = false := by
      decide +kernel
    rw [Bool.not_eq_false] at hc
    have hlt : c.toNat < 128 := by
      simp only [isControl, Bool.or_eq_true, Bool.and_eq_true, decide_eq_true_eq, beq_iff_eq] at hc
      omega
    have hnot := hsmall c.toNat hlt
    rw [Char.ofNat_toNat] at hnot
    rw [hnot hc] at h
    cases h
  have hne : ∀ d, isBare d = false → c ≠ d := by
    rintro d hd rfl
    rw [h] at hd
    cases hd
  refine ⟨hcontrol, ?_, hne _ (by decide), hne _ (by decide), hne _ (by decide), hne _ (by decide)⟩
  rw [isGap, beq_eq_false_iff_ne.mpr (hne ' ' (by decide)),
    beq_eq_false_iff_ne.mpr (hne '\t' (by decide))]
  rfl

theorem key?_bare {name : String} (hne : name.toList ≠ []) (hbare : ∀ c ∈ name.toList, isBare c = true)
    (rest : List Char) : key? (name.toList ++ ' ' :: '=' :: rest) = some ([name], '=' :: rest) := by
  have htake : (name.toList ++ ' ' :: '=' :: rest).takeWhile isBare = name.toList := by
    rw [List.takeWhile_append_of_pos hbare, List.takeWhile_cons_of_neg (by decide), List.append_nil]
  have hdrop : (name.toList ++ ' ' :: '=' :: rest).dropWhile isBare = ' ' :: '=' :: rest := by
    rw [List.dropWhile_append_of_pos hbare, List.dropWhile_cons_of_neg (by decide)]
  have hgap : skipGap (name.toList ++ ' ' :: '=' :: rest) = name.toList ++ ' ' :: '=' :: rest := by
    obtain ⟨c, cs, hcs⟩ := List.exists_cons_of_ne_nil hne
    have hc := (of_isBare (hbare c (hcs ▸ List.mem_cons_self))).2.1
    rw [hcs, List.cons_append, skipGap, List.dropWhile_cons_of_neg (by rw [hc]; exact Bool.false_ne_true)]
  have hpart : keyPart? (name.toList ++ ' ' :: '=' :: rest) = some (name, ' ' :: '=' :: rest) := by
    unfold keyPart?
    rw [htake, hdrop]
    split
    · exact absurd ‹_› hne
    · rw [String.ofList_toList]
  rw [key?, keyParts?, hgap, hpart]
  rfl

theorem value?_decimal (fuel : Nat) (v : Int64) (more : List Char) :
    value? (fuel + 1) ((Text.decimal v.toInt).toList ++ '\n' :: more) =
      some (.scalar (.int v), '\n' :: more) := by
  have hchars : ∀ c ∈ (Text.decimal v.toInt).toList, isWord c = true ∧ c ≠ '[' ∧ c ≠ '\x7b' ∧
      c ≠ '"' ∧ c ≠ '\'' ∧ c ≠ 't' ∧ c ≠ 'f' := Text.forall_mem_decimal (by decide) (by decide) v
  have hint := integer?_decimal v
  generalize (Text.decimal v.toInt).toList = w at hchars hint
  have hword : word (w ++ '\n' :: more) = (w, '\n' :: more) := by
    have hall : ∀ c ∈ w, isWord c = true := fun c hc => (hchars c hc).1
    unfold word
    rw [List.takeWhile_append_of_pos hall, List.dropWhile_append_of_pos hall,
      List.takeWhile_cons_of_neg (by decide), List.dropWhile_cons_of_neg (by decide), List.append_nil]
    rfl
  have htrue : w ≠ "true".toList := by
    rintro rfl
    exact (hchars 't' (by decide)).2.2.2.2.2.1 rfl
  have hfalse : w ≠ "false".toList := by
    rintro rfl
    exact (hchars 'f' (by decide)).2.2.2.2.2.2 rfl
  have hvalue : wordValue? w = some (.int v) := by
    unfold wordValue?
    rw [if_neg (by simpa using htrue), if_neg (by simpa using hfalse), hint]
  have hfirst : ∀ c rest, w ++ '\n' :: more = c :: rest →
      c ≠ '[' ∧ c ≠ '\x7b' ∧ c ≠ '"' ∧ c ≠ '\'' := by
    intro c rest heq
    cases w with
    | nil =>
        obtain ⟨rfl, -⟩ := List.cons.inj heq
        decide
    | cons d ds =>
        obtain ⟨rfl, -⟩ := List.cons.inj heq
        have hd := (hchars d List.mem_cons_self).2
        exact ⟨hd.1, hd.2.1, hd.2.2.1, hd.2.2.2.1⟩
  rw [value?]
  · simp only [hword, hvalue]
    rfl
  all_goals
    intro rest heq
    have hne := hfirst _ _ heq
    simp at hne

/-- A line that defines a name. -/
theorem line?_define {name : String} (hne : name.toList ≠ [])
    (hbare : ∀ c ∈ name.toList, isBare c = true) (v : Int64) (more : List Char) :
    line? (name.toList ++ ' ' :: '=' :: ' ' :: ((Text.decimal v.toInt).toList ++ '\n' :: more)) =
      some (.entry (.mk [name] (.scalar (.int v))), more) := by
  have hgap : skipGap (' ' :: ((Text.decimal v.toInt).toList ++ '\n' :: more)) =
      (Text.decimal v.toInt).toList ++ '\n' :: more := by
    have hchars : ∀ c ∈ (Text.decimal v.toInt).toList, isGap c = false :=
      Text.forall_mem_decimal (by decide) (by decide) v
    rw [skipGap, List.dropWhile_cons_of_pos (by rfl)]
    generalize (Text.decimal v.toInt).toList = w at hchars
    cases w with
    | nil => rfl
    | cons c cs =>
        rw [List.cons_append, List.dropWhile_cons_of_neg]
        rw [hchars c List.mem_cons_self]
        exact Bool.false_ne_true
  obtain ⟨c, cs, hcs⟩ := List.exists_cons_of_ne_nil hne
  have hc := of_isBare (hbare c (hcs ▸ List.mem_cons_self))
  rw [line?]
  · rw [ entry?, key?_bare hne hbare]
    simp only [hgap, value?_decimal, Option.map_some]
    rfl
  · intro rest heq
    rw [hcs, List.cons_append] at heq
    exact hc.2.2.1 (List.cons.inj heq).1

/-- Lines are read one after the other. -/
theorem lines?_line {cs rest : List Char} {l : Line} (hskip : skipBlank false cs = cs) (hne : cs ≠ [])
    (hline : line? cs = some (l, rest)) (fuel : Nat) :
    lines? (fuel + 1) cs = (lines? fuel rest).map (l :: ·) := by
  obtain ⟨c, cs, rfl⟩ := List.exists_cons_of_ne_nil hne
  rw [lines?, hskip]
  simp only [hline]

/-- Of a text that starts without control characters, the rest decides. -/
theorem isClean_append {cs : List Char} (h : cs.any isControl = false) (rest : List Char) :
    isClean (cs ++ rest) = isClean rest := by
  induction cs with
  | nil => rfl
  | cons c cs ih =>
      obtain ⟨hc, hcs⟩ := Bool.or_eq_false_iff.mp (List.any_cons.symm.trans h)
      rw [List.cons_append, isClean, hc, ih hcs]
      · rfl
      · rintro rfl
        cases hc
      · rintro _ rfl
        cases hc

/-- So it is where each of them is no control character. -/
theorem isClean_append_of {cs : List Char} (h : ∀ c ∈ cs, isControl c = false) (rest : List Char) :
    isClean (cs ++ rest) = isClean rest :=
  isClean_append (List.any_eq_false.mpr fun c hc => Bool.eq_false_iff.mp (h c hc)) rest

end Toml

theorem toList_projectText (name : String) (v : Int64) :
    (projectText name v).toList = "[defines]\n".toList ++
      (name.toList ++ ' ' :: '=' :: ' ' :: ((Text.decimal v.toInt).toList ++ ['\n'])) := by
  simp [projectText]

/-- A project file with one definition has a heading and an entry. -/
theorem Toml.lines?_projectText {name : String} (hne : name.toList ≠ [])
    (hbare : ∀ c ∈ name.toList, isBare c = true) (v : Int64) (fuel : Nat) :
    lines? (fuel + 3) (projectText name v).toList =
      some [.heading ["defines"], .entry (.mk [name] (.scalar (.int v)))] := by
  obtain ⟨c, cs, hcs⟩ := List.exists_cons_of_ne_nil hne
  have hc := of_isBare (hbare c (hcs ▸ List.mem_cons_self))
  have hskip (rest : List Char) : skipBlank false (name.toList ++ rest) = name.toList ++ rest := by
    rw [hcs, List.cons_append, skipBlank, hc.2.1, beq_eq_false_iff_ne.mpr hc.2.2.2.1,
      beq_eq_false_iff_ne.mpr hc.2.2.2.2.1, beq_eq_false_iff_ne.mpr hc.2.2.2.2.2]
    rfl
  have hheading (rest : List Char) : lines? (fuel + 3) ("[defines]\n".toList ++ rest) =
      (lines? (fuel + 2) rest).map (.heading ["defines"] :: ·) :=
    lines?_line rfl (List.cons_ne_nil _ _) rfl (fuel + 2)
  rw [toList_projectText, hheading,
    lines?_line (hskip _) (List.append_ne_nil_of_left_ne_nil hne _) (line?_define hne hbare v [])]
  rfl

/-- A definition of a project file is taken as it is written. -/
theorem Settings.ofText_projectText {name : String} (hne : name.toList ≠ [])
    (hbare : ∀ c ∈ name.toList, Toml.isBare c = true) (v : Int64) :
    ofText (projectText name v) = .ok { defines := [(name, v)] } := by
  have hclean : Toml.isClean (projectText name v).toList = true := by
    have hdigits : ∀ c ∈ (Text.decimal v.toInt).toList, Toml.isControl c = false :=
      Text.forall_mem_decimal (by decide) (by decide) v
    have hheading (rest : List Char) :
        Toml.isClean ("[defines]\n".toList ++ rest) = Toml.isClean rest :=
      have hplain : "[defines]".toList.any Toml.isControl = false := by decide
      Toml.isClean_append hplain ('\n' :: rest)
    have hequal (rest : List Char) : Toml.isClean (' ' :: '=' :: ' ' :: rest) = Toml.isClean rest :=
      have hplain : [' ', '=', ' '].any Toml.isControl = false := by decide
      Toml.isClean_append hplain rest
    rw [toList_projectText, hheading,
      Toml.isClean_append_of fun c hc => (Toml.of_isBare (hbare c hc)).1, hequal,
      Toml.isClean_append_of hdigits]
    rfl
  have hlines := Toml.lines?_projectText hne hbare v ((projectText name v).toList.length - 2)
  have hlen : (projectText name v).toList.length - 2 + 3 = (projectText name v).toList.length + 1 := by
    rw [toList_projectText, List.length_append]
    show 10 + _ - 2 + 3 = 10 + _ + 1
    omega
  rw [hlen] at hlines
  have hdoc : Toml.Document.ofText? (projectText name v) = some {
      top := [("defines", .table [(name, .scalar (.int v))])]
      keys := [["defines", name], ["defines"]]
      context := ["defines"] } := by
    rw [Toml.Document.ofText?, hclean, hlines]
    rfl
  have hset : ({} : Settings).setNode? "defines" (.table [(name, .scalar (.int v))]) =
      some { defines := [(name, v)] } := rfl
  have hused : [["defines"], ["defines", name]].find?
      (fun k => !(usedKeys ("defines", .table [(name, .scalar (.int v))])).contains k) = none := by
    have hkeys : usedKeys ("defines", .table [(name, .scalar (.int v))]) =
        [["defines"], ["defines", name]] := by
      have hname : Key.ofName? "defines" = some .defines := by decide
      simp [usedKeys, hname]
    refine List.find?_eq_none.mpr fun k hk => ?_
    rw [hkeys, List.contains_iff_mem.mpr hk]
    exact Bool.false_ne_true
  simp only [ofText, hdoc, List.foldl_cons, List.foldl_nil, Option.bind_some, hset, List.flatMap_cons,
    List.flatMap_nil, List.append_nil, List.reverse_cons, List.reverse_nil, List.nil_append,
    List.cons_append, hused]

/-! ## The same name in both -/

/-- The assignments tell the definitions. -/
theorem Command.defineLines_inj {s s' : Settings} :
    defineLines s = defineLines s' ↔ s.defines = s'.defines := by
  refine ⟨fun h => ?_, fun h => by rw [defineLines, defineLines, h]⟩
  refine List.map_injective_iff.mpr ?_ h
  rintro ⟨name, v⟩ ⟨name', v'⟩ heq
  injection heq with _ hassign
  injection hassign with hname hload
  injection hload with hload
  injection hload with _ hop
  injection hop with hvalue
  exact Prod.ext hname hvalue

/-- For a name in any spelling `m` of a project file and `d` of the command line: each line by
itself defines it, the file as `m` and the command line as the upper case of `m`.  So whatever
else the file and the command line hold, the definition comes to the same in either place, and
one on the command line replaces one in the file, exactly if `m` is in upper case. -/
theorem defines_interchangeable_iff {m d : String} (hm : m.toList ≠ [])
    (hbare : ∀ c ∈ m.toList, Toml.isBare c = true) (hd : d.toList ≠ [])
    (hword : ∀ c ∈ d.toList, Text.isWordChar c = true) (hspelling : Text.upper d = Text.upper m)
    (v w : Int64) :
    Settings.ofText (projectText m v) = .ok { defines := [(m, v)] } ∧
    (∀ a more, Arguments.read Flag.all a ("-D" :: defineText d w :: more) =
      Arguments.read Flag.all
        ({ a with settings := a.settings.define [(Text.upper m, w)] }.give .define) more) ∧
    (∀ {text text' : String} {s s' : Settings} {args args' rest rest' : List String} {a a' : Arguments}
      {err err' : Option FlagError},
      Settings.ofText text = .ok s → Settings.ofText text' = .ok s' →
      Arguments.read Flag.all {} args = (a, rest, err) →
      Arguments.read Flag.all {} args' = (a', rest', err') →
      s.defines.Perm ((m, v) :: s'.defines) →
      a'.settings.defines.Perm ((Text.upper m, v) :: a.settings.defines) →
      ((s.merge a).defines = (s'.merge a').defines ↔ Text.upper m = m) ∧
      (Command.defineLines (s.merge a) = Command.defineLines (s'.merge a') ↔ Text.upper m = m)) ∧
    (∀ {text : String} {s : Settings} {args rest : List String} {a : Arguments} {err : Option FlagError},
      Settings.ofText text = .ok s → Arguments.read Flag.all {} args = (a, rest, err) →
      (m, v) ∈ s.defines → (∀ e ∈ s.defines, Text.upper e.1 = Text.upper m → e.1 = m) →
      (Text.upper m, w) ∈ a.settings.defines →
      (((s.merge a).defines.filter fun e => Text.upper e.1 == Text.upper m) = [(Text.upper m, w)] ↔
        Text.upper m = m)) := by
  have hsound {args rest : List String} {a : Arguments} {err : Option FlagError}
      (hread : Arguments.read Flag.all {} args = (a, rest, err)) : a.Sound := by
    have h := Arguments.read_sound Flag.all Arguments.Sound.start args
    rwa [hread] at h
  have hdefine : Settings.readDefine (defineText d w) = .ok (Text.upper m, w) := by
    rw [Settings.readDefine_defineText hd hword, hspelling]
  refine ⟨Settings.ofText_projectText hm hbare v, Arguments.read_define hdefine, ?_, ?_⟩
  · intro text text' s s' args args' rest rest' a a' err err' hs hs' ha ha' hfile hcli
    have hmerge := Settings.merge_eq_iff (Settings.byName_ofText hs) (Settings.byName_ofText hs')
      (hsound ha) (hsound ha') hfile hcli
    exact ⟨hmerge, Command.defineLines_inj.trans hmerge⟩
  · intro text s args rest a err hs ha hfile honly hcli
    exact Settings.merge_filter_iff (Settings.byName_ofText hs) (hsound ha) hfile honly hcli

/-- With the name in upper case in the file, `-D foo` is the same and replaces it. -/
theorem defines_interchangeable_iff_foo :
    Settings.ofText (projectText "FOO" 1) = .ok { defines := [("FOO", 1)] } ∧
    (({ defines := [("FOO", 1)] } : Settings).merge {}).defines =
      (({} : Settings).merge (Arguments.read Flag.all {} ["-D", "foo=1"]).1).defines ∧
    ((({ defines := [("FOO", 1)] } : Settings).merge
      (Arguments.read Flag.all {} ["-D", "foo=2"]).1).defines.filter
        fun e => Text.upper e.1 == Text.upper "FOO") = [(Text.upper "FOO", 2)] := by
  have hlower : Text.upper "foo" = "FOO" := by decide +kernel
  have hupper : Text.upper "FOO" = "FOO" := by decide +kernel
  have hbare : "FOO".toList.all Toml.isBare = true := by decide
  have hword : "foo".toList.all Text.isWordChar = true := by decide +kernel
  have h := defines_interchangeable_iff (m := "FOO") (d := "foo") (by decide)
    (List.all_eq_true.mp hbare) (by decide) (List.all_eq_true.mp hword) (hlower.trans hupper.symm) 1 2
  obtain ⟨hfile, -, hsame, hboth⟩ := h
  have hempty : Settings.ofText "" = .ok {} := by rfl
  have hone : (Arguments.read Flag.all {} ["-D", "foo=1"]).1.settings.defines = [(Text.upper "FOO", 1)] := by
    rw [hupper]
    decide +kernel
  have htwo : (Text.upper "FOO", 2) ∈ (Arguments.read Flag.all {} ["-D", "foo=2"]).1.settings.defines := by
    rw [hupper]
    decide +kernel
  have hread (args : List String) : Arguments.read Flag.all {} args =
      ((Arguments.read Flag.all {} args).1, (Arguments.read Flag.all {} args).2) := rfl
  refine ⟨hfile, (hsame hfile hempty (hread []) (hread _) (.refl _) (.of_eq hone)).1.mpr hupper, ?_⟩
  exact (hboth hfile (hread _) List.mem_cons_self (by simp) htwo).mpr hupper

/-- A file that has `foo = 1`, with `-D foo=2`, has two definitions of one name. -/
theorem defines_lower_kept_apart :
    Settings.ofText "[defines]\nfoo = 1\n" = .ok { defines := [("foo", 1)] } ∧
    (Arguments.read Flag.all {} ["-D", "foo=2"]).1.settings.defines = [("FOO", 2)] ∧
    (({ defines := [("foo", 1)] } : Settings).merge
      (Arguments.read Flag.all {} ["-D", "foo=2"]).1).defines = [("FOO", 2), ("foo", 1)] := by
  have hfile : "[defines]\nfoo = 1\n" = projectText "foo" 1 := by decide +kernel
  have hbare : "foo".toList.all Toml.isBare = true := by decide
  refine ⟨?_, by decide +kernel, by decide +kernel⟩
  rw [hfile]
  exact Settings.ofText_projectText (by decide) (List.all_eq_true.mp hbare) 1

end Mos6510
