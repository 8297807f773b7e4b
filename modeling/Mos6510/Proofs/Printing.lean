import Mos6510.Token.Lexer
import Mos6510.Proofs.Encoding
import Mos6510.Proofs.Folding
import Mos6510.Proofs.Names

/-!
# Tokens read back from their print

`Lexeme.print` writes a lexeme in its canonical form.  A list of canonical
lexemes, printed with one blank between neighbours, reads back as that list
(`scan_printAll`), so no lexeme runs into the next one: a sign is not lengthened,
a lead is not taken for a number, no name for the mark of a string.

* `step_nameStart`, `step_decimal`: what a letter and a digit start;
* `stringBody_escape`: an escaped text closes where it was closed;
* `readInteger_decimal`: decimal digits give their number back;
* `reads`: the text of a lexeme before a blank makes that lexeme.
-/

namespace Mos6510

open Text (Glyph)

namespace Lexeme

/-- A word in upper case, as names are kept. -/
def IsUpperWord (name : String) : Prop :=
  name.toList ≠ [] ∧ ∀ c ∈ name.toList, Text.isWordChar c = true ∧ Text.upperChar c = c

-- the characters of the word are gone through, not all characters
instance (name : String) : Decidable (IsUpperWord name) :=
  @instDecidableAnd _ _ inferInstance (List.decidableBAll _ name.toList)

/-- A name that a source text may use: a word that starts with a letter or
with a single underscore. -/
def IsName (name : String) : Prop :=
  IsUpperWord name ∧
    (∀ c ∈ name.toList.head?, c = '_' ∨ Text.isLetter c = true) ∧ ¬['_', '_'] <+: name.toList

instance (name : String) : Decidable (IsName name) :=
  @instDecidableAnd _ _ inferInstance
    (@instDecidableAnd _ _ (Option.decidableForallMem name.toList.head?) inferInstance)

/-- The byte of a character in memory: its ASCII code, or a question mark. -/
def asciiByte (c : Char) : UInt8 := if c.toNat < 128 then c.toNat.toUInt8 else '?'.toNat.toUInt8

/-- A lexeme as the reader makes it of its print. -/
def IsCanonical : Lexeme → Prop
  | endOfFile => False
  | directive name => IsUpperWord name
  | word name => IsName name ∧ Mnemonic.ofName? name = none
  | label name => IsName name
  | string text bytes => bytes = text.toList.map asciiByte
  | number text value => 0 ≤ value ∧ text = Text.decimal value.toInt
  | _ => True

instance (l : Lexeme) : Decidable l.IsCanonical := by
  cases l <;> unfold IsCanonical <;> infer_instance

/-- A character inside a string. -/
def escape : Char → List Char
  | '\\' => ['\\', '\\']
  | '"' => ['\\', '"']
  | '\r' => ['\\', 'r']
  | '\n' => ['\\', 'n']
  | '\t' => ['\\', 't']
  | c => [c]

/-- A lexeme as it is written. -/
def print : Lexeme → String
  | directive name => "." ++ name
  | label name => name ++ ":"
  | string text _ => String.ofList ('"' :: (text.toList.flatMap escape ++ ['"']))
  | l => l.text

/-- Lexemes with a blank between neighbours. -/
def printAll (ls : List Lexeme) : String := " ".intercalate (ls.map print)

end Lexeme

namespace Lexer

/-- The text ends here, or a blank stands here. -/
def Spaced (rest : List Glyph) : Prop := rest = [] ∨ ∃ more, rest = .char ' ' :: more

theorem Spaced.takeWhile {rest : List Glyph} (h : Spaced rest) {p : Glyph → Bool}
    (hp : p (.char ' ') = false) : rest.takeWhile p = [] := by
  obtain rfl | ⟨more, rfl⟩ := h
  · rfl
  · rw [List.takeWhile_cons, hp]
    rfl

/-- The text makes the lexeme, whatever follows a blank after it. -/
def Reads (defines : List (String × Int64)) (l : Lexeme) : Prop :=
  ∀ rest, Spaced rest → ∃ g gs, Glyph.ofString l.print = g :: gs ∧
    step defines 1 g (gs ++ rest) = .emit ⟨l, 1⟩ (gs.length + 1) 1

variable {defines : List (String × Int64)}

/-- A character of a class is none outside of it. -/
theorem is_eq_false {p : Glyph → Bool} {c d : Char} (hc : p (.char c) = true)
    (hd : p (.char d) = false) : (Glyph.char c).is d = false := by
  rw [Glyph.is, beq_eq_false_iff_ne]
  rintro heq
  cases heq
  rw [hc] at hd
  cases hd

/-! ## Names -/

theorem sign?_nameStart {c : Char} (hc : isNameStart (.char c) = true) (rest : List Glyph) :
    sign? (.char c :: rest) = none := by
  have hsign : ∀ s : Sign, ∃ d ds, s.chars = d :: ds ∧ isNameStart (.char d) = false := by
    intro s
    cases s <;> exact ⟨_, _, rfl, by decide⟩
  refine List.find?_eq_none.mpr fun s _ => ?_
  obtain ⟨d, ds, hchars, hd⟩ := hsign s
  have hne := is_eq_false hc hd
  rw [Glyph.is, beq_eq_false_iff_ne] at hne
  simp [hchars, List.isPrefixOf, Ne.symm hne]

theorem isDecimal_nameStart {c : Char} (hc : isNameStart (.char c) = true) :
    isDecimal (.char c) = false := by
  have hdigit : ∀ n < 58, 48 ≤ n → isNameStart (.char (Char.ofNat n)) = false := by decide
  by_contra hdecimal
  rw [Bool.not_eq_false, isDecimal, Glyph.toChar, Text.digitIn?, Text.digitValue?] at hdecimal
  have hrange : 48 ≤ c.toNat ∧ c.toNat < 58 := by
    split_ifs at hdecimal with h09 haz hAZ
    · exact ⟨h09.1, Nat.lt_succ_of_le h09.2⟩
    · have hlow : 97 ≤ c.toNat := haz.1
      simp [show ¬c.toNat - 87 < 10 by omega] at hdecimal
    · have hlow : 65 ≤ c.toNat := hAZ.1
      simp [show ¬c.toNat - 55 < 10 by omega] at hdecimal
    · cases hdecimal
  have hnot := hdigit c.toNat hrange.2 hrange.1
  rw [Char.ofNat_toNat, hc] at hnot
  cases hnot

/-- A letter before no quote starts a name. -/
theorem step_nameStart {c : Char} (hc : isNameStart (.char c) = true) (line : Nat)
    {rest : List Glyph} (hrest : rest.head? ≠ some (.char '"')) :
    step defines line (.char c) rest = name line (.char c :: rest) := by
  have hquote : (rest.head? == some (.char '"')) = false := beq_eq_false_iff_ne.mpr hrest
  simp (disch := decide) only [step, isSpace, is_eq_false hc, isDecimal_nameStart hc, signOrName,
    sign?_nameStart hc, hquote, hc, Bool.or_false, Bool.false_and, Bool.false_eq_true, if_false,
    if_true]

/-- A word reaches up to a glyph that is none of a name. -/
theorem word_append {name : String} (h : Lexeme.IsUpperWord name) {rest : List Glyph}
    (hrest : rest.takeWhile isWordGlyph = []) :
    word (name.toList.map .char ++ rest) = name.toList.map .char := by
  have hall : ∀ g ∈ name.toList.map Glyph.char, isWordGlyph g = true := by
    intro g hg
    obtain ⟨c, hc, rfl⟩ := List.mem_map.mp hg
    exact (h.2 c hc).1
  rw [word, List.takeWhile_append_of_pos hall, hrest, List.append_nil]

theorem nameOf_map {name : String} (h : Lexeme.IsUpperWord name) :
    nameOf (name.toList.map .char) = name := by
  have hchars : (name.toList.map Glyph.char).map Glyph.toChar = name.toList := by
    rw [List.map_map]
    exact List.map_id name.toList
  have hupper : name.toList.map Text.upperChar = name.toList :=
    (List.map_congr_left fun c hc => (h.2 c hc).2).trans (List.map_id _)
  rw [nameOf, Glyph.toText, hchars, String.ofList_toList, Text.upper, ← String.toList_inj,
    String.toList_map, hupper]

theorem step_dot (line : Nat) (rest : List Glyph) :
    step defines line (.char '.') rest = directive line rest := by
  simp [step, isSpace, Glyph.is]

theorem reads_directive {name : String} (h : Lexeme.IsUpperWord name) :
    Reads defines (.directive name) := by
  intro rest hrest
  refine ⟨.char '.', name.toList.map .char, by simp [Glyph.ofString, Lexeme.print], ?_⟩
  obtain ⟨c, cs, hname⟩ := List.exists_cons_of_ne_nil h.1
  have hword := word_append h (hrest.takeWhile (p := isWordGlyph) rfl)
  rw [step_dot, directive, hword, hname]
  simp only [List.map_cons]
  rw [← List.map_cons, ← hname, nameOf_map h, Nat.add_comm]

/-- The glyph after a name tells a label, and the table of mnemonics tells
the rest. -/
theorem name_append {name : String} (h : Lexeme.IsName name) (line : Nat) {rest : List Glyph}
    (hrest : rest.takeWhile isWordGlyph = []) :
    Lexer.name line (name.toList.map .char ++ rest) =
      if rest.head? == some (.char ':') then .emit ⟨.label name, line⟩ (name.toList.length + 1) line
      else match Mnemonic.ofName? name with
        | some m => .emit ⟨.mnemonic m, line⟩ name.toList.length line
        | none => .emit ⟨.word name, line⟩ name.toList.length line := by
  obtain ⟨hword, _, hplain⟩ := h
  have hreserved : ¬['_', '_'].isPrefixOf name.toList = true := by
    rwa [List.isPrefixOf_iff_prefix]
  have hafter : (name.toList.map Glyph.char ++ rest).drop name.toList.length = rest :=
    List.drop_left' (List.length_map _)
  rw [Lexer.name]
  cases hm : Mnemonic.ofName? name <;>
    simp only [word_append hword hrest, nameOf_map hword, if_neg hreserved, List.length_map, hafter, hm]

/-- A name starts with a letter or an underscore, and no quote follows it. -/
theorem step_name {name : String} (h : Lexeme.IsName name) (rest : List Glyph)
    (hquote : rest.head? ≠ some (.char '"')) :
    ∃ g gs, Glyph.ofString name = g :: gs ∧
      step defines 1 g (gs ++ rest) = Lexer.name 1 (name.toList.map .char ++ rest) := by
  obtain ⟨hword, hstart, _⟩ := h
  obtain ⟨c, cs, hname⟩ := List.exists_cons_of_ne_nil hword.1
  have hc : isNameStart (.char c) = true := by
    rw [hname] at hstart
    rcases hstart c rfl with rfl | hletter
    · rfl
    · rw [isNameStart, Glyph.toChar, hletter, Bool.or_true]
  have hnext : (cs.map Glyph.char ++ rest).head? ≠ some (.char '"') := by
    cases cs with
    | nil => exact hquote
    | cons d ds =>
        intro heq
        have hd := (hword.2 d (by rw [hname]; simp)).1
        cases heq
        exact absurd hd (by decide)
  refine ⟨.char c, cs.map .char, by rw [Glyph.ofString, hname, List.map_cons], ?_⟩
  rw [step_nameStart hc 1 hnext, hname, List.map_cons, List.cons_append]

theorem Spaced.head?_ne {rest : List Glyph} (h : Spaced rest) {g : Glyph} (hg : g ≠ .char ' ') :
    rest.head? ≠ some g := by
  obtain rfl | ⟨more, rfl⟩ := h
  · exact fun heq => by cases heq
  · exact fun heq => hg (Option.some.inj heq).symm

theorem length_of_ofString {s : String} {g : Glyph} {gs : List Glyph}
    (h : Glyph.ofString s = g :: gs) : gs.length + 1 = s.toList.length := by
  have hlength := congrArg List.length h
  rw [Glyph.ofString, List.length_map, List.length_cons] at hlength
  exact hlength.symm

theorem reads_word {name : String} (h : Lexeme.IsName name) (hm : Mnemonic.ofName? name = none) :
    Reads defines (.word name) := by
  intro rest hrest
  obtain ⟨g, gs, hglyphs, hstep⟩ :=
    step_name h rest (hrest.head?_ne (g := .char '"') (by decide))
  have hcolon : ¬(rest.head? == some (.char ':')) = true := by
    rw [beq_iff_eq]
    exact hrest.head?_ne (by decide)
  refine ⟨g, gs, hglyphs, ?_⟩
  rw [hstep, name_append h 1 (hrest.takeWhile rfl), if_neg hcolon, hm, length_of_ofString hglyphs]

theorem reads_mnemonic (m : Mnemonic) : Reads defines (.mnemonic m) := by
  have h : Lexeme.IsName m.name := by cases m <;> decide +kernel
  intro rest hrest
  obtain ⟨g, gs, hglyphs, hstep⟩ :=
    step_name h rest (hrest.head?_ne (g := .char '"') (by decide))
  have hcolon : ¬(rest.head? == some (.char ':')) = true := by
    rw [beq_iff_eq]
    exact hrest.head?_ne (by decide)
  refine ⟨g, gs, hglyphs, ?_⟩
  rw [hstep, name_append h 1 (hrest.takeWhile rfl), if_neg hcolon, Mnemonic.ofName?_name,
    length_of_ofString hglyphs]

theorem reads_label {name : String} (h : Lexeme.IsName name) : Reads defines (.label name) := by
  intro rest hrest
  obtain ⟨g, gs, hglyphs, hstep⟩ :=
    step_name h (.char ':' :: rest) (fun heq => by cases heq)
  have hprint : Glyph.ofString (Lexeme.label name).print = g :: (gs ++ [.char ':']) := by
    rw [Lexeme.print, Glyph.ofString, String.toList_append, List.map_append]
    exact congrArg (· ++ [Glyph.char ':']) hglyphs
  refine ⟨g, gs ++ [.char ':'], hprint, ?_⟩
  rw [List.append_assoc]
  show step defines 1 g (gs ++ .char ':' :: rest) = _
  rw [hstep, name_append h 1 rfl, List.length_append, List.length_singleton,
    length_of_ofString hglyphs]
  rfl

/-! ## Numbers -/

def IsDigits (ds : List Char) : Prop := ∀ c ∈ ds, ∃ d < 10, c = Text.upperDigit d

theorem digitIn?_upperDigit {d : Nat} (h : d < 10) :
    Text.digitIn? 10 (Text.upperDigit d) = some d := by
  have hall : ∀ d < 10, Text.digitIn? 10 (Text.upperDigit d) = some d := by decide
  exact hall d h

theorem le_decimalValue (n : Nat) (ds : List Char) : n ≤ Text.decimalValue n ds := by
  induction ds generalizing n with
  | nil => exact Nat.le_refl n
  | cons c ds ih => exact Nat.le_trans (by omega) (ih (10 * n + (c.toNat - 48)))

theorem readDigits_decimal {ds : List Char} (hds : IsDigits ds) (n : Nat)
    (hlt : Text.decimalValue n ds < UInt64.size) :
    Text.readDigits 10 false n ds = .ok (Text.decimalValue n ds) := by
  induction ds generalizing n with
  | nil => rfl
  | cons c ds ih =>
      obtain ⟨d, hd, rfl⟩ := hds c List.mem_cons_self
      have hvalue : Text.decimalValue n (Text.upperDigit d :: ds) =
          Text.decimalValue (n * 10 + d) ds := by
        show Text.decimalValue (10 * n + ((Text.upperDigit d).toNat - 48)) ds = _
        rw [Text.toNat_upperDigit hd, Nat.mul_comm]
      rw [hvalue] at hlt ⊢
      have hstep := Nat.lt_of_le_of_lt (le_decimalValue (n * 10 + d) ds) hlt
      rw [Text.readDigits, digitIn?_upperDigit hd]
      simp only [Bool.false_and, Bool.false_eq_true, if_false, if_pos hstep]
      exact ih (fun c hc => hds c (List.mem_cons_of_mem _ hc)) (n * 10 + d) hlt

theorem isDigits_decimal (n : Nat) : IsDigits (Text.decimal n).toList :=
  fun _ hc => Text.mem_decimal hc

/-- Decimal digits give their number back. -/
theorem readInteger_decimal {n : Nat} (h : n < 2 ^ 63) :
    Text.readInteger (some 10) (Text.decimal n).toList = .ok (Int64.ofNat n) := by
  have hdigits := isDigits_decimal n
  obtain ⟨c, cs, hcons⟩ := List.exists_cons_of_ne_nil (Text.decimal_ne_nil n)
  have hvalue : Text.decimalValue 0 (Text.decimal n).toList = n := by
    rw [Text.toList_decimal, Text.decimalValue_digits]
  have hdigitsRead : Text.readDigits 10 false 0 (Text.decimal n).toList = .ok n := by
    rw [readDigits_decimal hdigits 0 (by rw [hvalue]; exact Nat.lt_trans h (by decide)), hvalue]
  obtain ⟨d, hd, hc⟩ := hdigits c (by rw [hcons]; exact List.mem_cons_self)
  have hsigns : ∀ d < 10, Text.upperDigit d ≠ '-' ∧ Text.upperDigit d ≠ '+' := by decide
  have hread : Text.readInteger (some 10) (c :: cs) =
      Text.readNatural (some 10) (c :: cs) >>= Text.signed false := by
    rw [Text.readInteger]
    · rintro rest heq
      exact (hsigns d hd).1 (hc.symm.trans (List.cons.inj heq).1)
    · rintro rest heq
      exact (hsigns d hd).2 (hc.symm.trans (List.cons.inj heq).1)
  rw [hcons] at hdigitsRead ⊢
  rw [hread]
  show Text.readDigits 10 false 0 (c :: cs) >>= Text.signed false = _
  rw [hdigitsRead]
  exact if_pos h

theorem numberLead_decimal {gs : List Glyph} (h : gs.head? ≠ some (.char '$'))
    (hnext : ∀ g ∈ gs[1]?, ∀ c ∈ ['x', 'X', 'o', 'O', 'b', 'B'], g ≠ .char c) :
    numberLead gs = (10, 0) := by
  unfold numberLead
  split
  · exact absurd rfl h
  all_goals first | rfl | exact absurd rfl (hnext _ rfl _ (by decide))

/-- A digit starts a number. -/
theorem step_decimal {c : Char} (hc : isDecimal (.char c) = true) (line : Nat)
    (rest : List Glyph) :
    step defines line (.char c) rest = number line (.char c :: rest) := by
  simp (disch := decide) only [step, isSpace, is_eq_false hc, hc, Bool.or_false, Bool.or_true,
    Bool.false_and, Bool.false_eq_true, if_false, if_true]

theorem digitsOf_append {ds : List Char} (hds : IsDigits ds) {rest : List Glyph}
    (hrest : Spaced rest) : digitsOf 10 (ds.map .char ++ rest) = ds := by
  have hall : ∀ g ∈ ds.map Glyph.char, (Text.digitIn? 10 g.toChar).isSome = true := by
    intro g hg
    obtain ⟨c, hc, rfl⟩ := List.mem_map.mp hg
    obtain ⟨d, hd, rfl⟩ := hds c hc
    rw [Glyph.toChar, digitIn?_upperDigit hd]
    rfl
  rw [digitsOf, List.takeWhile_append_of_pos hall, hrest.takeWhile rfl, List.append_nil,
    List.map_map]
  exact List.map_id ds

/-- No lead stands before decimal digits: after a zero there is a digit, a
blank or nothing. -/
theorem numberLead_append {d : Nat} (h : d < 10) {cs : List Char} (hcs : IsDigits cs)
    {rest : List Glyph} (hrest : Spaced rest) :
    numberLead (.char (Text.upperDigit d) :: (cs.map .char ++ rest)) = (10, 0) := by
  have hleads : ∀ d < 10, '$' ≠ Text.upperDigit d ∧
      Text.upperDigit d ∉ ['x', 'X', 'o', 'O', 'b', 'B'] := by decide
  refine numberLead_decimal (fun heq => ?_) (fun g hg c hc heq => ?_)
  · exact (hleads d h).1 (Glyph.char.inj (Option.some.inj heq)).symm
  subst heq
  cases cs with
  | nil =>
      obtain rfl | ⟨more, rfl⟩ := hrest
      · cases hg
      · cases hg
        exact absurd hc (by decide)
  | cons c' cs =>
      cases hg
      obtain ⟨e, he, rfl⟩ := hcs _ List.mem_cons_self
      exact (hleads e he).2 hc

theorem reads_number {n : Nat} (h : n < 2 ^ 63) :
    Reads defines (.number (Text.decimal n) (Int64.ofNat n)) := by
  intro rest hrest
  have hdigits := isDigits_decimal n
  obtain ⟨c, cs, hcons⟩ := List.exists_cons_of_ne_nil (Text.decimal_ne_nil n)
  rw [hcons] at hdigits
  obtain ⟨d, hd, rfl⟩ := hdigits c List.mem_cons_self
  have htext : String.ofList (Text.upperDigit d :: cs) = Text.decimal n := by
    rw [← hcons, String.ofList_toList]
  have hread := readInteger_decimal h
  rw [hcons] at hread
  have hlead := numberLead_append hd (fun c hc => hdigits c (List.mem_cons_of_mem _ hc)) hrest
  have hspan := digitsOf_append hdigits hrest
  rw [List.map_cons, List.cons_append] at hspan
  refine ⟨.char (Text.upperDigit d), cs.map .char, ?_, ?_⟩
  · show (Text.decimal n).toList.map Glyph.char = _
    rw [hcons, List.map_cons]
  · have hdecimal : isDecimal (.char (Text.upperDigit d)) = true := by
      rw [isDecimal, Glyph.toChar, digitIn?_upperDigit hd]
      rfl
    rw [step_decimal hdecimal, number]
    simp only [hlead, List.drop_zero, hspan, hread, htext, List.length_cons, List.length_map,
      Nat.zero_add]

/-! ## Strings -/

/-- An escaped character gives itself back, on the same line. -/
theorem stringBody_escape (line : Nat) (c : Char) (rest : List Glyph) :
    stringBody line ((Lexeme.escape c).map .char ++ rest) =
      (stringBody line rest).cons c (Lexeme.escape c).length := by
  unfold Lexeme.escape
  split
  · rfl
  · rfl
  · rfl
  · rfl
  · rfl
  · rename_i hslash hquote _ hbreak _
    have hplain : (Glyph.char c).is '\\' = false := by
      rw [Glyph.is, beq_eq_false_iff_ne]
      exact fun heq => hslash (Glyph.char.inj heq)
    have hline : (Glyph.char c).is '\n' = false := by
      rw [Glyph.is, beq_eq_false_iff_ne]
      exact fun heq => hbreak (Glyph.char.inj heq)
    show stringBody line (.char c :: rest) = _
    rw [stringBody, if_neg (by simp [hplain]), lineAfter, hline]
    · rfl
    · exact fun heq => hquote (Glyph.char.inj heq)
    · exact fun e rest heq _ => hslash (Glyph.char.inj heq)

theorem stringBody_escapeAll (line : Nat) (cs : List Char) (rest : List Glyph) :
    stringBody line ((cs.flatMap Lexeme.escape).map .char ++ .char '"' :: rest) =
      .ok (cs, (cs.flatMap Lexeme.escape).length + 1, line) := by
  induction cs with
  | nil => rfl
  | cons c cs ih =>
      rw [List.flatMap_cons, List.map_append, List.append_assoc, stringBody_escape, ih, Body.cons,
        List.length_append]
      congr 3
      omega

theorem step_quote (line : Nat) (rest : List Glyph) :
    step defines line (.char '"') rest = string false 1 line rest := by
  simp [step, isSpace, Glyph.is]

theorem reads_string (text : String) :
    Reads defines (.string text (text.toList.map Lexeme.asciiByte)) := by
  intro rest hrest
  refine ⟨.char '"', (text.toList.flatMap Lexeme.escape).map .char ++ [.char '"'], ?_, ?_⟩
  · simp [Lexeme.print, Glyph.ofString]
  · have hbody := stringBody_escapeAll 1 text.toList rest
    rw [List.append_assoc, step_quote, string, List.singleton_append, hbody]
    simp only [String.ofList_toList, List.length_append, List.length_map, List.length_singleton,
      Nat.add_comm 1]
    rfl

/-! ## Signs -/

theorem reads_operator (s : Sign) : Reads defines (.operator s) := by
  rintro rest (rfl | ⟨more, rfl⟩) <;> cases s <;> exact ⟨_, _, rfl, rfl⟩

/-- The print of a lexeme before a blank makes that lexeme. -/
theorem reads {l : Lexeme} (h : l.IsCanonical) : Reads defines l := by
  cases l with
  | endOfFile => exact h.elim
  | directive name => exact reads_directive h
  | word name => exact reads_word h.1 h.2
  | mnemonic m => exact reads_mnemonic m
  | label name => exact reads_label h
  | string text bytes =>
      obtain rfl := h
      exact reads_string text
  | number text value =>
      obtain ⟨hle, rfl⟩ := h
      rw [Int64.le_iff_toInt_le] at hle
      have hcode : value.toInt = (value.toInt.toNat : Int) := (Int.toNat_of_nonneg hle).symm
      have hvalue : Int64.ofNat value.toInt.toNat = value := by
        rw [← Int64.ofInt_eq_ofNat, ← hcode, Int64.ofInt_toInt]
      have hlt : value.toInt.toNat < 2 ^ 63 := by
        have hmax := value.toInt_lt
        omega
      have hread : Reads defines _ := reads_number hlt
      rwa [hvalue, ← hcode] at hread
  | operator s => exact reads_operator s
  | assign => rintro rest (rfl | ⟨more, rfl⟩) <;> exact ⟨_, _, rfl, rfl⟩
  | pc | immediate | openParen | closeParen | comma => exact fun rest _ => ⟨_, _, rfl, rfl⟩

/-! ## Whole texts -/

theorem scanFrom_reads {l : Lexeme} (h : Reads defines l) (done : List Token) {rest : List Glyph}
    (hrest : Spaced rest) :
    scanFrom defines 1 done (Glyph.ofString l.print ++ rest) =
      scanFrom defines 1 (⟨l, 1⟩ :: done) rest := by
  obtain ⟨g, gs, hglyphs, hstep⟩ := h rest hrest
  rw [hglyphs, List.cons_append, scanFrom_emit hstep, List.drop_succ_cons, List.drop_left]

/-- A blank is passed over. -/
theorem scanFrom_blank (line : Nat) (done : List Token) (rest : List Glyph) :
    scanFrom defines line done (.char ' ' :: rest) = scanFrom defines line done rest := by
  have hstep : step defines line (.char ' ') rest = .skip 1 line := rfl
  exact scanFrom_skip hstep

/-- The blank before the next lexeme is passed over. -/
theorem printAll_cons (l : Lexeme) (ls : List Lexeme) : ∃ rest, Spaced rest ∧
    Glyph.ofString (Lexeme.printAll (l :: ls)) = Glyph.ofString l.print ++ rest ∧
    ∀ done, scanFrom defines 1 done rest =
      scanFrom defines 1 done (Glyph.ofString (Lexeme.printAll ls)) := by
  cases ls with
  | nil => exact ⟨[], .inl rfl, by simp [Lexeme.printAll], fun _ => rfl⟩
  | cons l' ls =>
      refine ⟨.char ' ' :: Glyph.ofString (Lexeme.printAll (l' :: ls)), .inr ⟨_, rfl⟩, ?_,
        fun done => scanFrom_blank 1 done _⟩
      simp [Lexeme.printAll, Glyph.ofString, String.intercalate_cons_cons]

theorem scanFrom_printAll {ls : List Lexeme} (h : ∀ l ∈ ls, l.IsCanonical) (done : List Token) :
    scanFrom defines 1 done (Glyph.ofString (Lexeme.printAll ls)) =
      ⟨done.reverse ++ ls.map (⟨·, 1⟩) ++ [⟨.endOfFile, 1⟩], 1, none⟩ := by
  induction ls generalizing done with
  | nil =>
      show scanFrom defines 1 done [] = _
      simp [scanFrom_nil]
  | cons l ls ih =>
      obtain ⟨rest, hrest, hglyphs, hblank⟩ := @printAll_cons defines l ls
      rw [hglyphs, scanFrom_reads (reads (h l List.mem_cons_self)) done hrest, hblank,
        ih fun l hl => h l (List.mem_cons_of_mem _ hl)]
      simp

/-- Canonical lexemes, printed with blanks between them, read back from the
bytes of the print, all on the first line. -/
theorem scan_printAll {ls : List Lexeme} (h : ∀ l ∈ ls, l.IsCanonical) :
    scan defines (Glyph.ofBytes (Lexeme.printAll ls).toUTF8.toList) =
      ⟨ls.map (⟨·, 1⟩) ++ [⟨.endOfFile, 1⟩], 1, none⟩ := by
  rw [Glyph.ofBytes_toUTF8, scan, scanFrom_printAll h]
  rfl

/-- Signs, a zero before a name and a letter before a string stay apart. -/
def mixedLexemes : List Lexeme :=
  [.label "START", .mnemonic .lda, .immediate, .operator .less, .word "A",
    .string "é\"\n" [63, 34, 10], .assign, .operator .equal, .number "0" 0, .word "X",
    .number "9223372036854775807" 9223372036854775807, .directive "DB", .pc]

theorem scan_printAll_mixed :
    (∀ l ∈ mixedLexemes, l.IsCanonical) ∧
      scan [] (Glyph.ofBytes (Lexeme.printAll mixedLexemes).toUTF8.toList) =
        ⟨mixedLexemes.map (⟨·, 1⟩) ++ [⟨.endOfFile, 1⟩], 1, none⟩ := by
  have hcanonical : ∀ l ∈ mixedLexemes, l.IsCanonical := by decide +kernel
  exact ⟨hcanonical, scan_printAll hcanonical⟩

end Lexer

end Mos6510
