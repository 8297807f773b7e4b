import Mos6510.Error
import Mos6510.Script.Run
import Mos6510.Text.Blank
import Mos6510.Text.Letter
import Mos6510.Text.Upper
import Mos6510.Text.Utf8
import Mos6510.Token

/-!
# Splitting source text into tokens

`scan` reads a whole source text.  At each place `step` looks at the text and
says which token starts there, how many glyphs it takes, and on which line the
text goes on.  Blanks and comments make no token.  A script `$( ... )` is run at
once and makes a number.

The text behind a step is what is left when the glyphs that it takes are
dropped, so reading ends because each step takes a glyph or more
(`step_advances`).
-/

namespace Mos6510

open Text (Glyph)

namespace Lexer

/-- What the text starts with.  Each says how many glyphs it takes, and on which
line the text goes on. -/
inductive Step where
  /-- Nothing of interest. -/
  | skip (taken line : Nat)
  /-- A token. -/
  | emit (token : Token) (taken line : Nat)
  /-- Something wrong, found on a line. -/
  | fail (err : Error) (line : Nat)
  deriving Inhabited

/-- What a step takes of the text, on whichever line: a lexeme if it makes one, and
a number of glyphs. -/
def Step.takes? : Step → Option (Option Lexeme × Nat)
  | .skip taken _ => some (none, taken)
  | .emit token taken _ => some (some token.lexeme, taken)
  | .fail _ _ => none

/-- Can the glyph be part of a name? -/
def isWordGlyph (g : Glyph) : Bool := Text.isWordChar g.toChar

def isNameStart (g : Glyph) : Bool := g.is '_' || Text.isLetter g.toChar

/-- Blanks within a line. -/
def isSpace (g : Glyph) : Bool := g.is ' ' || g.is '\t' || g.is '\r'

def isDecimal (g : Glyph) : Bool := (Text.digitIn? 10 g.toChar).isSome

/-- The glyphs of a name at the start of the text. -/
def word (gs : List Glyph) : List Glyph := gs.takeWhile isWordGlyph

def nameOf (gs : List Glyph) : String := Text.upper (Glyph.toText gs)

/-- Glyphs up to the end of the line. -/
def comment (gs : List Glyph) : List Glyph := gs.takeWhile fun g => !g.is '\n'

/-! ## Numbers -/

/-- The base of a number, and how many glyphs say so. -/
def numberLead : List Glyph → Nat × Nat
  | .char '$' :: _ => (16, 1)
  | .char '0' :: .char 'x' :: _ => (16, 2)
  | .char '0' :: .char 'X' :: _ => (16, 2)
  | .char '0' :: .char 'o' :: _ => (8, 2)
  | .char '0' :: .char 'O' :: _ => (8, 2)
  | .char '0' :: .char 'b' :: _ => (2, 2)
  | .char '0' :: .char 'B' :: _ => (2, 2)
  | _ => (10, 0)

/-- The digits of a base at the start of the text. -/
def digitsOf (base : Nat) (gs : List Glyph) : List Char :=
  (gs.takeWhile fun g => (Text.digitIn? base g.toChar).isSome).map Glyph.toChar

/-- The number at the start of the text. -/
def number (line : Nat) (gs : List Glyph) : Step :=
  let (base, lead) := numberLead gs
  let digits := digitsOf base (gs.drop lead)
  match Text.readInteger (some base) digits with
  | .ok value =>
    .emit ⟨.number (String.ofList digits) value, line⟩ (lead + digits.length) line
  | .error _ => .fail (.badNumber (String.ofList digits)) line

/-! ## Strings -/

/-- The character that an escape stands for. -/
def escape? : Glyph → Option Char
  | .char 'r' => some '\r'
  | .char 'n' => some '\n'
  | .char 't' => some '\t'
  | .char '\\' => some '\\'
  | .char '"' => some '"'
  | _ => none

/-- The inside of a string or script: its characters, the number of glyphs
with the closing mark, and the line after it; or what is wrong, and on which
line. -/
abbrev Body := Except (Error × Nat) (List Char × Nat × Nat)

/-- Put a character, written with some glyphs, in front. -/
def Body.cons (c : Char) (glyphs : Nat) : Body → Body
  | .ok (cs, used, line) => .ok (c :: cs, used + glyphs, line)
  | .error e => .error e

def lineAfter (g : Glyph) (line : Nat) : Nat := if g.is '\n' then line + 1 else line

/-- The inside of a string.  It may go over several lines. -/
def stringBody : Nat → List Glyph → Body
  | line, [] => .error (.openString, line)
  | line, .char '"' :: _ => .ok ([], 1, line)
  | line, .char '\\' :: e :: rest =>
    match escape? e with
    | some c => (stringBody line rest).cons c 2
    | none => .error (.badEscape (Char.ofNat e.firstByte.toNat), line)
  | line, g :: rest =>
    if g.is '\\' then .error (.openString, line)
    else (stringBody (lineAfter g line) rest).cons g.toChar 1

/-- The byte of a character: its ASCII code, or a question mark.  A screen
code has six bits. -/
def charByte (screen : Bool) (c : Char) : UInt8 :=
  let b : UInt8 := if c.toNat < 128 then c.toNat.toUInt8 else 0x3F
  if screen then b &&& 0x3F else b

/-- The string whose opening quote stands before the text, as the last of its
`lead` glyphs before the text. -/
def string (screen : Bool) (lead line : Nat) (gs : List Glyph) : Step :=
  match stringBody line gs with
  | .error (err, line) => .fail err line
  | .ok (cs, used, line) =>
    .emit ⟨.string (String.ofList cs) (cs.map (charByte screen)), line⟩ (lead + used) line

/-! ## Scripts -/

/-- The inside of a script, up to the parenthesis that closes it, with a
number of parentheses open inside it. -/
def scriptBody : Nat → Nat → List Glyph → Body
  | _, line, [] => .error (.openScript, line)
  | 0, line, .char ')' :: _ => .ok ([], 1, line)
  | depth + 1, line, .char ')' :: rest => (scriptBody depth line rest).cons ')' 1
  | depth, line, .char '(' :: rest => (scriptBody (depth + 1) line rest).cons '(' 1
  | depth, line, g :: rest => (scriptBody depth (lineAfter g line) rest).cons g.toChar 1

def runScript (defines : List (String × Int64)) (text : String) : Except Error Int64 :=
  match Script.run defines text with
  | .failed => .error (.inScript text (.scriptFailed "invalid expression"))
  | .value v =>
    match v.bind Script.Value.number? with
    | some n => .ok n
    | none => .error (.inScript text .notInteger)

/-- The script whose opening `$(` stands before the text. -/
def script (defines : List (String × Int64)) (line : Nat) (gs : List Glyph) : Step :=
  match scriptBody 0 line gs with
  | .error (err, line) => .fail err line
  | .ok (cs, used, after) =>
    let text := Text.trim (String.ofList cs)
    match runScript defines text with
    | .ok value => .emit ⟨.number text value, line⟩ (2 + used) after
    | .error err => .fail err after

/-! ## Names and signs -/

/-- The directive whose dot stands before the text. -/
def directive (line : Nat) (gs : List Glyph) : Step :=
  match word gs with
  | [] => .fail .emptyDirective line
  | w => .emit ⟨.directive (nameOf w), line⟩ (1 + w.length) line

/-- The label, mnemonic or identifier at the start of the text. -/
def name (line : Nat) (gs : List Glyph) : Step :=
  let w := word gs
  let text := nameOf w
  if ['_', '_'].isPrefixOf text.toList then .fail (.reservedName text) line
  else if (gs.drop w.length).head? == some (.char ':') then
    .emit ⟨.label text, line⟩ (w.length + 1) line
  else
    match Mnemonic.ofName? text with
    | some m => .emit ⟨.mnemonic m, line⟩ w.length line
    | none => .emit ⟨.word text, line⟩ w.length line

/-- The longest sign at the start of the text. -/
def sign? (gs : List Glyph) : Option Sign :=
  Sign.all.find? fun s => (s.chars.map Glyph.char).isPrefixOf gs

/-- A token of a single glyph. -/
def lone (line : Nat) (l : Lexeme) : Step := .emit ⟨l, line⟩ 1 line

/-- The sign, name or string with a mark at the start of the text; nothing
else can start here. -/
def signOrName (line : Nat) (g : Glyph) (rest : List Glyph) : Step :=
  let quoted := rest.head? == some (.char '"')
  match sign? (g :: rest) with
  | some s => .emit ⟨.operator s, line⟩ s.chars.length line
  | none =>
    if quoted && (g.is 'a' || g.is 'A') then string false 2 line (rest.drop 1)
    else if quoted && (g.is 's' || g.is 'S') then string true 2 line (rest.drop 1)
    else if isNameStart g then name line (g :: rest)
    else .fail (.badCharacter g.toChar) line

def step (defines : List (String × Int64)) (line : Nat) (g : Glyph) (rest : List Glyph) : Step :=
  if g.is '\n' then .skip 1 (line + 1)
  else if isSpace g then .skip 1 line
  else if g.is ';' then .skip (comment (g :: rest)).length line
  else if g.is '.' then directive line rest
  else if g.is '@' then lone line .pc
  else if g.is '#' then lone line .immediate
  else if g.is '(' then lone line .openParen
  else if g.is ')' then lone line .closeParen
  else if g.is ',' then lone line .comma
  else if g.is '"' then string false 1 line rest
  else if g.is '$' && rest.head? == some (.char '(') then script defines line (rest.drop 1)
  else if g.is '$' || isDecimal g then number line (g :: rest)
  else if g.is '=' && rest.head? != some (.char '=') then lone line .assign
  else signOrName line g rest

/-! ## What a step can do -/

/-- The lexemes of a single glyph. -/
def lones : List Lexeme := [.pc, .immediate, .openParen, .closeParen, .comma, .assign]

/-- All that can start at a glyph and the text behind it, with the step there. -/
inductive Starts (defines : List (String × Int64)) (line : Nat) : Glyph → List Glyph → Step → Prop
  | newline (rest : List Glyph) : Starts defines line (.char '\n') rest (.skip 1 (line + 1))
  | space {g : Glyph} (rest : List Glyph) : isSpace g = true → Starts defines line g rest (.skip 1 line)
  | comment (rest : List Glyph) :
      Starts defines line (.char ';') rest (.skip (comment (.char ';' :: rest)).length line)
  | directive (rest : List Glyph) : Starts defines line (.char '.') rest (directive line rest)
  | lone {g : Glyph} {l : Lexeme} (rest : List Glyph) : l ∈ lones → g.is '\n' = false →
      Starts defines line g rest (lone line l)
  | string (rest : List Glyph) : Starts defines line (.char '"') rest (string false 1 line rest)
  | marked {g : Glyph} (screen : Bool) (rest : List Glyph) : g.is '\n' = false →
      Starts defines line g (.char '"' :: rest) (string screen 2 line rest)
  | script (rest : List Glyph) :
      Starts defines line (.char '$') (.char '(' :: rest) (script defines line rest)
  | number {g : Glyph} (rest : List Glyph) : g.is '\n' = false →
      Starts defines line g rest (number line (g :: rest))
  | sign {g : Glyph} {s : Sign} (rest : List Glyph) : sign? (g :: rest) = some s → g.is '\n' = false →
      Starts defines line g rest (.emit ⟨.operator s, line⟩ s.chars.length line)
  | name {g : Glyph} (rest : List Glyph) : isNameStart g = true → g.is '\n' = false →
      Starts defines line g rest (name line (g :: rest))
  | unknown (g : Glyph) (rest : List Glyph) :
      Starts defines line g rest (.fail (.badCharacter g.toChar) line)

variable {defines : List (String × Int64)} {line : Nat} {g : Glyph} {gs rest : List Glyph}

/-- A text whose first glyph is that one. -/
theorem eq_cons_of_head? (h : (rest.head? == some g) = true) : rest = g :: rest.drop 1 := by
  cases rest with
  | nil => cases h
  | cons g' rest => exact congrArg (· :: rest) (Option.some.inj (beq_iff_eq.mp h))

theorem signOrName_starts (hg : g.is '\n' = false) :
    Starts defines line g rest (signOrName line g rest) := by
  have hmarked : ∀ screen, (rest.head? == some (.char '"')) = true →
      Starts defines line g rest (string screen 2 line (rest.drop 1)) := by
    intro screen hquote
    obtain ⟨rest, rfl⟩ : ∃ rest', rest = .char '"' :: rest' := ⟨_, eq_cons_of_head? hquote⟩
    exact .marked screen rest hg
  unfold signOrName
  dsimp only
  split
  · rename_i s hsign
    exact .sign rest hsign hg
  split
  · rename_i hquoted
    exact hmarked false (Bool.and_eq_true_iff.mp hquoted).1
  split
  · rename_i hquoted
    exact hmarked true (Bool.and_eq_true_iff.mp hquoted).1
  split
  · rename_i hstart
    exact .name rest hstart hg
  · exact .unknown g rest

theorem Starts.ite {c : Prop} [Decidable c] {s t : Step} (hs : c → Starts defines line g rest s)
    (ht : ¬c → Starts defines line g rest t) : Starts defines line g rest (if c then s else t) := by
  split
  · exact hs ‹_›
  · exact ht ‹_›

/-- Every step is one of these. -/
theorem step_starts (defines : List (String × Int64)) (line : Nat) (g : Glyph) (rest : List Glyph) :
    Starts defines line g rest (step defines line g rest) := by
  unfold step
  refine .ite (fun h => ?_) fun hg => ?_
  · rw [show g = .char '\n' from beq_iff_eq.mp h]
    exact .newline rest
  rw [Bool.not_eq_true] at hg
  have hlone : ∀ l ∈ lones, Starts defines line g rest (lone line l) := fun l hl => .lone rest hl hg
  refine .ite (fun h => .space rest h) fun _ => ?_
  refine .ite (fun h => ?_) fun _ => ?_
  · rw [show g = .char ';' from beq_iff_eq.mp h]
    exact .comment rest
  refine .ite (fun h => ?_) fun _ => ?_
  · rw [show g = .char '.' from beq_iff_eq.mp h]
    exact .directive rest
  refine .ite (fun _ => hlone .pc (by decide)) fun _ => ?_
  refine .ite (fun _ => hlone .immediate (by decide)) fun _ => ?_
  refine .ite (fun _ => hlone .openParen (by decide)) fun _ => ?_
  refine .ite (fun _ => hlone .closeParen (by decide)) fun _ => ?_
  refine .ite (fun _ => hlone .comma (by decide)) fun _ => ?_
  refine .ite (fun h => ?_) fun _ => ?_
  · rw [show g = .char '"' from beq_iff_eq.mp h]
    exact .string rest
  refine .ite (fun h => ?_) fun _ => ?_
  · obtain ⟨hdollar, hopen⟩ := Bool.and_eq_true_iff.mp h
    obtain rfl : g = .char '$' := beq_iff_eq.mp hdollar
    obtain ⟨rest, rfl⟩ : ∃ rest', rest = .char '(' :: rest' := ⟨_, eq_cons_of_head? hopen⟩
    exact .script rest
  refine .ite (fun _ => .number rest hg) fun _ => ?_
  refine .ite (fun _ => hlone .assign (by decide)) fun _ => ?_
  exact signOrName_starts hg

/-! ## Steps advance -/

/-- The step takes a glyph or more, unless it fails. -/
def Step.Advances (s : Step) : Prop := ∀ ⦃l n⦄, s.takes? = some (l, n) → 0 < n

theorem Step.Advances.fail (err : Error) (line : Nat) : (Step.fail err line).Advances := nofun

theorem Step.Advances.skip {taken : Nat} (h : 0 < taken) (line : Nat) : (Step.skip taken line).Advances := by
  rintro l n ⟨⟩
  exact h

theorem Step.Advances.emit {taken : Nat} (h : 0 < taken) (token : Token) (line : Nat) :
    (Step.emit token taken line).Advances := by
  rintro l n ⟨⟩
  exact h

theorem comment_pos (hg : g.is '\n' = false) : 0 < (comment (g :: rest)).length := by
  rw [comment, List.takeWhile_cons_of_pos (by rw [hg]; rfl)]
  exact Nat.succ_pos _

theorem isWordGlyph_of_isNameStart (hg : isNameStart g = true) : isWordGlyph g = true := by
  rcases Bool.or_eq_true_iff.mp hg with h | h
  · rw [show g = .char '_' from beq_iff_eq.mp h]
    rfl
  · simp [isWordGlyph, Text.isWordChar, h]

theorem word_pos (hg : isNameStart g = true) : 0 < (word (g :: rest)).length := by
  rw [word, List.takeWhile_cons_of_pos (isWordGlyph_of_isNameStart hg)]
  exact Nat.succ_pos _

theorem directive_advances : (directive line gs).Advances := by
  unfold directive
  split
  · exact .fail _ _
  · exact .emit (Nat.add_pos_left Nat.one_pos _) _ _

theorem string_advances {screen : Bool} {lead : Nat} (hlead : 0 < lead) :
    (string screen lead line gs).Advances := by
  unfold string
  split
  · exact .fail _ _
  · exact .emit (Nat.add_pos_left hlead _) _ _

theorem script_advances : (script defines line gs).Advances := by
  unfold script
  split
  · exact .fail _ _
  dsimp only
  split
  · exact .emit (Nat.add_pos_left Nat.two_pos _) _ _
  · exact .fail _ _

/-- Without a digit there is no number, whatever the lead. -/
theorem number_advances : (number line gs).Advances := by
  unfold number
  dsimp only
  split
  · rename_i value hread
    refine .emit (Nat.add_pos_right _ (List.length_pos_iff.mpr ?_)) _ _
    intro hnone
    rw [hnone] at hread
    cases hread
  · exact .fail _ _

theorem name_advances (hg : isNameStart g = true) : (name line (g :: rest)).Advances := by
  unfold name
  dsimp only
  split
  · exact .fail _ _
  split
  · exact .emit (Nat.succ_pos _) _ _
  split
  · exact .emit (word_pos hg) _ _
  · exact .emit (word_pos hg) _ _

theorem sign_pos (s : Sign) : 0 < s.chars.length := by
  cases s <;> exact Nat.succ_pos _

/-- A step takes a glyph or more. -/
theorem step_advances (defines : List (String × Int64)) (line : Nat) (g : Glyph) (rest : List Glyph) :
    (step defines line g rest).Advances := by
  have hstarts := step_starts defines line g rest
  generalize step defines line g rest = s at hstarts ⊢
  cases hstarts with
  | newline => exact .skip Nat.one_pos _
  | space => exact .skip Nat.one_pos _
  | comment => exact .skip (comment_pos rfl) _
  | directive => exact directive_advances
  | lone => exact .emit Nat.one_pos _ _
  | string => exact string_advances Nat.one_pos
  | marked => exact string_advances Nat.two_pos
  | script => exact script_advances
  | number => exact number_advances
  | sign => exact .emit (sign_pos _) _ _
  | name _ hstart => exact name_advances hstart
  | unknown => exact .fail _ _

/-- The step at a glyph, which takes a glyph or more. -/
def stepAt (defines : List (String × Int64)) (line : Nat) (g : Glyph) (rest : List Glyph) :
    {s : Step // s.Advances} :=
  ⟨step defines line g rest, step_advances defines line g rest⟩

/-- What is left behind glyphs of the text is shorter. -/
theorem length_drop_lt {taken : Nat} (h : 0 < taken) :
    ((g :: rest).drop taken).length < (g :: rest).length := by
  rw [List.length_drop, List.length_cons]
  omega

end Lexer

/-- The outcome of reading a source text. -/
structure Scan where
  /-- The tokens, up to what is wrong if something is. -/
  tokens : List Token
  /-- The line where reading stopped. -/
  line : Nat
  error : Option Error
  deriving Inhabited

namespace Lexer

/-- Read text after the tokens read already, latest first. -/
def scanFrom (defines : List (String × Int64)) (line : Nat) (done : List Token) : List Glyph → Scan
  | [] => ⟨(⟨.endOfFile, line⟩ :: done).reverse, line, none⟩
  | g :: rest =>
    match stepAt defines line g rest with
    | ⟨.skip taken line, _⟩ => scanFrom defines line done ((g :: rest).drop taken)
    | ⟨.emit token taken line, _⟩ => scanFrom defines line (token :: done) ((g :: rest).drop taken)
    | ⟨.fail err line, _⟩ => ⟨done.reverse, line, some err⟩
termination_by gs => gs.length
decreasing_by
  · rename_i hadvances
    exact length_drop_lt (hadvances rfl)
  · rename_i hadvances
    exact length_drop_lt (hadvances rfl)

section

variable {line' taken : Nat} {done : List Token}

theorem scanFrom_nil : scanFrom defines line done [] =
    ⟨(⟨.endOfFile, line⟩ :: done).reverse, line, none⟩ := by
  rw [scanFrom]

theorem scanFrom_skip (h : step defines line g rest = .skip taken line') :
    scanFrom defines line done (g :: rest) = scanFrom defines line' done ((g :: rest).drop taken) := by
  rw [scanFrom]
  simp only [stepAt, h]

theorem scanFrom_emit {token : Token} (h : step defines line g rest = .emit token taken line') :
    scanFrom defines line done (g :: rest) =
      scanFrom defines line' (token :: done) ((g :: rest).drop taken) := by
  rw [scanFrom]
  simp only [stepAt, h]

theorem scanFrom_fail {err : Error} (h : step defines line g rest = .fail err line') :
    scanFrom defines line done (g :: rest) = ⟨done.reverse, line', some err⟩ := by
  rw [scanFrom]
  simp only [stepAt, h]

end

/-- Read a source text.  The tokens of a text without fault end with one end
of file. -/
def scan (defines : List (String × Int64)) (gs : List Glyph) : Scan :=
  scanFrom defines 1 [] gs

end Lexer

end Mos6510
