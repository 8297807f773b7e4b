import Mos6510.Double
import Mos6510.Text.Numeral
import Mos6510.Toml.Moment

/-!
# Words and strings of TOML

The lexical pieces of a TOML document.  Each reader takes its piece from the
front of the text and gives back the rest; there is none if the piece is
malformed.
-/

namespace Mos6510.Toml

/-- Blanks within a line. -/
def isGap (c : Char) : Bool := c == ' ' || c == '\t'

def skipGap (cs : List Char) : List Char := cs.dropWhile isGap

/-- Characters that may stand nowhere. -/
def isControl (c : Char) : Bool := (c.toNat < 32 && c != '\t') || c.toNat == 127

/-- The text after the end of a line. -/
def newline? : List Char → Option (List Char)
  | '\n' :: rest => some rest
  | '\r' :: '\n' :: rest => some rest
  | _ => none

/-- Is a text free of control characters other than tabs and ends of lines? -/
def isClean : List Char → Bool
  | [] => true
  | '\n' :: rest => isClean rest
  | '\r' :: '\n' :: rest => isClean rest
  | c :: rest => !isControl c && isClean rest

/-- The text after the end of a line, or nothing at the end of the text. -/
def lineEnd? : List Char → Option (List Char)
  | [] => some []
  | cs => newline? cs

/-- The text after a comment, whose mark has been read. -/
def afterComment? : List Char → Option (List Char)
  | [] => some []
  | c :: rest =>
    match newline? (c :: rest) with
    | some rest => some rest
    | none => if isControl c then none else afterComment? rest

/-- The text after the rest of a line that holds nothing, or a comment. -/
def restOfLine? (cs : List Char) : Option (List Char) :=
  match skipGap cs with
  | '#' :: rest => afterComment? rest
  | cs => lineEnd? cs

/-- Drop blanks, ends of lines and comments. -/
def skipBlank : Bool → List Char → List Char
  | _, [] => []
  | true, c :: rest => skipBlank (c != '\n') rest
  | false, c :: rest =>
    if isGap c || c == '\n' || c == '\r' then skipBlank false rest
    else if c == '#' then skipBlank true rest
    else c :: rest

/-! ## Strings -/

/-- The character of a code in hex. -/
def charOf? (digits : List Char) : Option Char :=
  match Text.readDigits 16 false 0 digits with
  | .ok n => if n < 0xD800 || (0xE000 ≤ n && n < 0x110000) then some (Char.ofNat n) else none
  | .error _ => none

/-- The character of an escape of one letter. -/
def escapeOf? : Char → Option Char
  | 'b' => some '\x08'
  | 't' => some '\t'
  | 'n' => some '\n'
  | 'f' => some '\x0c'
  | 'r' => some '\r'
  | '"' => some '"'
  | '\\' => some '\\'
  | _ => none

/-- Put a character in front of a string that was read. -/
def consTo (c : Char) : Option (List Char × List Char) → Option (List Char × List Char)
  | some (cs, rest) => some (c :: cs, rest)
  | none => none

/-- A string with escapes, after its opening quote. -/
def basic? : List Char → Option (List Char × List Char)
  | '"' :: rest => some ([], rest)
  | '\\' :: 'u' :: a :: b :: c :: d :: rest =>
    match charOf? [a, b, c, d] with
    | some x => consTo x (basic? rest)
    | none => none
  | '\\' :: 'U' :: a :: b :: c :: d :: e :: f :: g :: h :: rest =>
    match charOf? [a, b, c, d, e, f, g, h] with
    | some x => consTo x (basic? rest)
    | none => none
  | '\\' :: e :: rest =>
    match escapeOf? e with
    | some x => consTo x (basic? rest)
    | none => none
  | c :: rest => if isControl c || c == '\\' then none else consTo c (basic? rest)
  | [] => none

/-- A string without escapes, after its opening quote. -/
def literal? : List Char → Option (List Char × List Char)
  | '\'' :: rest => some ([], rest)
  | c :: rest => if isControl c then none else consTo c (literal? rest)
  | [] => none

/-- A string of several lines with escapes, after its opening quotes.  A
backslash at the end of a line takes the blanks after it away.  Two more
quotes may stand in front of the closing ones, and three behind a backslash. -/
def longBasic? : Bool → List Char → Option (List Char × List Char)
  | _, '\\' :: '\\' :: '"' :: '"' :: '"' :: '"' :: '"' :: '"' :: rest =>
    some (['\\', '"', '"', '"'], rest)
  -- up to two quotes in front of the closing ones belong to the string
  | _, '"' :: '"' :: '"' :: '"' :: '"' :: rest => some (['"', '"'], rest)
  | _, '"' :: '"' :: '"' :: '"' :: rest => some (['"'], rest)
  | _, '"' :: '"' :: '"' :: rest => some ([], rest)
  | _, '\\' :: 'u' :: a :: b :: c :: d :: rest =>
    match charOf? [a, b, c, d] with
    | some x => consTo x (longBasic? false rest)
    | none => none
  | _, '\\' :: 'U' :: a :: b :: c :: d :: e :: f :: g :: h :: rest =>
    match charOf? [a, b, c, d, e, f, g, h] with
    | some x => consTo x (longBasic? false rest)
    | none => none
  | _, '\\' :: e :: rest =>
    match escapeOf? e with
    | some x => consTo x (longBasic? false rest)
    | none => if (newline? (skipGap (e :: rest))).isSome then longBasic? true rest else none
  | skipping, c :: rest =>
    if skipping && (isGap c || c == '\n' || c == '\r') then longBasic? true rest
    else if c == '\\' || (isControl c && c != '\n' && c != '\r') then none
    else consTo c (longBasic? false rest)
  | _, [] => none

/-- A string of several lines without escapes, after its opening quotes. -/
def longLiteral? : List Char → Option (List Char × List Char)
  | '\'' :: '\'' :: '\'' :: '\'' :: '\'' :: rest => some (['\'', '\''], rest)
  | '\'' :: '\'' :: '\'' :: '\'' :: rest => some (['\''], rest)
  | '\'' :: '\'' :: '\'' :: rest => some ([], rest)
  | c :: rest =>
    if isControl c && c != '\n' && c != '\r' then none else consTo c (longLiteral? rest)
  | [] => none

/-- A line end right after the opening quotes does not belong to the string. -/
def dropFirstLine (cs : List Char) : List Char := (newline? cs).getD cs

def shortString? : List Char → Option (String × List Char)
  | '"' :: rest => (basic? rest).map fun r => (String.ofList r.1, r.2)
  | '\'' :: rest => (literal? rest).map fun r => (String.ofList r.1, r.2)
  | _ => none

def string? : List Char → Option (String × List Char)
  | '"' :: '"' :: '"' :: rest =>
    (longBasic? false (dropFirstLine rest)).map fun r => (String.ofList r.1, r.2)
  | '\'' :: '\'' :: '\'' :: rest =>
    (longLiteral? (dropFirstLine rest)).map fun r => (String.ofList r.1, r.2)
  | cs => shortString? cs

/-! ## Words -/

/-- Characters of names that need no quotes. -/
def isBare (c : Char) : Bool := c.isAlphanum || c == '_' || c == '-'

/-- Characters of numbers, dates and truth values. -/
def isWord (c : Char) : Bool := isBare c || c == '+' || c == '.' || c == ':'

/-- Digits, with single underscores between them. -/
def digitsOk (isDigit : Char → Bool) (cs : List Char) : Bool :=
  cs.all (fun c => isDigit c || c == '_') && Text.marksPlaced isDigit false false cs
    && !cs.isEmpty

/-- Digits of a number, which does not start with a needless zero. -/
def wholeOk (cs : List Char) : Bool :=
  digitsOk Char.isDigit cs && (cs.length == 1 || cs.head? != some '0')

/-- A word without its sign. -/
def unsigned : List Char → List Char
  | '+' :: rest => rest
  | '-' :: rest => rest
  | cs => cs

def integer? (w : List Char) : Option Int64 :=
  let based : Option Nat := match w with
    | '0' :: 'x' :: ds =>
      if digitsOk (fun c => (Text.digitIn? 16 c).isSome) ds then some 16 else none
    | '0' :: 'o' :: ds => if digitsOk (fun c => (Text.digitIn? 8 c).isSome) ds then some 8 else none
    | '0' :: 'b' :: ds => if digitsOk (fun c => (Text.digitIn? 2 c).isSome) ds then some 2 else none
    | _ => none
  let digits : Option (Option Nat × List Char) := match based with
    | some b => some (some b, w.drop 2)
    | none => if wholeOk (unsigned w) then some (some 10, w) else none
  match digits with
  | none => none
  | some (base, ds) => (Text.readInteger base (ds.filter (· != '_'))).toOption

/-- The exponent at the end of a number; zero if there is none. -/
def exponent? : List Char → Option Int
  | [] => some 0
  | e :: ds =>
    if (e == 'e' || e == 'E') && digitsOk Char.isDigit (unsigned ds) then
      let n : Int := (count? ((unsigned ds).filter (· != '_'))).getD 0
      some (if ds.head? == some '-' then -n else n)
    else none

/-- Is this a number with a fraction or an exponent that is not too large, or
none at all? -/
def isReal (w : List Char) : Bool :=
  let u := unsigned w
  let part := fun c : Char => c.isDigit || c == '_'
  let whole := u.takeWhile part
  let (fraction, more) := match u.dropWhile part with
    | '.' :: rest => (some (rest.takeWhile part), rest.dropWhile part)
    | more => (none, more)
  let fractionDigits := (fraction.getD []).filter (· != '_')
  u == "inf".toList || u == "nan".toList ||
    wholeOk whole && (fraction.isSome || !more.isEmpty) &&
      (fraction.map (digitsOk Char.isDigit)).getD true &&
      match exponent? more with
      | some e =>
        let digits := (count? (whole.filter (· != '_') ++ fractionDigits)).getD 0
        (Double.ofDecimal false digits (e - fractionDigits.length)).isFinite
      | none => false

end Mos6510.Toml
