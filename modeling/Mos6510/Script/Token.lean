import Mos6510.Double
import Mos6510.Text.Letter
import Mos6510.Text.Numeral
import Mos6510.Text.Utf8

/-!
# Tokens of scripts

A script is made of lines.  A line goes on behind a backslash at its end and
inside brackets; blocks are told by how far their lines are indented, as
`indent` and `outdent` between the tokens say.  A script ends at a NUL outside
its strings, whatever follows.

A string literal is read in two steps: `inside?` finds where it ends, and
`unescape?` gives the bytes that it stands for.
-/

namespace Mos6510.Script

/-- A token of a script. -/
inductive Token where
  | int (value : Nat)
  /-- A number with a fraction or an exponent. -/
  | real (value : Double)
  /-- A string, in UTF-8. -/
  | text (value : List UInt8)
  /-- A string of bytes. -/
  | bytes (value : List UInt8)
  | name (value : String)
  /-- A word that cannot be a name. -/
  | word (value : String)
  | mark (value : String)
  | newline
  | indent
  | outdent
  deriving DecidableEq, Repr, Inhabited

/-- Can a name start with this character? -/
def isNameStart (c : Char) : Bool := c == '_' || Text.isLetter c

/-- Can a name go on with this character? -/
def isNameChar (c : Char) : Bool := isNameStart c || c.isDigit

/-- Words that cannot be names: those of the grammar, and those that are kept
for later. -/
def words : List String :=
  ["and", "break", "continue", "def", "elif", "else", "for", "if", "in", "lambda", "load",
    "not", "or", "pass", "return", "while", "as", "class", "del", "except", "finally", "from",
    "global", "import", "is", "nonlocal", "raise", "try", "with", "yield"]

def wordToken (s : String) : Token := if words.contains s then .word s else .name s

/-- Operators and brackets, longer ones first. -/
def marks : List String :=
  ["<<=", ">>=", "//=", "**", "//", "<<", ">>", "==", "!=", "<=", ">=", "+=", "-=", "*=",
    "/=", "%=", "&=", "|=", "^=", "+", "-", "*", "/", "%", "&", "|", "^", "~", "<", ">", "(",
    ")", "[", "]", "\x7b", "\x7d", ",", ".", ":", ";", "="]

/-- The operator or bracket at the start of a text. -/
def mark? (cs : List Char) : Option String :=
  marks.find? fun m => m.toList.isPrefixOf cs

/-! ## Numbers -/

def valueOf (base : Nat) (ds : List Char) : Nat :=
  ds.foldl (fun n c => n * base + (Text.digitValue? c).getD 0) 0

/-- Is the character a digit of the base? -/
def isDigitOf (base : Nat) (c : Char) : Bool := (Text.digitIn? base c).isSome

/-- The exponent at the start of a text, with the number of characters; there
is none without its letter, and it is malformed without digits. -/
def exponent? : List Char → Option (Option (Int × Nat))
  | e :: rest =>
    if e == 'e' || e == 'E' then
      let (sign, more, ds) : Int × Nat × List Char := match rest with
        | '-' :: ds => (-1, 2, ds)
        | '+' :: ds => (1, 2, ds)
        | ds => (1, 1, ds)
      let ds := ds.takeWhile (isDigitOf 10)
      if ds.isEmpty then none else some (some (sign * (valueOf 10 ds : Int), more + ds.length))
    else some none
  | [] => some none

/-- Digits times a power of ten, unless that is too large. -/
def real? (digits : Nat) (exponent : Int) : Option Double :=
  let x := Double.ofDecimal false digits exponent
  if x.isFinite then some x else none

/-- The base that a letter after a zero stands for. -/
def baseOf? (c : Char) : Option Nat :=
  if c == 'x' || c == 'X' then some 16
  else if c == 'o' || c == 'O' then some 8
  else if c == 'b' || c == 'B' then some 2
  else none

def decimal? (cs : List Char) : Option (Token × Nat) :=
  let whole := cs.takeWhile (isDigitOf 10)
  let rest := cs.dropWhile (isDigitOf 10)
  let (fraction, dot) : List Char × Nat := match rest with
    | '.' :: more => (more.takeWhile (isDigitOf 10), 1)
    | _ => ([], 0)
  let used := whole.length + dot + fraction.length
  let digits := valueOf 10 (whole ++ fraction)
  let places : Int := fraction.length
  match exponent? (cs.drop used) with
  | none => none
  | some (some (e, n)) => (real? digits (e - places)).map fun x => (.real x, used + n)
  | some none =>
    if dot == 1 then (real? digits (-places)).map fun x => (.real x, used)
    else if 1 < whole.length && whole.head? == some '0' && whole.any (· != '0') then none
    else some (.int digits, used)

/-- The number at the start of a text, with the number of characters; nothing
if it is malformed.  Octal and binary numbers have to fit 64 bits. -/
def number? : List Char → Option (Token × Nat)
  | '0' :: k :: rest =>
    match baseOf? k with
    | none => decimal? ('0' :: k :: rest)
    | some base =>
      let ds := rest.takeWhile (isDigitOf base)
      let value := valueOf base ds
      if ds.isEmpty || (base != 16 && 0x8000000000000000 ≤ value) then none
      else some (.int value, 2 + ds.length)
  | cs => decimal? cs

/-! ## Strings -/

/-- The inside of a string literal up to its closing quote, as it is written,
with the number of characters; nothing if it does not end.  Three quotes
close a long literal, which may go over several lines. -/
def inside? (quote : Char) (long : Bool) : List Char → Option (List Char × Nat)
  | [] => none
  | '\\' :: c :: rest =>
    match inside? quote long rest with
    | some (text, n) => some ('\\' :: c :: text, n + 2)
    | none => none
  | c :: rest =>
    if long && [quote, quote, quote].isPrefixOf (c :: rest) then some ([], 3)
    else if !long && c == quote then some ([], 1)
    else if c == '\\' || (c == '\n' && !long) then none
    else match inside? quote long rest with
      | some (text, n) => some (c :: text, n + 1)
      | none => none

/-- The number that digits write, if they are all there. -/
def coded? (base count limit : Nat) (cs : List Char) : Option Nat :=
  let ds := cs.take count
  let n := valueOf base ds
  if ds.length < count || !ds.all (isDigitOf base) || limit < n then none else some n

/-- The character with a code, in UTF-8. -/
def encoded? (n : Nat) : Option (List UInt8) :=
  if n.isValidChar then some (Text.Glyph.encodeChar (Char.ofNat n)) else none

/-- The bytes that an escape stands for, with the number of characters after
its backslash.  Only in a string of `binary` bytes can a code stand for a byte
above ASCII. -/
def escape? (binary : Bool) : List Char → Option (List UInt8 × Nat)
  | [] => none
  | 'n' :: _ => some ([10], 1)
  | 't' :: _ => some ([9], 1)
  | 'r' :: _ => some ([13], 1)
  | 'a' :: _ => some ([7], 1)
  | 'b' :: _ => some ([8], 1)
  | 'f' :: _ => some ([12], 1)
  | 'v' :: _ => some ([11], 1)
  | '\\' :: _ => some ([92], 1)
  | '\'' :: _ => some ([39], 1)
  | '"' :: _ => some ([34], 1)
  | '\n' :: _ => some ([], 1)
  | 'x' :: rest => (coded? 16 2 (if binary then 0xff else 0x7f) rest).map fun n => ([n.toUInt8], 3)
  | 'u' :: rest => ((coded? 16 4 0x10ffff rest).bind encoded?).map fun bs => (bs, 5)
  | 'U' :: rest => ((coded? 16 8 0x10ffff rest).bind encoded?).map fun bs => (bs, 9)
  | cs =>
    let ds := (cs.take 3).takeWhile (isDigitOf 8)
    if ds.isEmpty then none
    else (coded? 8 ds.length (if binary then 0xff else 0x7f) cs).map fun n =>
      ([n.toUInt8], ds.length)

/-- The bytes that the inside of a literal stands for, passing over characters
of the escape before; nothing if an escape is unknown. -/
def unescape? (binary : Bool) : Nat → List Char → Option (List UInt8)
  | _, [] => some []
  | skip + 1, _ :: rest => unescape? binary skip rest
  | 0, '\\' :: rest =>
    match escape? binary rest with
    | some (bs, n) => (unescape? binary n rest).map (bs ++ ·)
    | none => none
  | 0, c :: rest => (unescape? binary 0 rest).map (Text.Glyph.encodeChar c ++ ·)

/-- The string literal that starts with a quote, with the number of
characters.  In a `raw` literal a backslash stands for itself. -/
def quoted? (raw binary : Bool) (cs : List Char) : Option (Token × Nat) :=
  let quote := cs.head?.getD '"'
  let long := [quote, quote, quote].isPrefixOf cs
  let opening := if long then 3 else 1
  match inside? quote long (cs.drop opening) with
  | none => none
  | some (text, n) =>
    let bytes? := if raw then some (text.flatMap Text.Glyph.encodeChar)
      else unescape? binary 0 text
    bytes?.map fun bs => (if binary then .bytes bs else .text bs, opening + n)

def isQuote (c : Char) : Bool := c == '"' || c == '\''

/-- The length of what may stand before the quote of a string literal, and
whether it makes the literal raw and one of bytes; nothing if no literal
starts here. -/
def literalLead? (cs : List Char) : Option (Nat × Bool × Bool) :=
  let quoteAt (n : Nat) : Bool := ((cs.drop n).head?.map isQuote).getD false
  if quoteAt 0 then some (0, false, false)
  else if cs.head? == some 'r' && quoteAt 1 then some (1, true, false)
  else if cs.head? == some 'b' && quoteAt 1 then some (1, false, true)
  else if cs.take 2 == ['r', 'b'] && quoteAt 2 then some (2, true, true)
  else none

/-! ## Lines -/

/-- Let every line end in a line feed alone. -/
def unifyLines : List Char → List Char
  | [] => []
  | '\r' :: '\n' :: rest => '\n' :: unifyLines rest
  | '\r' :: rest => '\n' :: unifyLines rest
  | c :: rest => c :: unifyLines rest

/-- Is the character a blank within a line? -/
def isGap (c : Char) : Bool := c == ' ' || c == '\t'

/-- Where the reading of a script stands. -/
structure Stand where
  /-- Open brackets. -/
  depth : Nat := 0
  /-- A line starts here. -/
  start : Bool := true
  /-- The line holds nothing but blanks and a remark. -/
  blank : Bool := false
  /-- How far the blocks around are indented, the innermost first. -/
  indents : List Nat := []

/-- The column after blanks at the start of a line: a tab fills up to eight,
counted by the characters before it. -/
def column : Nat → Nat → List Char → Nat
  | _, col, [] => col
  | k, col, c :: rest => column (k + 1) (if c == '\t' then col + (8 - k % 8) else col + 1) rest

/-- Enter a line: the tokens that say how its block differs from the one
before.  A block that ends has to go back to one of those around it. -/
def Stand.enter (st : Stand) (cs : List Char) : Option (List Token × Stand) :=
  if !st.start then some ([], st)
  else
    let gap := cs.takeWhile isGap
    let next := (cs.drop gap.length).head?.getD '\n'
    let blank := next == '#' || next == '\n' || next == '\x00'
    let st := { st with start := false, blank := blank }
    if blank || st.depth != 0 then some ([], st)
    else
      let col := column 0 0 gap
      if st.indents.head?.getD 0 < col then
        some ([.indent], { st with indents := col :: st.indents })
      else
        let around := st.indents.dropWhile (col < ·)
        if around.head?.getD 0 != col then none
        else some (List.replicate (st.indents.length - around.length) .outdent,
          { st with indents := around })

/-- The tokens at the end of a script, which closes its blocks. -/
def Stand.finish (st : Stand) : List Token :=
  if st.indents.isEmpty then []
  else (if st.start || st.blank then [] else [.newline]) ++
    List.replicate st.indents.length .outdent

def Stand.bracket (st : Stand) (m : String) : Stand :=
  if m == "(" || m == "[" || m == "\x7b" then { st with depth := st.depth + 1 }
  else if m == ")" || m == "]" || m == "\x7d" then { st with depth := st.depth - 1 }
  else st

def before (t : Token × Nat) (rest : Nat → Option (List Token)) : Option (List Token) :=
  (rest (t.2 - 1)).map (t.1 :: ·)

/-- Tokens of a text, passing over characters of the token before; nothing if
there is a character that starts none. -/
def tokensFrom : Nat → Stand → List Char → Option (List Token)
  | _, st, [] => some st.finish
  | skip + 1, st, _ :: rest => tokensFrom skip st rest
  | 0, st, c :: rest =>
    match st.enter (c :: rest) with
    | none => none
    | some (dents, st) => (dents ++ ·) <$>
      if isGap c then tokensFrom 0 st rest
      else if c == '\x00' then some st.finish
      else if c == '\n' then
        let more := tokensFrom 0 { st with start := true } rest
        if st.depth != 0 || st.blank then more else more.map (.newline :: ·)
      else if c == '#' then
        tokensFrom (rest.takeWhile fun d => d != '\n' && d != '\x00').length st rest
      else if c == '\\' then
        if rest.head? == some '\n' then tokensFrom 1 st rest else none
      else match literalLead? (c :: rest) with
        | some (lead, raw, binary) =>
          match quoted? raw binary ((c :: rest).drop lead) with
          | some (t, n) => before (t, lead + n) fun k => tokensFrom k st rest
          | none => none
        | none =>
          if isDigitOf 10 c || (c == '.' && (rest.head?.map (isDigitOf 10)).getD false) then
            match number? (c :: rest) with
            | some t => before t fun k => tokensFrom k st rest
            | none => none
          else if isNameStart c then
            let w := (c :: rest).takeWhile isNameChar
            before (wordToken (String.ofList w), w.length) fun k => tokensFrom k st rest
          else match mark? (c :: rest) with
            | some m => before (.mark m, m.length) fun k => tokensFrom k (st.bracket m) rest
            | none => none

def tokens? (cs : List Char) : Option (List Token) := tokensFrom 0 {} (unifyLines cs)

end Mos6510.Script
