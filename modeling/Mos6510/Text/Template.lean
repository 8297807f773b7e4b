import Mos6510.Text.Quoted
import Mos6510.Text.Utf8

/-!
# Message templates

A template is a text with directives that start with `%`, each of which is
replaced by one argument: `%d` and its relatives write a number in some
base, `%c` and `%q` a character, `%s`, `%q` and `%x` a text, `%v` either.
Between the percent sign and the verb may stand flags, a width, a precision
and an argument number in brackets.  A directive that does not fit its
argument is no failure: the output says what is wrong with it.
-/

namespace Mos6510.Text

namespace Template

/-- An argument of a template. -/
inductive Arg where
  | int (value : Int64)
  | text (value : String)
  deriving DecidableEq, Repr, Inhabited

/-- The name of an argument's type, as output names it. -/
def Arg.typeName : Arg → String
  | int _ => "int64"
  | text _ => "string"

/-- The flags of a directive. -/
structure Flags where
  sharp : Bool := false
  zero : Bool := false
  plus : Bool := false
  minus : Bool := false
  space : Bool := false
  deriving DecidableEq, Repr, Inhabited

/-- A width or precision as written: absent, a number, or taken from an argument. -/
inductive Measure where
  | absent
  | number (n : Nat)
  | argument
  deriving DecidableEq, Repr, Inhabited

/-- An argument number in brackets: absent, unreadable, or a number from one on. -/
inductive Pick where
  | absent
  | unreadable
  | number (n : Nat)
  deriving DecidableEq, Repr, Inhabited

/-- Is there a readable argument number? -/
def Pick.given : Pick → Bool
  | number _ => true
  | _ => false

/-- A directive as written. -/
structure Directive where
  flags : Flags := {}
  /-- The argument number before the width. -/
  widthPick : Pick := .absent
  width : Measure := .absent
  /-- A precision, with the argument number before it. -/
  precision : Option (Pick × Measure) := none
  /-- The argument number before the verb. -/
  verbPick : Pick := .absent
  /-- The verb, absent at the end of the template. -/
  verb : Option Char := none
  deriving Repr, Inhabited

/-- A part of a template. -/
inductive Piece where
  | literal (c : Char)
  | directive (d : Directive)
  deriving Repr, Inhabited

/-! ## Reading a template -/

def readFlags : Flags → List Char → Flags × List Char
  | f, '#' :: rest => readFlags { f with sharp := true } rest
  | f, '0' :: rest => readFlags { f with zero := true } rest
  | f, '+' :: rest => readFlags { f with plus := true } rest
  | f, '-' :: rest => readFlags { f with minus := true } rest
  | f, ' ' :: rest => readFlags { f with space := true } rest
  | f, cs => (f, cs)

/-- Widths and argument numbers stop growing beyond this. -/
def measureLimit : Nat := 1000000

/-- Read a number that may be absent.  A number that grows out of bounds
swallows the rest of the template. -/
def readNumber : Option Nat → List Char → Option Nat × List Char
  | acc, [] => (acc, [])
  | acc, c :: rest =>
    if c.isDigit then
      if acc.getD 0 > measureLimit then (none, [])
      else readNumber (some (acc.getD 0 * 10 + (c.toNat - 48))) rest
    else (acc, c :: rest)

/-- Read an argument number in brackets. -/
def readPick : List Char → Pick × List Char
  | '[' :: rest =>
    let inner := rest.takeWhile (· != ']')
    match rest.dropWhile (· != ']') with
    | ']' :: after =>
      if rest.length < 2 then (.unreadable, rest)
      else match readNumber none inner with
        | (some n, []) => (.number n, after)
        | _ => (.unreadable, after)
    | _ => (.unreadable, rest)
  | cs => (.absent, cs)

/-- Read a width or the number of a precision. -/
def readMeasure : List Char → Measure × List Char
  | '*' :: rest => (.argument, rest)
  | cs =>
    match readNumber none cs with
    | (some n, rest) => (.number n, rest)
    | (none, rest) => (.absent, rest)

/-- Read a directive after its percent sign. -/
def readDirective (cs : List Char) : Directive × List Char :=
  let (flags, cs) := readFlags {} cs
  let (widthPick, cs) := readPick cs
  let (width, cs) := readMeasure cs
  let (precision, cs) : Option (Pick × Measure) × List Char :=
    match cs with
    | '.' :: cs =>
      let (pick, cs) := readPick cs
      let (m, cs) := readMeasure cs
      (some (pick, m), cs)
    | cs => (none, cs)
  -- A readable argument number right before the verb was read already.
  let settled : Bool :=
    match precision with
    | some (pick, m) => pick.given && m != .argument
    | none => widthPick.given && width != .argument
  let (verbPick, cs) := if settled then (Pick.absent, cs) else readPick cs
  let d : Directive :=
    { flags := flags, widthPick := widthPick, width := width, precision := precision,
      verbPick := verbPick }
  match cs with
  | [] => (d, [])
  | v :: rest => ({ d with verb := some v }, rest)

/-- Split a template into its parts.  Every part takes at least one
character, so one unit of fuel for each character is enough. -/
def readPieces : Nat → List Char → List Piece
  | 0, _ => []
  | _ + 1, [] => []
  | fuel + 1, '%' :: rest =>
    let (d, rest) := readDirective rest
    .directive d :: readPieces fuel rest
  | fuel + 1, c :: rest => .literal c :: readPieces fuel rest

/-! ## Writing an argument -/

/-- What a directive asks for once its width and precision are known. -/
structure Layout where
  flags : Flags := {}
  width : Option Nat := none
  precision : Option Nat := none
  deriving DecidableEq, Repr, Inhabited

/-- Zeros fill up on the left only. -/
def Layout.zeroFill (l : Layout) : Bool := l.flags.zero && !l.flags.minus

/-- Fill a text up to the width with the given character. -/
def Layout.padWith (l : Layout) (fill : Char) (cs : List Char) : List Char :=
  let missing := List.replicate (l.width.getD 0 - cs.length) fill
  if l.flags.minus then cs ++ missing else missing ++ cs

/-- Fill a text up to the width, with zeros if the flags ask for them. -/
def Layout.pad (l : Layout) (cs : List Char) : List Char :=
  l.padWith (if l.zeroFill then '0' else ' ') cs

/-- A number in a base, with sign, lead and padding. -/
def Layout.number (l : Layout) (verb : Char) (base : Nat) (digit : Nat → Char) (x : Char)
    (v : Int) : List Char :=
  let f := l.flags
  if l.precision == some 0 && v == 0 then List.replicate (l.width.getD 0) ' '
  else
    let least : Nat :=
      match l.precision, l.width with
      | some p, _ => p
      | none, some w => if l.zeroFill then w - (if v < 0 || f.plus || f.space then 1 else 0) else 0
      | none, none => 0
    let ds := zeroPad least (digits digit base v.natAbs)
    let ds :=
      if !f.sharp then ds
      else if base == 2 then '0' :: 'b' :: ds
      else if base == 8 then (if ds.head? == some '0' then ds else '0' :: ds)
      else if base == 16 then '0' :: x :: ds
      else ds
    let ds := if verb == 'O' then '0' :: 'o' :: ds else ds
    let ds :=
      if v < 0 then '-' :: ds
      else if f.plus then '+' :: ds
      else if f.space then ' ' :: ds
      else ds
    l.padWith ' ' ds

/-- The character with a code point; U+FFFD if there is none. -/
def charOf (v : Int64) : Char :=
  let n := v.toInt
  if 0 ≤ n && n < 0x110000 && !(0xD800 ≤ n && n < 0xE000) then Char.ofNat n.toNat
  else '\uFFFD'

/-- A code point in the form `U+0041`. -/
def Layout.codePoint (l : Layout) (v : Int64) : List Char :=
  let n := v.toUInt64.toNat
  let least := max 4 (l.precision.getD 4)
  let shown :=
    if l.flags.sharp && n < 0x110000 && !(0xD800 ≤ n && n < 0xE000) && isPrintable (Char.ofNat n)
    then [' ', '\'', Char.ofNat n, '\''] else []
  l.padWith ' ' ('U' :: '+' :: zeroPad least (digits upperDigit 16 n) ++ shown)

/-- Cut a text after as many characters as the precision says. -/
def Layout.cut (l : Layout) (cs : List Char) : List Char :=
  match l.precision with
  | some p => cs.take p
  | none => cs

/-- Can the text stand between back quotes as it is? -/
def plainEnough (cs : List Char) : Bool :=
  cs.all fun c => !((c.toNat < 0x20 && c != '\t') || c.toNat == 0x60 || c.toNat == 0x7F
    || c.toNat == 0xFEFF)

def Layout.hexText (l : Layout) (digit : Nat → Char) (x : Char) (s : String) : List Char :=
  let bytes := s.toUTF8.toList
  let bytes := match l.precision with
    | some p => bytes.take p
    | none => bytes
  let byte (b : UInt8) : List Char := [digit (b.toNat / 16), digit (b.toNat % 16)]
  let lead : List Char := if l.flags.sharp then ['0', x] else []
  let body : List Char :=
    match bytes with
    | [] => []
    | b :: rest =>
      if l.flags.space then
        lead ++ byte b ++ rest.flatMap fun b => ' ' :: lead ++ byte b
      else lead ++ byte b ++ rest.flatMap byte
  l.pad body

def Layout.quoted (l : Layout) (s : String) : List Char :=
  let cs := l.cut s.toList
  if l.flags.sharp && plainEnough cs then
    l.pad (Char.ofNat 0x60 :: cs ++ [Char.ofNat 0x60])
  else l.pad (quote l.flags.plus (String.ofList cs)).toList

def Layout.plain (l : Layout) : Arg → List Char
  | .int v => l.number 'v' 10 upperDigit 'x' v.toInt
  | .text s => l.pad (l.cut s.toList)

/-- Say that a verb does not fit its argument. -/
def Layout.misfit (l : Layout) (verb : Char) (a : Arg) : List Char :=
  '%' :: '!' :: verb :: '(' :: a.typeName.toList ++ '=' :: l.plain a ++ [')']

/-- Write an argument as its verb says. -/
def Layout.write (l : Layout) (verb : Char) (a : Arg) : List Char :=
  -- The verb `v` gives these two flags a meaning of their own.
  let bare : Layout := { l with flags := { l.flags with sharp := false, plus := false } }
  match verb, a with
  | 'T', a => l.pad (l.cut a.typeName.toList)
  | 'v', .text s => if l.flags.sharp then bare.quoted s else bare.plain (.text s)
  | 'v', .int v => bare.plain (.int v)
  | 'w', a => bare.misfit 'w' a
  | 'd', .int v => l.number verb 10 lowerDigit 'x' v.toInt
  | 'b', .int v => l.number verb 2 lowerDigit 'x' v.toInt
  | 'o', .int v => l.number verb 8 lowerDigit 'x' v.toInt
  | 'O', .int v => l.number verb 8 lowerDigit 'x' v.toInt
  | 'x', .int v => l.number verb 16 lowerDigit 'x' v.toInt
  | 'X', .int v => l.number verb 16 upperDigit 'X' v.toInt
  | 'c', .int v => l.pad [charOf v]
  | 'q', .int v => l.pad (quoteSingle l.flags.plus (charOf v)).toList
  | 'U', .int v => l.codePoint v
  | 's', .text s => l.plain (.text s)
  | 'x', .text s => l.hexText lowerDigit 'x' s
  | 'X', .text s => l.hexText upperDigit 'X' s
  | 'q', .text s => l.quoted s
  | verb, a => l.misfit verb a

/-! ## Filling a template -/

/-- How far the arguments are used up. -/
structure Progress where
  /-- Number of the next argument, from zero. -/
  next : Nat := 0
  /-- Was an argument ever picked by number? -/
  reordered : Bool := false
  /-- Is the argument number of the current directive usable? -/
  pickOk : Bool := true
  /-- Output so far, last character first. -/
  out : List Char := []
  deriving Repr, Inhabited

def Progress.put (p : Progress) (cs : List Char) : Progress :=
  { p with out := cs.reverse ++ p.out }

def Progress.pick (args : List Arg) (p : Progress) : Pick → Progress
  | .absent => p
  | .unreadable => { p with reordered := true, pickOk := false }
  | .number n =>
    if 1 ≤ n && n ≤ args.length then { p with reordered := true, next := n - 1 }
    else { p with reordered := true, pickOk := false }

/-- Take an argument that has to be a number of moderate size. -/
def Progress.takeInt (args : List Arg) (p : Progress) : Option Int × Progress :=
  match args[p.next]? with
  | none => (none, p)
  | some (.int v) =>
    let p := { p with next := p.next + 1 }
    if v.toInt.natAbs ≤ measureLimit then (some v.toInt, p) else (none, p)
  | some (.text _) => (none, { p with next := p.next + 1 })

def fillDirective (args : List Arg) (p : Progress) (d : Directive) : Progress :=
  let p := { p with pickOk := true }
  let p := p.pick args d.widthPick
  let (layout, p) : Layout × Progress :=
    match d.width with
    | .absent => ({ flags := d.flags }, p)
    | .number n =>
      ({ flags := d.flags, width := some n },
        if d.widthPick.given then { p with pickOk := false } else p)
    | .argument =>
      match p.takeInt args with
      | (none, p) => ({ flags := d.flags }, p.put "%!(BADWIDTH)".toList)
      | (some w, p) =>
        if w < 0 then
          ({ flags := { d.flags with minus := true }, width := some w.natAbs }, p)
        else ({ flags := d.flags, width := some w.natAbs }, p)
  let (layout, p) : Layout × Progress :=
    match d.precision with
    | none => (layout, p)
    | some (pick, m) =>
      let p := if d.widthPick.given && d.width != .argument then { p with pickOk := false } else p
      let p := p.pick args pick
      match m with
      | .absent => ({ layout with precision := some 0 }, p)
      | .number n => ({ layout with precision := some n }, p)
      | .argument =>
        match p.takeInt args with
        | (some n, p) =>
          if n < 0 then (layout, p.put "%!(BADPREC)".toList)
          else ({ layout with precision := some n.natAbs }, p)
        | (none, p) => (layout, p.put "%!(BADPREC)".toList)
  let p := p.pick args d.verbPick
  match d.verb with
  | none => p.put "%!(NOVERB)".toList
  | some '%' => p.put ['%']
  | some verb =>
    if !p.pickOk then p.put ('%' :: '!' :: verb :: "(BADINDEX)".toList)
    else match args[p.next]? with
      | none => p.put ('%' :: '!' :: verb :: "(MISSING)".toList)
      | some a => { p with next := p.next + 1 }.put (layout.write verb a)

def fillPiece (args : List Arg) (p : Progress) : Piece → Progress
  | .literal c => p.put [c]
  | .directive d => fillDirective args p d

/-- Name the arguments that no directive used. -/
def leftOver : List Arg → List Char
  | [] => []
  | a :: rest =>
    let one (a : Arg) : List Char := a.typeName.toList ++ '=' :: ({} : Layout).plain a
    "%!(EXTRA ".toList ++ one a ++ rest.flatMap (fun a => ',' :: ' ' :: one a) ++ [')']

def fill (template : String) (args : List Arg) : String :=
  let cs := template.toList
  let p := (readPieces cs.length cs).foldl (fillPiece args) {}
  let p := if p.reordered then p else p.put (leftOver (args.drop p.next))
  String.ofList p.out.reverse

end Template

end Mos6510.Text
