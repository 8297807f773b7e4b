import Mos6510.Script.Compare
import Mos6510.Script.Show

/-!
# Filling in texts

Two ways to fill values into a text: the operator `%` with conversions such as
`%d`, and the method `format` with fields between braces.
-/

namespace Mos6510.Script

def encode (cs : List Char) : List UInt8 := (Bytes.ofChars cs).toList

def code (c : Char) : UInt8 := c.toNat.toUInt8

def inBase (digit : Nat → Char) (base : Nat) (n : Int) : List UInt8 :=
  encode ((if n < 0 then ['-'] else []) ++ Text.digits digit base n.natAbs)

/-- A number in floating point as a conversion writes it. -/
def convertReal? (conv : Char) (x : Double) : Option (List Char) :=
  match conv with
  | 'e' => some (x.exponentialText 'e')
  | 'E' => some (x.exponentialText 'E')
  | 'f' => some x.fixedText
  | 'F' => some (if x.isFinite then ['%', 'F'] else x.specialText)
  | 'g' => some (x.shortText 'e')
  | 'G' => some (x.shortText 'E')
  | _ => none

/-- A character by its code, or a string of one character. -/
def convertChar? : Value → Option (List UInt8)
  | .int n =>
    if 0 ≤ n && n ≤ 0x10FFFF then
      some (encode [if n.toNat.isValidChar then Char.ofNat n.toNat else '\uFFFD'])
    else none
  | .str b =>
    match b.glyphs with
    | [g] => some (mended g)
    | _ => none
  | _ => none

/-- A value as a conversion writes it. -/
def Store.convert? (s : Store) (conv : Char) (v : Value) : Option (List UInt8) :=
  match conv with
  | 's' => some (s.display v)
  | 'r' => some (s.text v)
  | 'd' => v.integer?.map (inBase Text.lowerDigit 10)
  | 'i' => v.integer?.map (inBase Text.lowerDigit 10)
  | 'o' => v.integer?.map (inBase Text.lowerDigit 8)
  | 'x' => v.integer?.map (inBase Text.lowerDigit 16)
  | 'X' => v.integer?.map (inBase Text.upperDigit 16)
  | 'c' => convertChar? v
  | '%' => some [code '%']
  | conv =>
    match v with
    | .real x => (convertReal? conv x).map encode
    | .int n => (convertReal? conv (Double.ofInt n)).map encode
    | _ => none

/-- The value of a key of a dictionary. -/
def Store.member? (s : Store) (v : Value) (key : List UInt8) : Option Value :=
  match v with
  | .dict p => (lookUp? (s.dictItems p) (.ofBytes key)).join
  | _ => none

/-- Fill in the conversions of a text, passing over bytes of the one before:
the text, and how many values have been used.  A conversion takes the next
value, or with a key in brackets the value of that key. -/
def Store.fill (s : Store) (v : Value) (args : List Value) :
    Nat → Nat → List UInt8 → Option (List UInt8 × Nat)
  | _, used, [] => some ([], used)
  | skip + 1, used, _ :: rest => s.fill v args skip used rest
  | 0, used, b :: rest =>
    if b != code '%' then do
      let (more, n) ← s.fill v args 0 used rest
      return (b :: more, n)
    else if rest.head? == some (code '%') then do
      let (more, n) ← s.fill v args 1 used rest
      return (b :: more, n)
    else do
      let keyed := rest.head? == some (code '(')
      let key := (rest.drop 1).takeWhile (· != code ')')
      let size := if keyed then key.length + 2 else 0
      let arg ← if keyed then s.member? v key else args[used]?
      let conv ← (rest.drop size).head?
      let text ← s.convert? (Char.ofNat conv.toNat) arg
      let (more, n) ← s.fill v args (size + 1) (used + 1) rest
      return (text ++ more, n)

/-- A text with values filled in: those of a tuple, or a single one.  All of
them have to be used, a dictionary apart. -/
def Store.interpolate? (s : Store) (format : List UInt8) (v : Value) : Option (List UInt8) := do
  let args := match v with
    | .tuple xs => xs
    | v => [v]
  let (text, used) ← s.fill v args 0 0 format
  match v with
  | .dict _ => return text
  | _ => if used < args.length then none else return text

/-! ## Fields -/

/-- A field between braces: what it names, how it is written, and details,
which are never allowed. -/
structure Field where
  name : List UInt8
  conv : List UInt8
  details : List UInt8

/-- A row up to a byte, and what follows that byte. -/
def cutAt (b : UInt8) (s : List UInt8) : List UInt8 × List UInt8 :=
  let first := s.takeWhile (· != b)
  (first, s.drop (first.length + 1))

def Field.ofBytes (s : List UInt8) : Field :=
  if s.contains (code '!') then
    let (name, rest) := cutAt (code '!') s
    let (conv, details) := cutAt (code ':') rest
    ⟨name, conv, details⟩
  else
    let (name, details) := cutAt (code ':') s
    ⟨name, [code 's'], details⟩

/-- How the fields of a text have named their values so far. -/
structure Naming where
  /-- The next value of those that are taken in turn. -/
  next : Nat := 0
  inTurn : Bool := false
  byNumber : Bool := false

/-- The value of a field.  A text takes its values in turn or by their
numbers, not both; any other name is that of an argument. -/
def Naming.value? (n : Naming) (args : List Value) (named : List (List UInt8 × Value))
    (name : List UInt8) : Option (Value × Naming) :=
  if name.isEmpty then
    if n.byNumber then none
    else args[n.next]?.map fun v => (v, { n with next := n.next + 1, inTurn := true })
  else if name.all fun b => code '0' ≤ b && b ≤ code '9' then
    if n.inTurn then none
    else
      let i := name.foldl (fun k b => 10 * k + (b - code '0').toNat) 0
      args[i]?.map fun v => (v, { n with byNumber := true })
  else (named.lookup name).map fun v => (v, n)

def Store.convertField? (s : Store) (f : Field) (v : Value) : Option (List UInt8) :=
  if !f.details.isEmpty then none
  else if f.conv == [code 's'] then some (s.display v)
  else if f.conv == [code 'r'] then some (s.text v)
  else none

/-- Fill in the fields of a text, passing over bytes of the one before.  A
brace that is text is written twice. -/
def Store.fillFields (s : Store) (args : List Value) (named : List (List UInt8 × Value)) :
    Nat → Naming → List UInt8 → Option (List UInt8)
  | _, _, [] => some []
  | skip + 1, n, _ :: rest => s.fillFields args named skip n rest
  | 0, n, b :: rest =>
    if (b == code '\x7b' || b == code '\x7d') && rest.head? == some b then
      (s.fillFields args named 1 n rest).map (b :: ·)
    else if b == code '\x7d' then none
    else if b == code '\x7b' then do
      let field := rest.takeWhile (· != code '\x7d')
      if field.length == rest.length then none
      else
        let f := Field.ofBytes field
        let (v, n) ← n.value? args named f.name
        let text ← s.convertField? f v
        let more ← s.fillFields args named (field.length + 1) n rest
        return text ++ more
    else (s.fillFields args named 0 n rest).map (b :: ·)

end Mos6510.Script
