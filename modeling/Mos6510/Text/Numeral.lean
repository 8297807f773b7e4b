/-!
# Reading integers

Integers as they are written on the command line and in source: digits of a
given base, or of the base that a lead says (`0x`, `0o`, `0b`, and a plain
leading zero for octal).  Values are bounded by 64 bits.
-/

namespace Mos6510.Text

/-- Why a text is no integer. -/
inductive NumeralFault where
  /-- Not written like a number. -/
  | malformed
  /-- Written like a number that does not fit. -/
  | outOfRange
  deriving DecidableEq, Repr, Inhabited

/-- The value of an ASCII digit or letter: ten and up for letters of either case. -/
def digitValue? (c : Char) : Option Nat :=
  if '0' ≤ c ∧ c ≤ '9' then some (c.toNat - 48)
  else if 'a' ≤ c ∧ c ≤ 'z' then some (c.toNat - 87)
  else if 'A' ≤ c ∧ c ≤ 'Z' then some (c.toNat - 55)
  else none

def digitIn? (base : Nat) (c : Char) : Option Nat :=
  match digitValue? c with
  | some d => if d < base then some d else none
  | none => none

/-- Read digits from the left.  Reading stops at the first digit that makes
the number too large, whatever follows it.  With `marks` an underscore is
passed over. -/
def readDigits (base : Nat) (marks : Bool) : Nat → List Char → Except NumeralFault Nat
  | n, [] => .ok n
  | n, c :: rest =>
    if marks && c == '_' then readDigits base marks n rest
    else match digitIn? base c with
      | none => .error .malformed
      | some d =>
        if n * base + d < UInt64.size then readDigits base marks (n * base + d) rest
        else .error .outOfRange

/-- Underscores stand between digits only.  `afterDigit` says whether one may
stand here; a base lead counts as a digit. -/
def marksPlaced (isDigit : Char → Bool) : (afterDigit afterMark : Bool) → List Char → Bool
  | _, afterMark, [] => !afterMark
  | afterDigit, afterMark, c :: rest =>
    if isDigit c then marksPlaced isDigit true false rest
    else if c == '_' then afterDigit && marksPlaced isDigit false true rest
    else !afterMark && marksPlaced isDigit false false rest

/-- The base that the lead of a number says, and the digits after the lead. -/
def splitLead : List Char → Nat × List Char
  | '0' :: k :: d :: rest =>
    if k == 'x' || k == 'X' then (16, d :: rest)
    else if k == 'o' || k == 'O' then (8, d :: rest)
    else if k == 'b' || k == 'B' then (2, d :: rest)
    else (8, k :: d :: rest)
  | '0' :: rest => (8, rest)
  | cs => (10, cs)

/-- Are the underscores of a number well placed? -/
def marksWellPlaced : List Char → Bool
  | '0' :: k :: rest =>
    if k == 'x' || k == 'X' then marksPlaced (fun c => (digitIn? 16 c).isSome) true false rest
    else if k == 'o' || k == 'O' || k == 'b' || k == 'B' then
      marksPlaced Char.isDigit true false rest
    else marksPlaced Char.isDigit false false ('0' :: k :: rest)
  | cs => marksPlaced Char.isDigit false false cs

/-- Read a number without sign.  Without a base, the lead of the number says
it and underscores may divide the digits. -/
def readNatural (base : Option Nat) (cs : List Char) : Except NumeralFault Nat :=
  match cs, base with
  | [], _ => .error .malformed
  | cs, some b => readDigits b false 0 cs
  | cs, none =>
    let (b, ds) := splitLead cs
    match readDigits b true 0 ds with
    | .ok n => if cs.contains '_' && !marksWellPlaced cs then .error .malformed else .ok n
    | .error e => .error e

/-- Bring a magnitude with its sign into 64 bits. -/
def signed (negative : Bool) (n : Nat) : Except NumeralFault Int64 :=
  if negative then
    if n ≤ 0x8000000000000000 then .ok (Int64.ofInt (-(n : Int))) else .error .outOfRange
  else
    if n < 0x8000000000000000 then .ok (Int64.ofNat n) else .error .outOfRange

/-- Read a number with an optional sign. -/
def readInteger (base : Option Nat) (cs : List Char) : Except NumeralFault Int64 :=
  match cs with
  | '-' :: rest => readNatural base rest >>= signed true
  | '+' :: rest => readNatural base rest >>= signed false
  | cs => readNatural base cs >>= signed false

end Mos6510.Text
