import Mos6510.Double
import Mos6510.Text.Digits

/-!
# Numbers in floating point as text

A number is written with the fewest decimal digits that read back as the same
number; of several such texts the nearest is taken.  With a fixed number of
places the digits are those of the exact value, rounded.
-/

namespace Mos6510.Double

/-- The exponent of ten of the first digit of a positive number of units,
from a guess that may be one too low. -/
def decimalExponent (units : Nat) : Int :=
  let guess : Int := (((units.log2 : Int) - 1074) * 30103).fdiv 100000 - 1
  let reaches (e : Int) : Bool :=
    if 0 ≤ e then Nat.pow 10 e.toNat * one ≤ units
    else one ≤ units * Nat.pow 10 (-e).toNat
  if reaches (guess + 2) then guess + 2 else if reaches (guess + 1) then guess + 1 else guess

/-- A positive number of units as a quotient of a power of ten. -/
def inTens (units : Nat) (e : Int) : Nat × Nat :=
  if 0 ≤ e then (units, Nat.pow 10 e.toNat * one) else (units * Nat.pow 10 (-e).toNat, one)

/-- Do digits times a power of ten read back as these units? -/
def readsBack (units digits : Nat) (e : Int) : Bool :=
  ofDecimal false digits e == .finite false units

/-- The digits nearest to a number on the grid of a power of ten, if they
read back. -/
def onGrid? (units : Nat) (e : Int) : Option Nat :=
  let (num, den) := inTens units e
  let low := num / den
  let near := nearest num den
  let far := if near == low then low + 1 else low
  if readsBack units near e then some near
  else if readsBack units far e then some far
  else none

/-- The fewest digits that read back, with the exponent of ten of the first
one. -/
def shortest (units : Nat) : Nat × Int :=
  if units == 0 then (0, 0)
  else
    let top := decimalExponent units
    let grid? (n : Nat) : Option (Nat × Nat) :=
      (onGrid? units (top - (n : Int))).map fun d => (d, n)
    match (List.range 17).findSome? grid? with
    | some (d, n) => if Nat.pow 10 (n + 1) ≤ d then (d, top + 1) else (d, top)
    | none => (nearest (inTens units (top - 16)).1 (inTens units (top - 16)).2, top)

/-- A number of digits without the zeros at its end. -/
def dropZeros (cs : List Char) : List Char :=
  (cs.reverse.dropWhile (· == '0')).reverse

/-- An exponent as it is written: its sign and at least two digits. -/
def exponentText (e : Int) : List Char :=
  (if e < 0 then '-' else '+') :: Text.zeroPad 2 (Text.digits Text.lowerDigit 10 e.natAbs)

/-- Digits with a point after the first, and an exponent. -/
def scientific (mark : Char) (ds : List Char) (e : Int) : List Char :=
  let more := ds.drop 1
  ds.take 1 ++ (if more.isEmpty then [] else '.' :: more) ++ mark :: exponentText e

/-- Digits with a point where the exponent says. -/
def positional (ds : List Char) (e : Int) : List Char :=
  if e < 0 then '0' :: '.' :: List.replicate (-e - 1).toNat '0' ++ ds
  else
    let whole := ds.take (e.toNat + 1)
    let more := ds.drop (e.toNat + 1)
    whole ++ List.replicate (e.toNat + 1 - whole.length) '0' ++
      (if more.isEmpty then ['.', '0'] else '.' :: more)

/-- The sign of a number as it is written. -/
def signText (negative : Bool) : List Char := if negative then ['-'] else []

/-- What is written of a number that is not finite. -/
def specialText : Double → List Char
  | .infinite false => "+inf".toList
  | .infinite true => "-inf".toList
  | _ => "nan".toList

/-- A number in the fewest digits.  Exponents from -4 to 5 are written by the
place of the point, the others with a mark. -/
def shortText (mark : Char) : Double → List Char
  | .finite s u =>
    let (d, e) := shortest u
    let ds := if u == 0 then ['0'] else dropZeros (Text.digits Text.lowerDigit 10 d)
    signText s ++ (if e < -4 || 6 ≤ e then scientific mark ds e else positional ds e)
  | x => specialText x

/-- A number with six places after the point. -/
def fixedText : Double → List Char
  | .finite s u =>
    let n := nearest (u * 1000000) one
    signText s ++ Text.digits Text.lowerDigit 10 (n / 1000000) ++
      '.' :: Text.zeroPad 6 (Text.digits Text.lowerDigit 10 (n % 1000000))
  | x => specialText x

/-- A number with six places after its first digit and an exponent. -/
def exponentialText (mark : Char) : Double → List Char
  | .finite s u =>
    if u == 0 then signText s ++ scientific mark "0000000".toList 0
    else
      let top := decimalExponent u
      let (num, den) := inTens u (top - 6)
      let n := nearest num den
      let (n, top) := if 10000000 ≤ n then (n / 10, top + 1) else (n, top)
      signText s ++ scientific mark (Text.digits Text.lowerDigit 10 n) top
  | x => specialText x

end Mos6510.Double
