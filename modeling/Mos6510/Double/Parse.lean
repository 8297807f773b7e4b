import Mos6510.Double
import Mos6510.Text.Numeral

/-!
# Reading numbers in floating point

A number is written in decimal with an optional fraction and exponent, or in
hexadecimal with an exponent of two, which then has to be there.  Underscores
may stand between digits.  The number that is read is the nearest one.
-/

namespace Mos6510.Double

/-- The number nearest to a whole number times a power of two.  Where the
exponent is far out of range the digits do not matter. -/
def ofBinary (negative : Bool) (digits : Nat) (exponent : Int) : Double :=
  let top : Int := (digits.log2 : Int) + exponent
  if digits == 0 || top < -1100 then .finite negative 0
  else if 1100 < top then .infinite negative
  else if 0 ≤ exponent then ofQuotient negative ((digits <<< exponent.toNat) * one) 1
  else ofQuotient negative (digits * one) (1 <<< (-exponent).toNat)

/-- Digits with at most one point among them, as they are read. -/
structure Mantissa where
  digits : Nat := 0
  /-- How many digits there are, and how many of them after the point. -/
  count : Nat := 0
  places : Nat := 0
  point : Bool := false

/-- Read the digits of a number up to the first character that is none. -/
def Mantissa.read (base : Nat) : Mantissa → List Char → Mantissa × List Char
  | m, [] => (m, [])
  | m, c :: rest =>
    if c == '_' then read base m rest
    else if c == '.' then
      if m.point then (m, c :: rest) else read base { m with point := true } rest
    else match Text.digitIn? base c with
      | some d => read base { m with
          digits := m.digits * base + d
          count := m.count + 1
          places := if m.point then m.places + 1 else m.places } rest
      | none => (m, c :: rest)

/-- The exponent that is all that is left of a number, after its letter. -/
def exponent? (cs : List Char) : Option Int :=
  let (negative, ds) : Bool × List Char := match cs with
    | '-' :: ds => (true, ds)
    | '+' :: ds => (false, ds)
    | ds => (false, ds)
  let (m, rest) := Mantissa.read 10 { point := true } ds
  if !rest.isEmpty || !((ds.head?.map Char.isDigit).getD false) then none
  else some (if negative then -(m.digits : Int) else m.digits)

/-- Read a number without its sign. -/
def readNatural? (negative : Bool) (cs : List Char) : Option Double :=
  let hex := 3 ≤ cs.length && (cs.take 2 == ['0', 'x'] || cs.take 2 == ['0', 'X'])
  let (m, rest) := Mantissa.read (if hex then 16 else 10) {} (if hex then cs.drop 2 else cs)
  if m.count == 0 || (cs.contains '_' && !Text.marksWellPlaced cs) then none
  else match rest with
    | [] => if hex then none else some (ofDecimal negative m.digits (-(m.places : Int)))
    | e :: more => do
      let x ← exponent? more
      if hex && (e == 'p' || e == 'P') then
        return ofBinary negative m.digits (x - 4 * (m.places : Int))
      else if !hex && (e == 'e' || e == 'E') then
        return ofDecimal negative m.digits (x - (m.places : Int))
      else none

/-- Read a number with an optional sign; nothing if it is not written like one
or too large. -/
def read? (cs : List Char) : Option Double := do
  let x ← match cs with
    | '-' :: rest => readNatural? true rest
    | '+' :: rest => readNatural? false rest
    | cs => readNatural? false cs
  if x.isFinite then return x else none

end Mos6510.Double
