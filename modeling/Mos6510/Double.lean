/-!
# Binary floating point

Numbers of 53 significant bits.  The magnitude of a finite number is a whole
number of units, where a unit is the smallest positive number, two to the
power of -1074.  Every operation is exact in this unit until `ofQuotient`
rounds its result, to the nearest number and from a tie to the even one.
-/

namespace Mos6510

/-- A number in binary floating point. -/
inductive Double where
  | nan
  | infinite (negative : Bool)
  | finite (negative : Bool) (units : Nat)
  deriving DecidableEq, Repr, Inhabited

namespace Double

/-- How many units make one. -/
def one : Nat := 1 <<< 1074

/-- The least number of units that is too large. -/
def limit : Nat := 1 <<< 2098

/-- A quotient rounded to the nearest whole number, from a tie to the even
one. -/
def nearest (num den : Nat) : Nat :=
  let q := num / den
  let r := num % den
  if den < 2 * r || (den == 2 * r && q % 2 == 1) then q + 1 else q

/-- The number that is nearest to a quotient of units. -/
def ofQuotient (negative : Bool) (num den : Nat) : Double :=
  let step := 1 <<< ((num / den).log2 - 52)
  let units := nearest num (den * step) * step
  if limit ≤ units then .infinite negative else .finite negative units

def zero : Double := .finite false 0

/-- The number nearest to an integer. -/
def ofInt (n : Int) : Double := ofQuotient (decide (n < 0)) (n.natAbs * one) 1

/-- The number nearest to digits times a power of ten.  Where the exponent is
far out of range the digits do not matter. -/
def ofDecimal (negative : Bool) (digits : Nat) (exponent : Int) : Double :=
  let most : Int := (digits.log2 : Int) / 3 + 1 + exponent
  let least : Int := (digits.log2 : Int) / 4 + exponent
  if digits == 0 || most < -400 then .finite negative 0
  else if 400 < least then .infinite negative
  else if 0 ≤ exponent then ofQuotient negative (digits * Nat.pow 10 exponent.toNat * one) 1
  else ofQuotient negative (digits * one) (Nat.pow 10 (-exponent).toNat)

def isZero (x : Double) : Bool :=
  match x with
  | .finite _ u => u == 0
  | _ => false

/-- Is this neither infinite nor no number at all? -/
def isFinite (x : Double) : Bool :=
  match x with
  | .finite _ _ => true
  | _ => false

/-- The number with the other sign. -/
def neg : Double → Double
  | .nan => .nan
  | .infinite s => .infinite !s
  | .finite s u => .finite (!s) u

/-- The number without its sign. -/
def abs : Double → Double
  | .nan => .nan
  | .infinite _ => .infinite false
  | .finite _ u => .finite false u

def signed (negative : Bool) (units : Nat) : Int := if negative then -(units : Int) else units

/-- The sum.  A zero is negative only as the sum of two such zeros. -/
def add : Double → Double → Double
  | .nan, _ => .nan
  | _, .nan => .nan
  | .infinite s, .infinite t => if s == t then .infinite s else .nan
  | .infinite s, _ => .infinite s
  | _, .infinite t => .infinite t
  | .finite s u, .finite t v =>
    let sum := signed s u + signed t v
    -- equal numbers of both signs add up to positive zero
    if sum == 0 then .finite (s && t) 0
    else ofQuotient (decide (sum < 0)) sum.natAbs 1

def sub (x y : Double) : Double := x.add y.neg

def mul : Double → Double → Double
  | .nan, _ => .nan
  | _, .nan => .nan
  | .infinite s, .infinite t => .infinite (s != t)
  | .infinite s, .finite t v => if v == 0 then .nan else .infinite (s != t)
  | .finite s u, .infinite t => if u == 0 then .nan else .infinite (s != t)
  | .finite s u, .finite t v => ofQuotient (s != t) (u * v) one

def div : Double → Double → Double
  | .nan, _ => .nan
  | _, .nan => .nan
  | .infinite _, .infinite _ => .nan
  | .infinite s, .finite t _ => .infinite (s != t)
  | .finite s _, .infinite t => .finite (s != t) 0
  | .finite s u, .finite t v =>
    -- a number over zero is infinite, with both signs counted
    if v == 0 then (if u == 0 then .nan else .infinite (s != t))
    else ofQuotient (s != t) (u * one) v

/-- The largest whole number that is not above. -/
def floor : Double → Double
  | .finite s u =>
    let whole := u / one
    .finite s ((if s && u % one != 0 then whole + 1 else whole) * one)
  | x => x

/-- What is left of the first number when the second is taken away as often as
it goes, towards zero. -/
def rem : Double → Double → Double
  | .finite s u, .finite _ v => if v == 0 then .nan else .finite s (u % v)
  | .finite s u, .infinite _ => .finite s u
  | _, _ => .nan

/-- Is the number below zero? -/
def isNegative : Double → Bool
  | .nan => false
  | .infinite s => s
  | .finite s u => s && u != 0

/-- The remainder of a division towards minus infinity: its sign is that of
the divisor. -/
def mod (x y : Double) : Double :=
  let r := x.rem y
  if r.isNegative != y.isNegative && !r.isZero then r.add y else r

/-- The order of all numbers, in which what is no number comes last and is
equal to itself. -/
def compare : Double → Double → Ordering
  | .nan, .nan => .eq
  | .nan, _ => .gt
  | _, .nan => .lt
  | .infinite s, .infinite t => Ord.compare t s
  | .infinite s, _ => if s then .lt else .gt
  | _, .infinite t => if t then .gt else .lt
  | .finite s u, .finite t v => Ord.compare (signed s u) (signed t v)

/-- The order of an integer and a number, without rounding. -/
def compareInt (n : Int) : Double → Ordering
  | .nan => .lt
  | .infinite t => if t then .gt else .lt
  | .finite t v => Ord.compare (n * (one : Int)) (signed t v)

def truncate? : Double → Option Int
  | .finite s u => some (signed s (u / one))
  | _ => none

end Double

end Mos6510
