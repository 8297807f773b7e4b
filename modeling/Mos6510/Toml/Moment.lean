/-!
# Dates and times of TOML

A moment is a date, the time of a day, or both with an offset or without one.
Every part has a fixed number of digits and has to name a day or an instant
that exists.
-/

namespace Mos6510.Toml

/-- The value of digits; nothing if there is another character. -/
def count? (cs : List Char) : Option Nat :=
  if cs.all Char.isDigit then some (cs.foldl (fun n c => n * 10 + (c.toNat - 48)) 0) else none

/-- The number at a place of a word, of so many digits. -/
def part (w : List Char) (start width : Nat) : Nat :=
  ((count? ((w.drop start).take width)).getD 0)

/-- Does the word have a shape, in which `0` stands for any digit? -/
def hasShape (shape : String) (w : List Char) : Bool :=
  w.length == shape.length &&
    (w.zip shape.toList).all fun p => if p.2 == '0' then p.1.isDigit else p.1 == p.2

/-- Does the year have a 29th of February? -/
def isLeap (year : Nat) : Bool :=
  year % 4 == 0 && (year % 100 != 0 || year % 400 == 0)

def daysIn (year month : Nat) : Nat :=
  if month == 2 then (if isLeap year then 29 else 28)
  else if [4, 6, 9, 11].contains month then 30
  else 31

def isDate (w : List Char) : Bool :=
  let month := part w 5 2
  let day := part w 8 2
  hasShape "0000-00-00" w && 1 ≤ month && month ≤ 12
    && 1 ≤ day && day ≤ daysIn (part w 0 4) month

/-- Is this the difference to universal time? -/
def isOffset (w : List Char) : Bool :=
  w == ['Z'] ||
    ((hasShape "+00:00" w || hasShape "-00:00" w) && part w 1 2 ≤ 24 && part w 4 2 ≤ 60)

/-- A time of a day without its fraction, and what follows; a fraction has
digits. -/
def afterTime? (w : List Char) : Option (List Char) :=
  if hasShape "00:00:00" (w.take 8) && part w 0 2 < 24 && part w 3 2 < 60 && part w 6 2 < 60 then
    match w.drop 8 with
    | '.' :: d :: more => if d.isDigit then some (more.dropWhile Char.isDigit) else none
    | more => some more
  else none

/-- Is this the time of a day, with an offset if that is allowed? -/
def isTime (offset : Bool) (w : List Char) : Bool :=
  match afterTime? w with
  | some more => more.isEmpty || (offset && isOffset more)
  | none => false

def upperMark (c : Char) : Char := if c == 't' then 'T' else if c == 'z' then 'Z' else c

/-- Is this a date, a time, or both? -/
def isMoment (w : List Char) : Bool :=
  let w := w.map upperMark
  isDate w || isTime false w ||
    (isDate (w.take 10) && (w.drop 10).head? == some 'T' && isTime true (w.drop 11))

end Mos6510.Toml
