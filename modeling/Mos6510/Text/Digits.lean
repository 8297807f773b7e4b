/-!
# Digits

Numbers as the program writes them: decimal, and hexadecimal with a fixed
width.
-/

namespace Mos6510.Text

/-- The digit characters of bases up to sixteen, in upper case. -/
def upperDigit (d : Nat) : Char :=
  if d < 10 then Char.ofNat (48 + d) else Char.ofNat (55 + d)

/-- The digit characters of bases up to sixteen, in lower case. -/
def lowerDigit (d : Nat) : Char :=
  if d < 10 then Char.ofNat (48 + d) else Char.ofNat (87 + d)

/-- Digits of `n` in front of `acc`, for `n` above zero.  The fuel bounds the
number of digits. -/
def digitsAux (digit : Nat → Char) (base : Nat) : Nat → Nat → List Char → List Char
  | 0, _, acc => acc
  | fuel + 1, n, acc =>
    if n = 0 then acc else digitsAux digit base fuel (n / base) (digit (n % base) :: acc)

/-- The digits of a number, most significant first; zero has one digit. -/
def digits (digit : Nat → Char) (base n : Nat) : List Char :=
  if n = 0 then [digit 0] else digitsAux digit base (n.log2 + 1) n []

def decimal (n : Int) : String :=
  String.ofList ((if n < 0 then ['-'] else []) ++ digits upperDigit 10 n.natAbs)

/-- Fill up with zeros on the left. -/
def zeroPad (width : Nat) (cs : List Char) : List Char :=
  List.replicate (width - cs.length) '0' ++ cs

/-- A number in upper case hexadecimal, at least `width` characters wide. -/
def hex (width n : Nat) : String :=
  String.ofList (zeroPad width (digits upperDigit 16 n))

/-- A signed number in upper case hexadecimal; the sign counts to the width. -/
def signedHex (width : Nat) (n : Int) : String :=
  if n < 0 then "-" ++ hex (width - 1) n.natAbs else hex width n.natAbs

/-- Fill up with blanks on the right. -/
def padRight (width : Nat) (s : String) : String :=
  s ++ String.ofList (List.replicate (width - s.length) ' ')

end Mos6510.Text
