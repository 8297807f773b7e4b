import Mos6510.Text.Digits

/-!
# Durations

A time in nanoseconds, written in the largest fitting unit up to seconds, and
in hours and minutes beyond, with as many decimals as it has.
-/

namespace Mos6510.Text

/-- The decimals of a fraction `n / 10 ^ places`, with its point, without
trailing zeros. -/
def fraction (places n : Nat) : String :=
  let ds := zeroPad places (digits lowerDigit 10 n)
  let ds := (ds.reverse.dropWhile (· == '0')).reverse
  if n == 0 then "" else "." ++ String.ofList ds

/-- A number of units of `10 ^ places` nanoseconds. -/
def inUnit (places n : Nat) (unit : String) : String :=
  let one := Nat.pow 10 places
  decimal (n / one : Nat) ++ fraction places (n % one) ++ unit

def duration (ns : Int) : String :=
  let n := ns.natAbs
  let sign := if ns < 0 then "-" else ""
  if n == 0 then "0s"
  else if n < 1000 then sign ++ decimal n ++ "ns"
  else if n < 1000000 then sign ++ inUnit 3 n "µs"
  else if n < 1000000000 then sign ++ inUnit 6 n "ms"
  else
    let minute := 60 * 1000000000
    let minutes := n / minute
    let seconds := inUnit 9 (n % minute) "s"
    let longer :=
      if minutes == 0 then ""
      else if minutes < 60 then decimal minutes ++ "m"
      else decimal (minutes / 60 : Nat) ++ "h" ++ decimal (minutes % 60 : Nat) ++ "m"
    sign ++ longer ++ seconds

end Mos6510.Text
