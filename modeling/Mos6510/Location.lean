import Mos6510.Text.Digits

/-!
# Source locations
-/

namespace Mos6510

/-- A line of a source file. -/
structure Location where
  /-- File name, empty when there is none. -/
  file : String := ""
  /-- Line number, counted from one; zero when there is none. -/
  line : Nat := 0
  deriving DecidableEq, Repr, Inhabited

/-- A location as messages show it. -/
def Location.render (l : Location) : String :=
  if l.file.isEmpty then "line " ++ Text.decimal l.line
  else l.file ++ ":" ++ Text.decimal l.line

end Mos6510
