import Mos6510.Language.NumberStyle
import Mos6510.Language.Tag

/-!
# The language of messages

Messages are worded in English for every reader.  Counts and distances inside
them are written the way the reader's language writes numbers.
-/

namespace Mos6510

/-- The language that messages are written for. -/
structure Language where
  numbers : Language.NumberStyle := {}
  deriving DecidableEq, Repr, Inhabited

namespace Language

def number (lang : Language) (n : Int) : String := lang.numbers.render n

/-- The region that decides how numbers are written: that of the tag, unless a
key of it names another one. -/
def Tag.numberRegion (t : Tag) : String :=
  match (t.keys.lookup "rg").map String.toList with
  | some [a, b, 'z', 'z', 'z', 'z'] =>
    match region? (String.ofList [a, b]) with
    | .ok r => r
    | .error _ => t.region
  | _ => t.region

/-- The way a tag writes numbers.  Portable English does without groups. -/
def Tag.numberStyle (t : Tag) : NumberStyle :=
  let s := closestStyle t.language t.script t.numberRegion
  let s := match t.keys.lookup "nu" with
    | some system => s.inSystem system
    | none => s
  if t.language == "en" && t.region == "US" && t.script.isEmpty
      && t.keys.lookup "va" == some "posix" then { s with group := "" }
  else s

def ofTag (tag : String) : Except TagFault Language :=
  match Tag.ofText tag with
  | .ok t => .ok { numbers := t.numberStyle }
  | .error fault => .error fault

end Language

end Mos6510
