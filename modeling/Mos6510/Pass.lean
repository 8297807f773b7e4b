/-!
# Passes

The stages of an assembly.  The first three reshape the list of actions; the
last three execute it.  Only the final pass produces the program, the two
before it settle the values of symbols that are used before they are set.
-/

namespace Mos6510

/-- A stage of an assembly. -/
inductive Pass where
  | includes
  | macros
  | gather
  | warmUp
  | first
  | final
  deriving DecidableEq, Repr, Inhabited

namespace Pass

def all : List Pass := [includes, macros, gather, warmUp, first, final]

/-- The name of a pass, as reports show it. -/
def name : Pass → String
  | includes => "include"
  | macros => "macro"
  | gather => "gather"
  | warmUp => "warm-up"
  | first => "first"
  | final => "final"

/-- From the first pass on, reading a symbol without a value is an error. -/
def isStrict : Pass → Bool
  | first => true
  | final => true
  | _ => false

end Pass

end Mos6510
