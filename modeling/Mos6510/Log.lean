/-!
# The log

Messages of the program and reports of the assembler, in the order in which
they came up.
-/

namespace Mos6510

/-- A log, latest entry first. -/
structure Log where
  entries : List String := []
  deriving DecidableEq, Repr, Inhabited

namespace Log

def add (l : Log) (entry : String) : Log := ⟨entry :: l.entries⟩

/-- Add an entry if it is wanted. -/
def addIf (wanted : Bool) (l : Log) (entry : String) : Log :=
  if wanted then l.add entry else l

/-- An entry ends its line, and no line is ended twice. -/
def line (entry : String) : String :=
  if entry.endsWith '\n' then entry else entry ++ "\n"

def text (l : Log) : String := String.join (l.entries.reverse.map line)

end Log

end Mos6510
