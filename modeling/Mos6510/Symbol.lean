import Mos6510.Error

/-!
# Symbols

Variables and labels live in tables of cells.  A name that starts with an
underscore is local: it is qualified by the nearest global label before it.
-/

namespace Mos6510

/-- The value of a symbol, and what happened to it. -/
structure Cell where
  value : Int64 := 0
  /-- Was a value ever assigned? -/
  isSet : Bool := false
  /-- Was the value ever read? -/
  wasRead : Bool := false
  deriving DecidableEq, Repr, Inhabited

def Cell.read (c : Cell) : Cell := { c with wasRead := true }

/-- A cell after an assignment. -/
def Cell.assign (c : Cell) (v : Int64) : Cell := { c with value := v, isSet := true }

/-- Cells by name.  Each name has one entry. -/
structure SymbolTable where
  entries : List (String × Cell) := []
  deriving DecidableEq, Repr, Inhabited

namespace SymbolTable

/-- The cell of a name in a list of entries. -/
def findIn (name : String) : List (String × Cell) → Option Cell
  | [] => none
  | (n, c) :: rest => if n == name then some c else findIn name rest

/-- The cell of a name. -/
@[inline] def find? (t : SymbolTable) (name : String) : Option Cell := findIn name t.entries

/-- Is there a cell of the name? -/
@[inline] def contains (t : SymbolTable) (name : String) : Bool :=
  t.entries.any fun e => e.1 == name

/-- Add a fresh cell. -/
def declare (t : SymbolTable) (name : String) : SymbolTable :=
  ⟨(name, {}) :: t.entries⟩

/-- Change the cell of a name in a list of entries. -/
@[specialize] def updateIn (name : String) (f : Cell → Cell) :
    List (String × Cell) → List (String × Cell)
  | [] => []
  | (n, c) :: rest =>
    if n == name then (n, f c) :: rest else (n, c) :: updateIn name f rest

/-- Change the cell of a name. -/
@[inline] def update (t : SymbolTable) (name : String) (f : Cell → Cell) : SymbolTable :=
  ⟨updateIn name f t.entries⟩

/-- Number of names. -/
def size (t : SymbolTable) : Nat := t.entries.length

/-- The names, latest declaration first. -/
def names (t : SymbolTable) : List String := t.entries.map (·.1)

def values (t : SymbolTable) : List (String × Int64) :=
  t.entries.map fun e => (e.1, e.2.value)

end SymbolTable

/-- The name of the program counter. -/
def pcName : String := "@"

/-- What stands between a parent label and a local name. -/
def localMark : String := "$$"

/-- Is the name local to the label before it? -/
def isLocalName (name : String) : Bool := String.Pos.Raw.get name 0 == '_'

/-- Does one list of characters hold the other as a block? -/
def hasInfix (part : List Char) : List Char → Bool
  | [] => part.isEmpty
  | c :: rest => part.isPrefixOf (c :: rest) || hasInfix part rest

/-- Is the name qualified by a parent label or a macro call? -/
def isQualifiedName (name : String) : Bool := hasInfix localMark.toList name.toList

/-- Labels that scope the local names after them: global ones of the source
itself. -/
def isParentLabel (name : String) (synthetic : Bool) : Bool :=
  !synthetic && !isLocalName name && !isQualifiedName name

/-- The full name of a symbol seen from below a parent label. -/
@[inline] def qualify (name parent : String) : Except Error String :=
  if !isLocalName name then .ok name
  else if parent.isEmpty then .error (.localWithoutParent name)
  else .ok (parent ++ localMark ++ name)

end Mos6510
