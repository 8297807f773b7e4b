import Mos6510.Files.Disk

/-!
# Libraries of source files

A library is what source and binary files are read from, by names below its
root: files held in memory, or a folder of the host.
-/

namespace Mos6510

/-- Where files are read from. -/
structure Library where
  /-- Is there a file or folder of this name? -/
  has : String → Bool
  /-- The contents of a file that is read as source. -/
  source : String → Except Error (List UInt8)
  /-- The contents of a file that is read at once. -/
  binary : String → Except Error (List UInt8)

namespace Library

/-! ## Files in memory -/

/-- Does the name of a file lie in the folder? -/
def liesIn (folder name : String) : Bool :=
  (folder ++ "/").toList.isPrefixOf name.toList

/-- What a name stands for among files in memory.  A folder is there when some
file lies in it. -/
def lookIn (files : List (String × List UInt8)) (name : String) : Option Entry :=
  if !Path.isBelow name then none
  else match files.lookup name with
    | some bytes => some (.file bytes)
    | none =>
      if name == "." || files.any (fun f => liesIn name f.1) then some .folder else none

def readIn (files : List (String × List UInt8)) (name : String) : Except Error (List UInt8) :=
  match lookIn files name with
  | some (.file bytes) => .ok bytes
  | some .folder => .error (.onPath "read" name (.fileFault .invalid))
  | none => .error (.onPath "open" name (.fileFault .missing))

def ofFiles (files : List (String × List UInt8)) : Library :=
  { has := fun name => (lookIn files name).isSome
    source := readIn files
    binary := readIn files }

/-! ## Folders of the host -/

/-- The full name of a file below a root of the host. -/
def fullName (root name : String) : String :=
  if root.toList.getLast? == some '/' then root ++ name else root ++ "/" ++ name

/-- Names that can be asked for below a root of the host. -/
def isReachable (name : String) : Bool :=
  Path.isBelow name && !name.toList.contains (Char.ofNat 0)

/-- Read a file below a root of the host.  The errors of opening a file name
it as seen from the root; `shown` is how a folder is named that was opened
like a file. -/
def readBelow (d : Disk) (work root name shown : String) : Except Error (List UInt8) :=
  if !isReachable name then .error (.onPath "readfile" name (.fileFault .invalid))
  else match d.look work (fullName root name) with
    | .ok (.file bytes) => .ok bytes
    | .ok .folder => .error (.onPath "read" shown (.fileFault (.host "is a directory")))
    | .error fault => .error (.onPath "open" name (.fileFault fault))

def ofDisk (d : Disk) (work root : String) : Library :=
  { has := fun name =>
      isReachable name && (d.look work (fullName root name)).isOk
    source := fun name => readBelow d work root name (fullName root name)
    binary := fun name => readBelow d work root name name }

end Library

end Mos6510
