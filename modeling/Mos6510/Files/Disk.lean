import Mos6510.Error
import Mos6510.Files.Path

/-!
# The files of the host

A snapshot of the host's folders and files.  Every entry is found by the
elements of its name from the root, and the folders above it are entries as
well.
-/

namespace Mos6510

/-- What a name stands for. -/
inductive Entry where
  | folder
  | file (bytes : List UInt8)
  deriving DecidableEq, Repr, Inhabited

def Entry.isFolder : Entry → Bool
  | folder => true
  | file _ => false

/-- Folders and files by their elements. -/
structure Disk where
  entries : List (List String × Entry) := []
  deriving DecidableEq, Repr, Inhabited

namespace Disk

/-- What is at a place.  The root is always there. -/
def at? (d : Disk) (place : List String) : Option Entry :=
  if place.isEmpty then some .folder else d.entries.lookup place

def put (d : Disk) (place : List String) (e : Entry) : Disk :=
  ⟨(place, e) :: d.entries.filter fun x => x.1 != place⟩

/-- The places above a place, nearest first, with itself. -/
def upward (place : List String) : List (List String) :=
  (List.range (place.length + 1)).reverse.map fun n => place.take n

/-- Make folders where nothing is, from a place upward. -/
def makeFolders (d : Disk) (place : List String) : Disk :=
  (upward place).foldl
    (fun d p => if (d.at? p).isSome then d else d.put p .folder) d

/-- Put a file with the folders above it, whatever was there. -/
def install (d : Disk) (place : List String) (bytes : List UInt8) : Disk :=
  (d.makeFolders place.dropLast).put place (.file bytes)

/-- The place of a name; names that do not start at the root are seen from
the working folder. -/
def placeOf (work name : String) : List String :=
  Path.cleanElements (Path.absolute work name)

/-- Names that the host takes nowhere: a name has no NUL and fits in 4095
bytes. -/
def nameFault? (name : String) : Option FileFault :=
  if name.toList.contains (Char.ofNat 0) then some (.host "invalid argument")
  else if 4095 < name.utf8ByteSize then some (.host "file name too long")
  else none

/-- An element of a name fits in 255 bytes. -/
def isTooLong (elem : String) : Bool := 255 < elem.utf8ByteSize

/-- Follow elements from a place, folder by folder, or say what stops it. -/
def follow (d : Disk) : List String → List String → Except FileFault Entry
  | place, [] =>
    match d.at? place with
    | some e => .ok e
    | none => .error .hostMissing
  | place, elem :: rest =>
    match d.at? place with
    | none => .error .hostMissing
    | some (.file _) => .error (.host "not a directory")
    | some .folder =>
      if isTooLong elem then .error (.host "file name too long")
      else d.follow (place ++ [elem]) rest

/-- Look at a name, or say why nothing is there. -/
def look (d : Disk) (work name : String) : Except FileFault Entry :=
  match nameFault? name with
  | some fault => .error fault
  | none => d.follow [] (placeOf work name)

def inOrder : List String → List String → Bool
  | [], _ => true
  | _ :: _, [] => false
  | a :: as, b :: bs => if a == b then inOrder as bs else decide (a < b)

/-- All entries, each folder before what is in it, by name within a folder. -/
def walk (d : Disk) : List (List String × Entry) :=
  d.entries.mergeSort fun a b => inOrder a.1 b.1

end Disk

abbrev DiskM := EStateM Error Disk

namespace Disk

/-- Fail on a name for a reason of the file system. -/
def refuse {α : Type} (operation name : String) (fault : FileFault) : DiskM α :=
  throw (.onPath operation name (.fileFault fault))

/-- The name of a file seen from a folder of the host. -/
def nameIn (folder name : String) : String := Path.join folder name

def enter (work folder name : String) : DiskM String := do
  let full := nameIn folder name
  match (← get).look work full with
  | .error fault => refuse "stat" full fault
  | .ok (.file _) => refuse "sub" name .notDirectory
  | .ok .folder => pure full

/-- Write a file in a folder that is there. -/
def create (work folder name : String) (bytes : List UInt8) : DiskM Unit := do
  let full := nameIn folder name
  let place := placeOf work full
  let d ← get
  match d.look work full with
  | .ok .folder => refuse "open" full (.host "is a directory")
  | .ok (.file _) => set (d.put place (.file bytes))
  | .error .hostMissing =>
    match d.follow [] place.dropLast with
    | .ok _ => set (d.put place (.file bytes))
    | .error fault => refuse "open" full fault
  | .error fault => refuse "open" full fault

/-- Make one folder, whose name is the front of a longer one, in a folder
that is there. -/
def makeOne (name : String) (place : List String) : DiskM Unit := do
  match nameFault? name with
  | some fault => refuse "mkdir" name fault
  | none =>
    if isTooLong (place.getLastD "") then refuse "mkdir" name (.host "file name too long")
    else modify fun d => d.put place .folder

/-- The front of a name without its last elements.  A front that is not the
whole name ends with a slash. -/
def front (name : String) (dropped : Nat) : String :=
  let elems := Path.elements name
  if dropped == 0 then name
  else "/".intercalate (elems.take (elems.length - dropped)) ++ "/"

def makeFolder (work folder name : String) : DiskM Unit := do
  let full := nameIn folder name
  let place := placeOf work full
  let d ← get
  let there := ((upward place).find? fun p => (d.at? p).isSome).getD []
  let new := (upward place).reverse.filter fun p => there.length < p.length
  if (d.at? there) == some .folder then
    for p in new do
      makeOne (front full (place.length - p.length)) p
  else if new.isEmpty then refuse "mkdir" full (.host "not a directory")
  else refuse "mkdir" (front full (place.length - there.length)) (.host "file exists")

/-- Is the reason that nothing is there? -/
def isMissing : Error → Bool
  | .onPath _ _ (.fileFault .hostMissing) => true
  | _ => false

/-- Write a file, and make its folder if there is none. -/
def save (work folder name : String) (bytes : List UInt8) : DiskM Unit := do
  let (dir, base) := Path.split name
  if dir.isEmpty then create work folder base bytes
  else
    let dir := Path.clean dir
    let inner ← tryCatch (enter work folder dir) fun err =>
      if isMissing err then do
        makeFolder work folder dir
        enter work folder dir
      else throw err
    create work inner base bytes

end Disk

end Mos6510
