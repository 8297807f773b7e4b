import Mos6510.Files.Library
import Mos6510.Source

/-!
# Loading files for an assembly

A name is looked up in the folder of the including file first, then in each of
the search folders.  A file must not include itself, directly or through
others; it may be included any number of times otherwise.
-/

namespace Mos6510

/-- How included files are found and read. -/
structure Loader where
  /-- Report each file. -/
  verbose : Bool := false
  library : Library
  /-- Search folders. -/
  folders : List String := []
  reader : Reader := {}

namespace Loader

/-- The folders in which a name is looked up. -/
def foldersFrom (ld : Loader) (loc : Location) : List String :=
  (if loc.file.isEmpty then "." else Path.folderOf loc.file) :: ld.folders

/-- The names that a name may stand for. -/
def candidates (folders : List String) (name : String) : List String :=
  (folders.map fun dir => Path.join dir name).filter Path.isBelow

/-- The first candidate that is there, and those before it. -/
def pick (ld : Loader) : List String → List String × Option String
  | [] => ([], none)
  | c :: rest =>
    if ld.library.has c then ([], some c)
    else
      let (missed, found) := ld.pick rest
      (c :: missed, found)

/-- Find the file that a name stands for at a location. -/
def resolve (ld : Loader) (name : String) (loc : Location) : SessionM String := fun s =>
  let folders := ld.foldersFrom loc
  let (missed, found) := ld.pick (candidates folders name)
  let s := { s with missed := missed.reverse ++ s.missed }
  match found with
  | some file => .ok file s
  | none => .error (.notFound name folders) s

/-- Is a file `at`, or one of the files that led to including it?  No chain of
includers is longer than their number. -/
def leadsTo (includers : List (String × String)) (file : String) : Nat → String → Bool
  | 0, _ => false
  | fuel + 1, current =>
    if current.isEmpty then false
    else current == file || leadsTo includers file fuel ((includers.lookup current).getD "")

/-- Report that a file is read. -/
def noteReading (ld : Loader) (loc : Location) (file : String) : SessionM Unit := fun s =>
  .ok () { s with log := s.log.addIf ld.verbose (loc.render ++ ": reading " ++ file) }

/-- Read a source file included from a location. -/
def source (ld : Loader) (name : String) (loc : Location) : SessionM (List Action) := do
  let file ← ld.resolve name loc
  let s ← get
  -- a chain without repetition is no longer than the table of includers, plus one
  if leadsTo s.includers file (s.includers.length + 1) loc.file then
    throw (.includeCycle file)
  else
    modify fun s => { s with includers := (file, loc.file) :: s.includers }
    ld.noteReading loc file
    match ld.library.source file with
    | .error err => throw err
    | .ok bytes => ld.reader.actions file (Text.Glyph.ofBytes bytes)

/-- Read a binary file included from a location. -/
def binary (ld : Loader) (name : String) (loc : Location) : SessionM (List UInt8) := do
  let file ← ld.resolve name loc
  ld.noteReading loc file
  match ld.library.binary file with
  | .error err => throw err
  | .ok bytes => pure bytes

/-- Read the top level source file. -/
def topLevel (ld : Loader) (name : String) : SessionM (List Action) := ld.source name {}

/-- Included files come from the loader. -/
def includer (ld : Loader) : Includer := { source := ld.source, binary := ld.binary }

end Loader

end Mos6510
