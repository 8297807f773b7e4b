import Mos6510.Files.Library
import Mos6510.Text.Blank
import Mos6510.Text.Digits
import Mos6510.Text.Upper
import Mos6510.Text.Utf8
import Mos6510.Toml.Document

/-!
# Settings

The settings of an assembly, from a project file and from the command line.
-/

namespace Mos6510

/-- Put an entry into a list that is ordered by name, in place of one with the
same name. -/
def insertByName {α : Type} (name : String) (value : α) :
    List (String × α) → List (String × α)
  | [] => [(name, value)]
  | e :: rest =>
    if name == e.1 then (name, value) :: rest
    else if name < e.1 then (name, value) :: e :: rest
    else e :: insertByName name value rest

/-- The settings of an assembly. -/
structure Settings where
  /-- The image to write. -/
  output : String := ""
  /-- The listing to write. -/
  listing : String := ""
  /-- Run the program after assembly. -/
  emulate : Bool := false
  /-- Report every emulated instruction. -/
  emulateVerbose : Bool := false
  /-- Search folders for included files. -/
  includeFolders : List String := []
  /-- Variables set in advance, by name. -/
  defines : List (String × Int64) := []
  /-- The tag of the language of messages. -/
  language : String := ""
  /-- Budget of an emulation. -/
  maxCycles : UInt64 := 100000000
  /-- Report the passes of an assembly. -/
  verbose : Bool := false
  deriving DecidableEq, Repr, Inhabited

namespace Settings

/-! ## Definitions -/

/-- What follows a dollar sign. -/
def afterDollar? : List Char → Option (List Char)
  | '$' :: rest => some rest
  | _ => none

/-- The value of a definition: after a dollar sign in hex, else in the base
that its lead says. -/
def defineValue (cs : List Char) : Except Error Int64 :=
  let (base, digits) := match afterDollar? cs with
    | some digits => (some 16, digits)
    | none => (none, cs)
  match Text.readInteger base digits with
  | .ok v => .ok v
  | .error fault => .error (.inNumeral (String.ofList digits) (.badNumeral fault))

/-- Read a definition `NAME=VALUE`.  The name is taken in upper case. -/
def readDefine (text : String) : Except Error (String × Int64) :=
  let cs := text.toList
  let name := Text.trimChars (cs.takeWhile (· != '='))
  match cs.dropWhile (· != '=') with
  | [] => .error (.inDefine text .defineForm)
  | _ :: value =>
    if name.isEmpty then .error (.inDefine text .defineForm)
    else match defineValue (Text.trimChars value) with
      | .ok v => .ok (Text.upper (String.ofList name), v)
      | .error err => .error (.inDefine text err)

/-! ## Project files -/

/-- The keys of a project file. -/
inductive Key where
  | output
  | listing
  | emulate
  | emulateVerbose
  | includePaths
  | defines
  | language
  | maxCycles
  | verbose
  deriving DecidableEq, Repr, Inhabited

namespace Key

def all : List Key :=
  [output, listing, emulate, emulateVerbose, includePaths, defines, language, maxCycles,
    verbose]

/-- A key as it is written. -/
def name : Key → String
  | output => "output"
  | listing => "listing"
  | emulate => "emulate"
  | emulateVerbose => "emulate_verbose"
  | includePaths => "include_paths"
  | defines => "defines"
  | language => "language"
  | maxCycles => "max_cycles"
  | verbose => "verbose"

/-- A character without its case.  The long s is a form of the letter s. -/
def plain (c : Char) : Char := if c == 'ſ' then 's' else c.toLower

/-- The key of a name, whatever its case. -/
def ofName? (s : String) : Option Key :=
  all.find? fun k => k.name.toList == s.toList.map plain

end Key

/-- The definitions of a table; all have to be integers. -/
def definesOf : Toml.Table → Option (List (String × Int64))
  | [] => some []
  | (name, .scalar (.int n)) :: rest => (definesOf rest).map ((name, n) :: ·)
  | _ => none

/-- The texts among values; all have to be texts. -/
def textsOf : List Toml.Node → Option (List String)
  | [] => some []
  | .scalar (.text s) :: rest => (textsOf rest).map (s :: ·)
  | _ => none

/-- Add definitions, which replace those of the same name. -/
def define (s : Settings) (ds : List (String × Int64)) : Settings :=
  { s with defines := ds.foldl (fun all d => insertByName d.1 d.2 all) s.defines }

/-- Set a key to a value of its type.  Definitions that are no table are passed
by. -/
def setKey? (s : Settings) : Key → Toml.Node → Option Settings
  | .output, .scalar (.text t) => some { s with output := t }
  | .listing, .scalar (.text t) => some { s with listing := t }
  | .emulate, .scalar (.bool b) => some { s with emulate := b }
  | .emulateVerbose, .scalar (.bool b) => some { s with emulateVerbose := b }
  | .includePaths, .array items => (textsOf items).map fun ts => { s with includeFolders := ts }
  | .defines, .table entries => (definesOf entries).map s.define
  | .defines, _ => some s
  | .language, .scalar (.text t) => some { s with language := t }
  | .maxCycles, .scalar (.int n) => some { s with maxCycles := n.toUInt64 }
  | .verbose, .scalar (.bool b) => some { s with verbose := b }
  | _, _ => none

/-- Set what a name at the top of a document stands for.  Unknown names are
passed over. -/
def setNode? (s : Settings) (name : String) (node : Toml.Node) : Option Settings :=
  match Key.ofName? name with
  | none => some s
  | some key => s.setKey? key node

/-- The keys that an entry at the top of a document makes use of: its own, and
those of definitions. -/
def usedKeys (e : String × Toml.Node) : List (List String) :=
  match Key.ofName? e.1, e.2 with
  | none, _ => []
  | some .defines, .table entries => [e.1] :: entries.map fun d => [e.1, d.1]
  | some _, _ => [[e.1]]

/-- A character of a quoted part of a key. -/
def quotedChar : Char → List Char
  | '"' => ['\\', '"']
  | '\\' => ['\\', '\\']
  | '\x08' => ['\\', 'b']
  | '\t' => ['\\', 't']
  | '\n' => ['\\', 'n']
  | '\x0c' => ['\\', 'f']
  | '\r' => ['\\', 'r']
  | c =>
    if Toml.isControl c then
      '\\' :: 'u' :: Text.zeroPad 4 (Text.digits Text.lowerDigit 16 c.toNat)
    else [c]

/-- A part of a key as messages show it, in quotes if it needs them. -/
def showPart (k : String) : String :=
  if !k.isEmpty && k.toList.all Toml.isBare then k
  else String.ofList ('"' :: k.toList.flatMap quotedChar ++ ['"'])

/-- The error of a project file that is malformed or has a value of the wrong
type. -/
def broken : Except Error Settings := .error (.badDocument "invalid document")

/-- Read a project file over the settings that are built in. -/
def ofText (text : String) : Except Error Settings :=
  match Toml.Document.ofText? text with
  | none => broken
  | some doc =>
    match doc.top.foldl (fun s e => s.bind fun s => s.setNode? e.1 e.2) (some {}) with
    | none => broken
    | some s =>
      let used := doc.top.flatMap usedKeys
      match doc.keys.reverse.find? fun k => !used.contains k with
      | some key => .error (.unknownKey (".".intercalate (key.map showPart)))
      | none => .ok s

/-- A name in a project file as seen from outside. -/
def rebase (folder name : String) : String :=
  if name.isEmpty || Path.isRooted name then name else Path.join folder name

/-- All names of a project file as seen from outside. -/
def rebaseAll (s : Settings) (folder : String) : Settings :=
  { s with
    output := rebase folder s.output
    listing := rebase folder s.listing
    includeFolders := s.includeFolders.map (rebase folder) }

/-- The bytes after a mark of byte order. -/
def afterOrderMark : List UInt8 → List UInt8
  | 0xFE :: 0xFF :: rest => rest
  | 0xFF :: 0xFE :: rest => rest
  | 0xEF :: 0xBB :: 0xBF :: rest => rest
  | bytes => bytes

/-- Read the bytes of a project file, which have to be well formed. -/
def ofBytes (bytes : List UInt8) : Except Error Settings :=
  let glyphs := Text.Glyph.ofBytes (afterOrderMark bytes)
  if glyphs.all Text.Glyph.isChar then ofText (Text.Glyph.toText glyphs) else broken

/-- Load a project file.  Names in it are relative to its folder. -/
def load (lib : Library) (name : String) : Except Error Settings := do
  let bytes ← lib.binary name
  match ofBytes bytes with
  | .ok s => .ok (s.rebaseAll (Path.folderOf name))
  | .error err => .error (.inFile name err)

end Settings

end Mos6510
