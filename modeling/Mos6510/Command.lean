import Mos6510.Emulator
import Mos6510.Loader
import Mos6510.Settings.Flags

/-!
# The command

The whole program as a function: from the arguments, the standard input and
the files of the host to what is printed and which files are there afterwards.
-/

namespace Mos6510

/-- A call of the program. -/
structure Command where
  /-- The name it was called by. -/
  program : String
  /-- The working folder, from the root. -/
  work : String
  args : List String
  deriving Inhabited

/-- What a call has done so far. -/
structure Progress where
  disk : Disk
  log : Log := {}
  stdout : List UInt8 := []
  /-- Names of files that were looked at. -/
  looked : List String := []
  deriving Inhabited

/-- A program that is to be run once everything is written. -/
structure Job where
  language : Language
  settings : Settings
  program : Program
  /-- The file that was written. -/
  prg : List UInt8
  deriving Inhabited

/-- The outcome of a call. -/
structure Report where
  exit : Nat
  stdout : List UInt8
  stderr : String
  /-- The files afterwards, and the names of those that were looked at. -/
  progress : Progress
  deriving Inhabited

/-- The steps of a call.  A call that fails says why. -/
abbrev CommandM := EStateM String Progress

namespace Command

/-! ## Usage -/

def flagUsage (f : Flag) : String :=
  let lead := "  -" ++ f.name ++ (if f.valueName.isEmpty then "" else " " ++ f.valueName)
  let gap := if lead.length ≤ 4 then "\t" else "\n    \t"
  let default := if f = .cycles
    then " (default " ++ Text.decimal ({} : Settings).maxCycles.toNat ++ ")" else ""
  lead ++ gap ++ f.help ++ default ++ "\n"

/-- How to use the program. -/
def usage (cmd : Command) : String :=
  "Usage of " ++ cmd.program ++ ":\n" ++ String.join (Flag.all.map flagUsage)

/-! ## Steps -/

/-- Fail with an error after a heading. -/
def failIn {α : Type} (lang : Language) (heading : String) (err : Error) : CommandM α :=
  throw (heading ++ ": " ++ err.message lang)

/-- Add to the log. -/
def note (entry : String) : CommandM Unit :=
  modify fun p => { p with log := p.log.add entry }

/-- Remember that files were looked at. -/
def lookedAt (names : List String) : CommandM Unit :=
  modify fun p => { p with looked := names ++ p.looked }

/-- A file name as seen from the root. -/
def fullName (cmd : Command) (name : String) : String := Path.absolute cmd.work name

/-- Load the settings of a project file. -/
def loadProject (cmd : Command) (name : String) : CommandM Settings := do
  let (folder, base) := Path.split name
  let folder := if folder.isEmpty then "." else folder
  lookedAt [cmd.fullName name]
  let lib := Library.ofDisk (← get).disk cmd.work folder
  match Settings.load lib base with
  | .error err => failIn {} name err
  | .ok s => pure (s.rebaseAll folder)

/-- The settings: those of the project file, changed by the arguments. -/
def settingsOf (cmd : Command) (a : Arguments) : CommandM Settings := do
  let s ← if a.project.isEmpty then pure {} else cmd.loadProject a.project
  pure (s.merge a)

def languageOf (s : Settings) : CommandM Language :=
  if s.language.isEmpty then pure {}
  else match Language.ofTag s.language with
    | .ok lang => pure lang
    | .error fault => throw ("-lang " ++ s.language ++ ": " ++ fault.message)

/-- The folder that sources are read from: the working folder if all names lie
below it, else the root. -/
def rootOf (cmd : Command) (names : List String) : String :=
  if names.all fun n => Path.isLocal (Path.relative cmd.work (cmd.fullName n)) then cmd.work
  else "/"

/-- Definitions as assignments, by name. -/
def defineLines (s : Settings) : List Line :=
  let loc : Location := ⟨"-D", 0⟩
  s.defines.map fun d => ⟨loc, .assign d.1 [Action.load loc d.2]⟩

def assembleSource (s : Settings) (ld : Loader) (name : String) : SessionM Assembly := do
  let defs ← Reader.lower (defineLines s) none
  let acts ← ld.topLevel name
  let asm : Assembler := { verbose := s.verbose, includer := some ld.includer }
  asm.assemble (defs ++ acts)

/-- Do a part of an assembly with the log of the call. -/
def inSession {α : Type} (lang : Language) (root : String) (m : SessionM α) : CommandM α := fun p =>
  let after := fun (s : Session) => { p with
    log := s.log
    looked := s.missed.map (Library.fullName root) ++ p.looked }
  match m { log := p.log } with
  | .ok a s => .ok a (after s)
  | .error err s => .error (err.message lang) (after s)

/-- Assemble the source to a program. -/
def assemble (cmd : Command) (lang : Language) (s : Settings) (source : String) :
    CommandM Program := do
  let root := cmd.rootOf (source :: s.includeFolders)
  let below := fun name => Path.relative root (cmd.fullName name)
  let ld : Loader :=
    { verbose := s.verbose
      library := Library.ofDisk (← get).disk cmd.work root
      folders := s.includeFolders.map below
      reader := { verbose := s.verbose, defines := s.defines } }
  let assembly ← inSession lang root (assembleSource s ld (below source))
  let prog := assembly.program
  if s.verbose then
    for name in prog.unused do
      note ("warning: variable '" ++ name ++ "' is never read")
  pure prog

/-- Write a file. -/
def save (cmd : Command) (lang : Language) (name : String) (bytes : List UInt8) :
    CommandM Unit := fun p =>
  let (folder, inner) :=
    if Path.isRooted name then ("/", Path.relative "/" name) else (".", name)
  let full := cmd.fullName name
  -- all folders above the file were looked at, whether or not it can be written
  let p := { p with
    looked := (Disk.upward (Path.cleanElements full)).map (Path.ofElements true) ++ p.looked }
  match Disk.save cmd.work folder inner bytes p.disk with
  | .ok _ d => .ok () { p with disk := d }
  | .error err d => failIn lang name err { p with disk := d }

/-- Report an image that was written. -/
def noteImage (name : String) (img : Image) : CommandM Unit := do
  note ("code: " ++ Text.decimal img.code ++ " bytes, data: " ++ Text.decimal img.data
    ++ " bytes, padding: " ++ Text.decimal img.padding ++ " bytes")
  note (name ++ ": $" ++ Text.hex 4 img.start.toNat ++ "-$" ++ Text.hex 4 img.last.toNat ++ ", "
    ++ Text.decimal img.size ++ " bytes, " ++ Text.decimal img.blocks ++ " blocks")

/-- Assemble a source file and write what is asked for.  The job is there if
the program is to be run. -/
def process (cmd : Command) (a : Arguments) (source : String) : CommandM (Option Job) := do
  let s ← cmd.settingsOf a
  let lang ← languageOf s
  let s := if s.output.isEmpty
    then { s with output := Path.withoutExtension source ++ ".prg" } else s
  let prog ← cmd.assemble lang s source
  match Image.link prog.regions with
  | .error err => failIn lang source err
  | .ok img =>
    cmd.save lang s.output img.prg
    if !s.listing.isEmpty then
      cmd.save lang s.listing (Listing.ofProgram prog).render.toUTF8.toList
    noteImage s.output img
    -- the program runs after both files are written
    pure (if s.emulate || s.emulateVerbose then some ⟨lang, s, prog, img.prg⟩ else none)

/-- Do what the arguments after the flags ask for. -/
def carryOut (cmd : Command) (a : Arguments) (rest : List String) : CommandM (Option Job) :=
  match rest with
  | [source] => cmd.process a source
  | names =>
    throw (cmd.program ++ ": expected one source file, got [" ++ " ".intercalate names ++ "]")

/-! ## Calls -/

/-- The report on steps that are over. -/
def report {α : Type} : EStateM.Result String Progress α → Report
  | .ok _ p => ⟨0, p.stdout, p.log.text, p⟩
  | .error reason p => ⟨1, p.stdout, (p.log.add reason).text, p⟩

/-- A call up to where a program is run. -/
inductive Stage where
  | done (r : Report)
  | pending (job : Job) (p : Progress)
  deriving Inhabited

/-- What the files were, and which were looked at, at a stage. -/
def Stage.progress : Stage → Progress
  | done r => r.progress
  | pending _ p => p

/-- Read the arguments, assemble, and write files.  The standard input is not
read for this. -/
def prepare (cmd : Command) (disk : Disk) : Stage :=
  let (a, rest, err) := Arguments.read Flag.all {} cmd.args
  match err with
  | some .help => .done ⟨0, [], cmd.usage, { disk := disk }⟩
  | some err => .done ⟨2, [], err.message {} ++ "\n" ++ cmd.usage, { disk := disk }⟩
  | none =>
    match cmd.carryOut a rest { disk := disk } with
    | .ok (some job) p => .pending job p
    | r => .done (report r)

/-- Run a program with an input. -/
def emulate (job : Job) (stdin : List UInt8) : CommandM Unit := fun p =>
  let e : Emulator := { Emulator.fresh.know job.program with
    verbose := job.settings.emulateVerbose
    maxCycles := job.settings.maxCycles
    tape := { input := stdin }
    log := p.log }
  match Emulator.load job.prg e with
  | .error err _ => failIn job.language job.settings.output err p
  | .ok start e =>
    let after := fun (e : Emulator) => { p with
      log := e.log
      stdout := p.stdout ++ e.tape.output ++ [Tape.newline] }
    match Emulator.run false start e with
    -- output up to the failure is shown all the same
    | .error err e => .error (err.message job.language) (after e)
    | .ok _ e => note e.runLine (after e)

/-- The rest of a call, with its standard input. -/
def Stage.finish (stdin : List UInt8) : Stage → Report
  | done r => r
  | pending job p => report (emulate job stdin p)

/-- The whole call: on the files of the host, with a standard input. -/
def run (cmd : Command) (disk : Disk) (stdin : List UInt8) : Report :=
  (cmd.prepare disk).finish stdin

end Command

end Mos6510
