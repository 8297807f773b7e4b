import Mos6510.Error.Message
import Mos6510.Settings

/-!
# Command line flags

A flag is written `-name` or `--name`.  A switch stands alone or takes a value
after an equals sign; every other flag takes a value after an equals sign or as
the next argument.  Flags end before the first argument that is none, or after
`--`.
-/

namespace Mos6510

/-- The flags of the command line. -/
inductive Flag where
  | define
  | includeFolder
  | project
  | cycles
  | emulate
  | trace
  | listing
  | language
  | output
  | verbose
  deriving DecidableEq, Repr, Inhabited

namespace Flag

def all : List Flag :=
  [define, includeFolder, project, cycles, emulate, trace, listing, language, output, verbose]

/-- The flags that stand for settings; a project file is no setting itself. -/
def settings : List Flag := all.filter (· != project)

def name : Flag → String
  | define => "D"
  | includeFolder => "I"
  | project => "c"
  | cycles => "cycles"
  | emulate => "e"
  | trace => "ev"
  | listing => "l"
  | language => "lang"
  | output => "o"
  | verbose => "v"

/-- Does the flag take no value of its own? -/
def isSwitch : Flag → Bool
  | emulate | trace | verbose => true
  | _ => false

def help : Flag → String
  | define => "Define NAME=VALUE (repeatable)"
  | includeFolder => "Include search directory (repeatable)"
  | project => "TOML project file"
  | cycles => "Emulation cycle limit, 0 for none"
  | emulate => "Emulate the program after assembly"
  | trace => "Trace every emulated instruction"
  | listing => "Listing file to write"
  | language => "Message language"
  | output => "PRG file to write"
  | verbose => "Verbose mode"

/-- What kind of value the flag takes. -/
def valueName : Flag → String
  | define | includeFolder => "value"
  | cycles => "uint"
  | emulate | trace | verbose => ""
  | _ => "string"

/-- The value of a flag in settings, as text. -/
def valueIn (s : Settings) (project : String) : Flag → String
  | .define => ",".intercalate (s.defines.map fun d => d.1 ++ "=" ++ Text.decimal d.2.toInt)
  | .includeFolder => ",".intercalate s.includeFolders
  | .project => project
  | .cycles => Text.decimal s.maxCycles.toNat
  | .emulate => if s.emulate then "true" else "false"
  | .trace => if s.emulateVerbose then "true" else "false"
  | .listing => s.listing
  | .language => s.language
  | .output => s.output
  | .verbose => if s.verbose then "true" else "false"

end Flag

/-- What the arguments said. -/
structure Arguments where
  /-- The settings with the values of flags. -/
  settings : Settings := {}
  /-- The project file. -/
  project : String := ""
  /-- The flags that were given. -/
  given : List Flag := []
  deriving Inhabited

/-- Why arguments cannot be read. -/
inductive FlagError where
  /-- Not written like a flag. -/
  | form (arg : String)
  | unknown (name : String)
  /-- The user asked how to use the program. -/
  | help
  | missingValue (name : String)
  | badSwitch (name value : String)
  | badNumber (name value : String) (fault : Text.NumeralFault)
  | badDefine (name value : String) (err : Error)
  deriving DecidableEq, Repr, Inhabited

def FlagError.message (lang : Language) : FlagError → String
  | form arg => "bad flag syntax: " ++ arg
  | unknown name => "flag provided but not defined: -" ++ name
  | help => "flag: help requested"
  | missingValue name => "flag needs an argument: -" ++ name
  | badSwitch name value =>
    "invalid boolean value " ++ Text.quote false value ++ " for -" ++ name ++ ": parse error"
  | badNumber name value fault =>
    "invalid value " ++ Text.quote false value ++ " for flag -" ++ name ++ ": "
      ++ match fault with
        | .malformed => "parse error"
        | .outOfRange => "value out of range"
  | badDefine name value err =>
    "invalid value " ++ Text.quote false value ++ " for flag -" ++ name ++ ": "
      ++ err.message lang

namespace Arguments

/-- The truth value of a text. -/
def truthOf? (s : String) : Option Bool :=
  if ["1", "t", "T", "true", "TRUE", "True"].contains s then some true
  else if ["0", "f", "F", "false", "FALSE", "False"].contains s then some false
  else none

/-- Note that a flag was given. -/
def give (a : Arguments) (f : Flag) : Arguments :=
  { a with given := f :: a.given.filter (· != f) }

def setSwitch (s : Settings) (f : Flag) (b : Bool) : Settings :=
  match f with
  | .emulate => { s with emulate := b }
  | .trace => { s with emulateVerbose := b }
  | .verbose => { s with verbose := b }
  | _ => s

/-- Take in a switch.  After a value that is none, the switch is off. -/
def addSwitch (a : Arguments) (f : Flag) (value : String) : Arguments × Option FlagError :=
  match truthOf? value with
  | some b => ({ a with settings := setSwitch a.settings f b }.give f, none)
  | none =>
    ({ a with settings := setSwitch a.settings f false }, some (.badSwitch f.name value))

/-- Take in the cycle limit.  After a value that is none, the limit is zero, or
the largest there is if the value is too large. -/
def addCycles (a : Arguments) (value : String) : Arguments × Option FlagError :=
  let limit := fun n : UInt64 => { a with settings := { a.settings with maxCycles := n } }
  match Text.readNatural none value.toList with
  | .ok n => ((limit n.toUInt64).give .cycles, none)
  | .error .malformed => (limit 0, some (.badNumber Flag.cycles.name value .malformed))
  | .error .outOfRange =>
    (limit (0 - 1), some (.badNumber Flag.cycles.name value .outOfRange))

def addValue (a : Arguments) (f : Flag) (value : String) : Arguments × Option FlagError :=
  let s := a.settings
  match f with
  | .define =>
    match Settings.readDefine value with
    | .ok d => ({ a with settings := s.define [d] }.give f, none)
    | .error err => (a, some (.badDefine f.name value err))
  | .includeFolder =>
    ({ a with settings := { s with includeFolders := s.includeFolders ++ [value] } }.give f, none)
  | .project => ({ a with project := value }.give f, none)
  | .cycles => a.addCycles value
  | .listing => ({ a with settings := { s with listing := value } }.give f, none)
  | .language => ({ a with settings := { s with language := value } }.give f, none)
  | .output => ({ a with settings := { s with output := value } }.give f, none)
  | .emulate => a.addSwitch f value
  | .trace => a.addSwitch f value
  | .verbose => a.addSwitch f value

/-- A flag without its dashes: its name, and its value if that is given. -/
def splitFlag (text : List Char) : String × Option String :=
  match text with
  | [] => ("", none)
  | c :: rest =>
    let name := String.ofList (c :: rest.takeWhile (· != '='))
    match rest.dropWhile (· != '=') with
    | [] => (name, none)
    | _ :: value => (name, some (String.ofList value))

/-- An argument without its dashes, if it is written like a flag. -/
def dashed? (arg : String) : Option (List Char) :=
  match arg.toList with
  | '-' :: '-' :: rest => some rest
  | '-' :: c :: rest => some (c :: rest)
  | _ => none

/-- Can the text after the dashes be a flag? -/
def startsFlag : List Char → Bool
  | [] => false
  | c :: _ => c != '-' && c != '='

/-- Take in the flags at the front of the arguments, out of those that are
known here.  The rest are the arguments after them, or after the one that
cannot be read. -/
def read (known : List Flag) (a : Arguments) :
    List String → Arguments × List String × Option FlagError
  | [] => (a, [], none)
  | arg :: rest =>
    match dashed? arg with
    | none => (a, arg :: rest, none)
    | some text =>
      -- two dashes end the flags, and are dropped
      if arg == "--" then (a, rest, none)
      else if !startsFlag text then (a, arg :: rest, some (.form arg))
      else
        let (name, value?) := splitFlag text
        match known.find? fun f => f.name == name with
        | none =>
          (a, rest, some (if name == "help" || name == "h" then .help else .unknown name))
        | some f =>
          if f.isSwitch then
            match a.addSwitch f (value?.getD "true") with
            | (a, none) => read known a rest
            | (a, some err) => (a, rest, some err)
          else
            -- a flag without an equals sign takes the next argument, whatever it looks like
            match value?, rest with
            | some value, rest =>
              match a.addValue f value with
              | (a, none) => read known a rest
              | (a, some err) => (a, rest, some err)
            | none, value :: rest =>
              match a.addValue f value with
              | (a, none) => read known a rest
              | (a, some err) => (a, rest, some err)
            | none, [] => (a, [], some (.missingValue name))

/-- The flags that were given, by name, with their values. -/
def givenValues (a : Arguments) : List (String × String) :=
  (Flag.all.filter a.given.contains).map fun f => (f.name, f.valueIn a.settings a.project)

end Arguments

/-- Bring the setting of one flag from the command line into other settings.
Search folders and definitions are added; all else replaces. -/
def Settings.mergeFlag (cli : Settings) (s : Settings) : Flag → Settings
  | .define => s.define cli.defines
  | .includeFolder => { s with includeFolders := s.includeFolders ++ cli.includeFolders }
  | .project => s
  | .cycles => { s with maxCycles := cli.maxCycles }
  | .emulate => { s with emulate := cli.emulate }
  | .trace => { s with emulateVerbose := cli.emulateVerbose }
  | .listing => { s with listing := cli.listing }
  | .language => { s with language := cli.language }
  | .output => { s with output := cli.output }
  | .verbose => { s with verbose := cli.verbose }

/-- Bring the settings of the given flags into other settings. -/
def Settings.merge (s : Settings) (a : Arguments) : Settings :=
  a.given.foldl (fun s f => a.settings.mergeFlag s f) s

end Mos6510
