import Mos6510.Action
import Mos6510.Text.Numeral

/-!
# Errors

Everything that can go wrong, from reading a source file to running the
program, is a value of `Error`.  An error is a cause, or another error with
the place where it came up: a source location, a macro call, an address.
-/

namespace Mos6510

/-- The structured blocks of the source. -/
inductive BlockKind where
  | condition
  | repetition
  | loop
  | definition
  deriving DecidableEq, Repr, Inhabited

def BlockKind.all : List BlockKind := [.condition, .repetition, .loop, .definition]

/-- The directive that opens a block. -/
def BlockKind.name : BlockKind → String
  | .condition => ".IF"
  | .repetition => ".REP"
  | .loop => ".WHILE"
  | .definition => ".MACRO"

/-- Why the file system refused. -/
inductive FileFault where
  /-- An in-memory file system has no such file. -/
  | missing
  /-- The operation makes no sense for what is there. -/
  | invalid
  /-- A directory was expected. -/
  | notDirectory
  /-- The host has no such file. -/
  | hostMissing
  /-- The host refuses for the reason given. -/
  | host (reason : String)
  deriving DecidableEq, Repr, Inhabited

/-- What went wrong. -/
inductive Error where
  -- Evaluation
  | stackEmpty
  | stackFull
  | divisionByZero
  | pcUnset
  -- Encoding
  | illegalMode
  | pcWrap
  | regionOverflow
  | unknownMnemonic (name : String)
  | branchReach (distance : Int64)
  -- Structure
  | macroNesting
  | callInMacro
  | includeInMacro
  | duplicateElse
  | elseIfAfterElse
  | metaAction
  | metaExecuted (kind : OpKind)
  | noIncluder
  | includeDepth
  | loopLimit
  | notConverged
  | messageFormat
  | blockMismatch (opened : Option BlockKind) (directive : String)
  | blockUnclosed (kind : BlockKind)
  -- Symbols
  | undefinedSymbol (name : String)
  | uninitialized (name : String)
  | duplicateLabel (name : String)
  | conflict (name : String)
  | localWithoutParent (name : String)
  | unknownMetaLabel (name : String)
  | duplicateMetaLabel (name : String)
  | unknownMacro (name : String)
  | duplicateMacro (name : String)
  | macroArgs (name : String) (expected got : Nat)
  | unknownJump (jump : Int)
  | unknownCounter (counter : Int)
  -- The program's own
  | user (text : String)
  -- Source text
  | openString
  | openScript
  | expressionExpected
  | closeExpected
  | commaExpected
  | identifierExpected
  | stringExpected
  | assignExpected
  | indexXExpected
  | indexYExpected
  | indexExpected
  | emptyDirective
  | notInteger
  | messageArgs
  | badNumber (digits : String)
  | badEscape (c : Char)
  | badCharacter (c : Char)
  | reservedName (name : String)
  | unknownDirective (name : String)
  | unexpected (token : String)
  | localParameter (name : String)
  | scriptFailed (reason : String)
  -- Images
  | emptyImage
  | shortImage
  | overlap (address : UInt16)
  -- Emulation
  | jammed
  | imageTooLarge
  | cycleLimit (cycles : UInt64)
  | illegalOpcode (code : UInt8)
  | tapeFull
  | cancelled
  -- Files
  | includeCycle (name : String)
  | notFound (name : String) (folders : List String)
  | fileFault (fault : FileFault)
  -- Options
  | defineForm
  | unknownKey (key : String)
  | badDocument (reason : String)
  | badNumeral (fault : Text.NumeralFault)
  -- Where it came up
  | located (loc : Location) (err : Error)
  | expanding (name : String) (call : Location) (err : Error)
  | inSource (loc : Location) (err : Error)
  | inScript (text : String) (err : Error)
  | running (address : UInt16) (loc : Location) (err : Error)
  | inFile (name : String) (err : Error)
  | onPath (operation path : String) (err : Error)
  | inDefine (text : String) (err : Error)
  | inNumeral (digits : String) (err : Error)
  deriving DecidableEq, Repr, Inhabited

namespace Error

/-- The error inside an error that says where it came up. -/
def inner? : Error → Option Error
  | located _ e => some e
  | expanding _ _ e => some e
  | inSource _ e => some e
  | inScript _ e => some e
  | running _ _ e => some e
  | inFile _ e => some e
  | onPath _ _ e => some e
  | inDefine _ e => some e
  | inNumeral _ e => some e
  | _ => none

/-- An error and all errors inside it, outermost first. -/
def chain : Error → List Error
  -- each wrapper, then what it holds, down to the cause
  | e@(located _ i) => e :: i.chain
  | e@(expanding _ _ i) => e :: i.chain
  | e@(inSource _ i) => e :: i.chain
  | e@(inScript _ i) => e :: i.chain
  | e@(running _ _ i) => e :: i.chain
  | e@(inFile _ i) => e :: i.chain
  | e@(onPath _ _ i) => e :: i.chain
  | e@(inDefine _ i) => e :: i.chain
  | e@(inNumeral _ i) => e :: i.chain
  | e => [e]

/-- Does the error itself give a location? -/
def isLocated : Error → Bool
  | located _ _ => true
  | _ => false

/-- Does the error itself name a macro call? -/
def isExpanding : Error → Bool
  | expanding _ _ _ => true
  | _ => false

/-- Give an error a location, unless there is one in it already. -/
def atLocation (loc : Location) (e : Error) : Error :=
  if e.chain.any isLocated then e else located loc e

/-- Give an error the location of the action that raised it, and the macro
call if the action was instantiated from a macro; neither is given twice. -/
def atAction (a : Action) (e : Error) : Error :=
  let e := e.atLocation a.location
  match a.expansion with
  | none => e
  | some x => if e.chain.any isExpanding then e else expanding x.name x.call e

end Error

end Mos6510
