import Mos6510.Code
import Mos6510.Gather
import Mos6510.Program

/-!
# Assembling

An assembly takes a list of actions through its passes: included files are
spliced in, macro calls expanded, symbols gathered; then the actions are
executed three times.  The warm-up pass lets symbols be read before they have
a value, the first pass works with the values it left, and the final pass
produces the program.  The layout of the last two has to agree.
-/

namespace Mos6510

/-- What outlives a single assembly: the numbers given out, the log, and who
included each file. -/
structure Session where
  ids : Ids := {}
  log : Log := {}
  /-- The latest includer of each file, latest first. -/
  includers : List (String × String) := []
  /-- The files that were looked for in vain, latest first. -/
  missed : List String := []
  deriving DecidableEq, Repr, Inhabited

abbrev SessionM := EStateM Error Session

/-- Where included files come from. -/
structure Includer where
  /-- The actions of a source file included from a location. -/
  source : String → Location → SessionM (List Action)
  /-- The contents of a binary file included from a location. -/
  binary : String → Location → SessionM (List UInt8)

/-- How an assembly is done. -/
structure Assembler where
  /-- Report each pass. -/
  verbose : Bool := false
  /-- Without one, nothing can be included. -/
  includer : Option Includer := none

/-- The outcome of an assembly: the code, and the engine after its final
pass. -/
structure Assembly where
  code : Code
  engine : Engine

def Assembly.program (a : Assembly) : Program := Program.ofEngine a.engine

namespace Assembler

/-- Add a report to the log if reports are wanted. -/
def note (asm : Assembler) (entry : String) : SessionM Unit := fun s =>
  .ok () { s with log := s.log.addIf asm.verbose entry }

/-- Attach a location to the error of an operation. -/
def locating {α : Type} (loc : Location) (m : SessionM α) : SessionM α :=
  tryCatch m fun err => throw (err.atLocation loc)

/-! ## Includes -/

/-- How deep includes may be nested. -/
def includeDepth : Nat := 32

/-- Replace each action by a list of actions, in order. -/
def replaceEach (f : Action → SessionM (List Action)) : List Action → SessionM (List Action)
  | [] => pure []
  | a :: rest => do
    let acts ← f a
    let rest ← replaceEach f rest
    pure (acts ++ rest)

/-- Replace an include by what it stands for.  `nested` treats the actions of
an included file; there is none where includes are nested too deep. -/
def replaceInclude (asm : Assembler) (nested : Option (List Action → SessionM (List Action)))
    (a : Action) : SessionM (List Action) :=
  match a.op, asm.includer with
  | .includeSource _, none => throw (Error.noIncluder.atLocation a.location)
  | .includeSource name, some inc =>
    match nested with
    | none => throw (Error.includeDepth.atLocation a.location)
    | some nested => do
      let acts ← locating a.location (inc.source name a.location)
      asm.note (a.location.render ++ ": include " ++ name ++ ": "
        ++ Text.decimal acts.length ++ " actions")
      nested acts
  | .includeBinary _ _, none => throw (Error.noIncluder.atLocation a.location)
  | .includeBinary name args, some inc => do
    let bytes ← locating a.location (inc.binary name a.location)
    asm.note (a.location.render ++ ": incbin " ++ name ++ ": "
      ++ Text.decimal bytes.length ++ " bytes")
    -- what to skip and how much to take is evaluated in front, in every pass
    pure (args.flatten ++ [Action.plain a.location (.bytes name bytes)])
  | _, _ => pure [a]

/-- Replace all includes, with a number of levels left for nested ones. -/
def resolveIncludes (asm : Assembler) : Nat → List Action → SessionM (List Action)
  | 0 => replaceEach (asm.replaceInclude none)
  | levels + 1 => replaceEach (asm.replaceInclude (some (resolveIncludes asm levels)))

/-! ## Macros -/

/-- Collect the macro definitions.  No name may be used twice. -/
def collectMacros : List Action → List (String × MacroDef) →
    Except Error (List (String × MacroDef))
  | [], known => .ok known
  | a :: rest, known =>
    match a.op with
    | .defineMacro name params body =>
      if (known.lookup name).isSome then
        .error ((Error.duplicateMacro name).atLocation a.location)
      -- all files are included by now, so a name is unique across them
      else collectMacros rest ((name, MacroDef.make a.location name params body) :: known)
    | _ => collectMacros rest known

/-- Take the number of the next macro call. -/
def nextSeq : SessionM Nat := fun s =>
  .ok (s.ids.seq + 1) { s with ids := { s.ids with seq := s.ids.seq + 1 } }

/-- Do something that uses up numbers. -/
def withIds {α : Type} (m : EStateM Error Ids α) : SessionM α := fun s =>
  match m s.ids with
  | .ok a ids => .ok a { s with ids := ids }
  | .error err ids => .error err { s with ids := ids }

/-- Drop a macro definition, expand a macro call, and keep all else. -/
def replaceCall (asm : Assembler) (known : List (String × MacroDef)) (a : Action) :
    SessionM (List Action) :=
  match a.op with
  | .defineMacro _ _ _ => pure []
  | .callMacro name args =>
    match known.lookup name with
    | none => throw ((Error.unknownMacro name).atLocation a.location)
    | some m => do
      -- a call with too few arguments or too many uses up a number as well
      let seq ← nextSeq
      let acts ← withIds (m.instantiate a.location args seq)
      asm.note (a.location.render ++ ": expand " ++ m.render ++ ": "
        ++ Text.decimal acts.length ++ " actions")
      pure acts
  | _ => pure [a]

/-- Take the macro definitions out, and expand every call. -/
def expandMacros (asm : Assembler) (seq : List Action) : SessionM (List Action) :=
  match collectMacros seq [] with
  | .error err => throw err
  | .ok known => replaceEach (asm.replaceCall known) seq

/-! ## Symbols -/

/-- Declare all symbols on a fresh engine, and turn `.LABEL` and `.GOTO` into
jumps. -/
def gather (asm : Assembler) (seq : List Action) : SessionM (List Action × Engine) := do
  -- the labels come first, since a `.GOTO` may name one further on
  let labels ← withIds (Gather.numberLabels seq [])
  match Gather.declareAll labels "" seq { verbose := asm.verbose } with
  | .error err _ => throw err
  | .ok seq e =>
    asm.note ("gather: " ++ Text.decimal e.vars.size ++ " variables, "
      ++ Text.decimal e.labels.size ++ " labels, "
      ++ Text.decimal labels.length ++ " meta labels")
    pure (seq, e)

/-! ## Passes -/

/-- Execute code in one pass, and report it if reports are wanted. -/
def runPass (verbose : Bool) (code : Code) (pass : Pass) : EngineM Unit := do
  modify fun e => { e.begin pass with counters := Array.replicate code.counters 0 }
  code.execute
  modify fun e => { e with
    log := e.log.addIf verbose (pass.name ++ ": " ++ Text.decimal e.regions.length
      ++ " regions, " ++ Text.decimal (Region.total e.regions) ++ " bytes, "
      ++ Text.decimal e.jumps ++ " jumps") }

/-- What two passes have to agree on: the value of every symbol, and the
place of every region. -/
structure Layout where
  labels : List (String × Int64)
  vars : List (String × Int64)
  pc : Int64
  spans : List (UInt16 × RegionKind × Nat)
  deriving DecidableEq, Repr, Inhabited

/-- The layout at the end of a pass. -/
def Layout.ofEngine (e : Engine) : Layout :=
  { labels := e.labels.values
    vars := e.vars.values
    pc := e.pc.value
    spans := e.regions.map fun r => (r.start, r.kind, r.size) }

/-- Execute code in the three compile passes. -/
def runPasses (verbose : Bool) (code : Code) : EngineM Unit := do
  runPass verbose code .warmUp
  runPass verbose code .first
  let e ← get
  let before := Layout.ofEngine e
  runPass verbose code .final
  let e ← get
  if Layout.ofEngine e != before then throw .notConverged

/-- Run an engine with the log of the session. -/
def withEngine (e : Engine) (m : EngineM Unit) : SessionM Engine := fun s =>
  match m { e with log := s.log } with
  | .ok _ e => .ok e { s with log := e.log }
  | .error err e => .error err { s with log := e.log }

/-- Report the number of actions before a pass. -/
def notePass (asm : Assembler) (pass : Pass) (seq : List Action) : SessionM Unit :=
  asm.note (pass.name ++ ": " ++ Text.decimal seq.length ++ " actions")

/-- Assemble a list of actions. -/
def assemble (asm : Assembler) (actions : List Action) : SessionM Assembly := do
  asm.notePass .includes actions
  let seq ← asm.resolveIncludes includeDepth actions
  asm.notePass .macros seq
  let seq ← asm.expandMacros seq
  asm.notePass .gather seq
  let (seq, e) ← asm.gather seq
  match Code.ofActions seq with
  | .error err => throw err
  | .ok code =>
    let e ← withEngine e (runPasses asm.verbose code)
    pure ⟨code, e⟩

end Assembler

end Mos6510
