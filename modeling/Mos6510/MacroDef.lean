import Mos6510.Builder

/-!
# Macros

Macros are hygienic.  Every name that a macro body assigns or labels, and
every parameter, is private to each call: it is qualified by a synthetic
label `NAME$seq` that opens the expansion.  Jumps, loop counters and
`.LABEL`s of the body get fresh numbers and names for each call.
-/

namespace Mos6510

/-! ## Names inside actions -/

mutual

/-- Rename the symbols of an action, those in its arguments included. -/
def Action.mapSymbols (f : String → String) : Action → Action
  | ⟨loc, op, x⟩ => ⟨loc, op.mapSymbols f, x⟩

/-- Rename the symbols that an action reads, assigns or places. -/
def Op.mapSymbols (f : String → String) : Op → Op
  | .get name => .get (f name)
  | .set name => .set (f name)
  | .label name synthetic => .label (f name) synthetic
  | .message level formatted args => .message level formatted (mapSymbolsArgs f args)
  | .callMacro name args => .callMacro name (mapSymbolsArgs f args)
  | .includeBinary name args => .includeBinary name (mapSymbolsArgs f args)
  | op => op

/-- Rename the symbols of arguments. -/
def mapSymbolsArgs (f : String → String) : List (List Action) → List (List Action)
  | [] => []
  | a :: rest => mapSymbolsAll f a :: mapSymbolsArgs f rest

/-- Rename the symbols of actions. -/
def mapSymbolsAll (f : String → String) : List Action → List Action
  | [] => []
  | a :: rest => a.mapSymbols f :: mapSymbolsAll f rest

end

mutual

/-- The symbols that an action assigns or places, those in its arguments
included.  The program counter belongs to nobody. -/
def Action.definedNames : Action → List String
  | ⟨_, op, _⟩ => op.definedNames

/-- The symbols that an action assigns or places. -/
def Op.definedNames : Op → List String
  | .set name => if name == pcName then [] else [name]
  | .label name _ => [name]
  | .message _ _ args => definedNamesArgs args
  | .callMacro _ args => definedNamesArgs args
  | .includeBinary _ args => definedNamesArgs args
  | _ => []

/-- The symbols that arguments assign or place. -/
def definedNamesArgs : List (List Action) → List String
  | [] => []
  | a :: rest => definedNamesAll a ++ definedNamesArgs rest

/-- The symbols that actions assign or place. -/
def definedNamesAll : List Action → List String
  | [] => []
  | a :: rest => a.definedNames ++ definedNamesAll rest

end

/-! ## Definitions -/

/-- A macro definition. -/
structure MacroDef where
  name : String
  location : Location
  /-- The parameters under their private names. -/
  params : List String
  /-- The body with private names in place. -/
  body : List Action
  /-- The private names. -/
  hidden : List String

namespace MacroDef

/-- What a private global name starts with. -/
def hygieneMark : String := "__"

/-- The private form of a name.  A local name stays as it is. -/
def hide (name : String) : String :=
  if isLocalName name then name else hygieneMark ++ name

def make (loc : Location) (name : String) (params : List String) (body : List Action) :
    MacroDef :=
  let defined := params ++ definedNamesAll body
  { name := name
    location := loc
    params := params.map hide
    body := mapSymbolsAll (fun n => if defined.contains n then hide n else n) body
    hidden := defined.map hide }

/-- The jump targets of the body, in order. -/
def targets (m : MacroDef) : List Int :=
  m.body.filterMap fun a => match a.op with
    | .target j => some j
    | _ => none

/-- The counters that the body sets, in order. -/
def counters (m : MacroDef) : List Int :=
  m.body.filterMap fun a => match a.op with
    | .counterSet c => some c
    | _ => none

/-- The `.LABEL`s of the body, in order. -/
def metaLabels (m : MacroDef) : List String :=
  m.body.filterMap fun a => match a.op with
    | .metaLabel name => some name
    | _ => none

/-- The head of the definition. -/
def render (m : MacroDef) : String :=
  let shown (p : String) : String :=
    if p.startsWith hygieneMark then String.ofList (p.toList.drop 2) else p
  ".MACRO " ++ m.name ++ " " ++ ", ".intercalate (m.params.map shown)

/-! ## Calls -/

/-- The number of fresh ones that each old number gets, from `next` on; of
two equal old numbers the later counts. -/
def freshNumbers (next : Nat) : List Int → List (Int × Nat)
  | [] => []
  | n :: rest => freshNumbers (next + 1) rest ++ [(n, next)]

/-- The synthetic label of a call. -/
def anchor (m : MacroDef) (seq : Nat) : String := m.name ++ "$" ++ Text.decimal seq

/-- A private name as one call sees it. -/
def bindName (m : MacroDef) (seq : Nat) (name : String) : String :=
  if m.hidden.contains name then m.anchor seq ++ localMark ++ name else name

/-- A `.LABEL` as one call sees it. -/
def bindMetaLabel (m : MacroDef) (seq : Nat) (name : String) : String :=
  if m.metaLabels.contains name then name ++ "$" ++ Text.decimal seq else name

/-- Give the jumps, counters and `.LABEL`s of an action the numbers and names
of one call. -/
def renumber (m : MacroDef) (seq : Nat) (jumps counters : List (Int × Nat)) (a : Action) :
    Except Error Op :=
  match a.op with
  | .target j => match jumps.lookup j with
    | some k => .ok (.target k)
    | none => .error (.unknownJump 0)
  | .jump j => match jumps.lookup j with
    | some k => .ok (.jump k)
    | none => .error (.unknownJump 0)
  | .jumpIfFalse j => match jumps.lookup j with
    | some k => .ok (.jumpIfFalse k)
    | none => .error (.unknownJump 0)
  | .counterSet c => match counters.lookup c with
    | some d => .ok (.counterSet d)
    | none => .error (.unknownJump 0)
  -- the error shows the jump, which is still the old one where the counter is missing
  | .counterTest c j => match counters.lookup c, jumps.lookup j with
    | some d, some k => .ok (.counterTest d k)
    | some _, none => .error (.unknownJump 0)
    | none, _ => .error (.unknownJump j)
  | .counterStep c j => match counters.lookup c, jumps.lookup j with
    | some d, some k => .ok (.counterStep d k)
    | some _, none => .error (.unknownJump 0)
    | none, _ => .error (.unknownJump j)
  | .metaLabel name => .ok (.metaLabel (m.bindMetaLabel seq name))
  | .goto name => .ok (.goto (m.bindMetaLabel seq name))
  | op => .ok op

/-- The body as one call sees it. -/
def bindBody (m : MacroDef) (seq : Nat) (jumps counters : List (Int × Nat)) (x : Expansion) :
    List Action → Except Error (List Action)
  | [] => .ok []
  | a :: rest =>
    match m.renumber seq jumps counters a with
    | .error err => .error (err.atLocation a.location)
    | .ok op =>
      match bindBody m seq jumps counters x rest with
      | .error err => .error err
      | .ok rest => .ok (⟨a.location, op.mapSymbols (m.bindName seq), some x⟩ :: rest)

/-- Each argument, then the assignment to its parameter. -/
def bindArgs (loc : Location) (label : String) : List String → List (List Action) → List Action
  | p :: params, a :: args =>
    a ++ Action.set loc (label ++ localMark ++ p) :: bindArgs loc label params args
  | _, _ => []

/-- Expand a call: the synthetic label, the arguments, the body. -/
def instantiate (m : MacroDef) (loc : Location) (args : List (List Action)) (seq : Nat) :
    EStateM Error Ids (List Action) := fun ids =>
  if args.length != m.params.length then
    .error ((Error.macroArgs m.name m.params.length args.length).atLocation loc) ids
  else
    let x : Expansion := { name := m.name, call := loc, seq := seq }
    let jumps := freshNumbers ids.jump m.targets
    let counters := freshNumbers ids.counter m.counters
    let ids := { ids with
      jump := ids.jump + m.targets.length
      counter := ids.counter + m.counters.length }
    -- the numbers are gone even if the body cannot be bound
    match m.bindBody seq jumps counters x m.body with
    | .error err => .error err ids
    | .ok body =>
      .ok (⟨loc, .label (m.anchor seq) true, some x⟩ ::
        bindArgs loc (m.anchor seq) m.params args ++ body) ids

end MacroDef

end Mos6510
