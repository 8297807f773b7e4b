import Mos6510.MacroDef

/-!
# Gathering symbols

Before execution every symbol that the program assigns or places is
declared, in the order of the text, and `.LABEL` and `.GOTO` become jump
targets and jumps.
-/

namespace Mos6510

namespace Gather

/-- Give each `.LABEL` a jump number.  No name may be used twice. -/
def numberLabels : List Action → List (String × Nat) →
    EStateM Error Ids (List (String × Nat))
  | [], known => pure known
  | a :: rest, known =>
    match a.op with
    | .metaLabel name => fun ids =>
      if (known.lookup name).isSome then
        .error ((Error.duplicateMetaLabel name).atLocation a.location) ids
      else
        numberLabels rest ((name, ids.jump) :: known) { ids with jump := ids.jump + 1 }
    | _ => numberLabels rest known

/-- Declare the symbol of an action, and resolve `.LABEL` and `.GOTO`.  The
result is the action and the parent label after it. -/
def declareAction (labels : List (String × Nat)) (parent : String) (a : Action) :
    EngineM (Action × String) := fun e =>
  match a.op with
  | .metaLabel name =>
    -- every `.LABEL` was numbered before, so the default is never taken
    .ok (Action.plain a.location (.target ((labels.lookup name).getD 0)), parent) e
  | .goto name =>
    match labels.lookup name with
    | some j => .ok (⟨a.location, .jump j, a.expansion⟩, parent) e
    | none => .error ((Error.unknownMetaLabel name).atLocation a.location) e
  | .set name =>
    match Engine.declareVariable name parent e with
    | .ok _ e => .ok (a, parent) e
    | .error err e => .error (err.atAction a) e
  | .label name synthetic =>
    match Engine.declareLabel name synthetic parent e with
    | .ok next e => .ok (a, next) e
    | .error err e => .error (err.atAction a) e
  | _ => .ok (a, parent) e

/-- Declare the symbols of actions in order. -/
def declareAll (labels : List (String × Nat)) : String → List Action → EngineM (List Action)
  | _, [] => pure []
  | parent, a :: rest => do
    let (a, parent) ← declareAction labels parent a
    let rest ← declareAll labels parent rest
    pure (a :: rest)

end Gather

end Mos6510
