import Mos6510.Engine.Run

/-!
# Code

Code is what a compile pass executes: the actions without their jump
targets, and for each target the actions that follow it.  Execution runs a
stretch of actions until one of them asks for a jump, goes on with what
follows the target, and ends with the last action.

A pass may take `Code.jumpLimit` jumps; the number left is what the
execution recurs on, so every pass ends.
-/

namespace Mos6510

/-- Actions ready for execution. -/
structure Code where
  /-- The actions, without jump targets. -/
  actions : List Action
  /-- What follows each jump target, by the number of the jump. -/
  targets : Array (Option (List Action))
  /-- Number of loop counters. -/
  counters : Nat

namespace Code

/-- The most jumps that one pass may take. -/
def jumpLimit : Nat := 0x1000000

/-- Is the action a jump target? -/
def isTarget (a : Action) : Bool := a.op.kind == .target

/-- Drop the jump targets from a list of actions, and list each target with
the actions that follow it. -/
def splitTargets : List Action → List Action × List (Int × List Action)
  | [] => ([], [])
  | a :: rest =>
    let (code, marks) := splitTargets rest
    match a.op with
    | .target j => (code, (j, code) :: marks)
    | _ => (a :: code, marks)

/-- The number of a counter that an action uses, plus one. -/
def counterBound (a : Action) : Nat :=
  match a.op with
  | .counterSet c => (c + 1).toNat
  | .counterTest c _ => (c + 1).toNat
  | .counterStep c _ => (c + 1).toNat
  | _ => 0

/-- A table of the targets; of two targets with one number the later counts. -/
def targetTable (marks : List (Int × List Action)) : Array (Option (List Action)) :=
  let size := marks.foldl (fun n m => max n (m.1 + 1).toNat) 0
  marks.foldl (fun t m => t.setIfInBounds m.1.toNat (some m.2)) (Array.replicate size none)

/-- Prepare actions for execution.  A meta action other than a jump target
has no place in code. -/
def ofActions (seq : List Action) : Except Error Code :=
  match seq.find? fun a => a.op.isMeta && !isTarget a with
  | some a => .error (Error.metaAction.atLocation a.location)
  | none =>
    let (code, marks) := splitTargets seq
    .ok
      { actions := code
        targets := targetTable marks
        -- counters are numbered from zero, so there is one more than the largest says
        counters := seq.foldl (fun n a => max n (counterBound a)) 0 }

/-- What follows the target of a jump. -/
def target? (code : Code) (j : Int) : Option (List Action) :=
  if j < 0 then none else code.targets.getD j.toNat none

/-- The position of a jump target among the actions. -/
def position? (code : Code) (j : Int) : Option Nat :=
  (code.target? j).map fun k => code.actions.length - k.length

/-- How a stretch of actions ended. -/
inductive Stretch where
  /-- There was no action left. -/
  | finished (e : Engine)
  /-- An action failed. -/
  | failed (err : Error) (e : Engine)
  /-- An action asked for a jump. -/
  | jumped (a : Action) (j : Int) (e : Engine)

/-- Run actions until one fails or asks for a jump. -/
def runStretch : List Action → Engine → Stretch
  | [], e => .finished e
  | a :: rest, e =>
    match a.run { e with location := a.location } with
    | .error err e => .failed (err.atAction a) e
    | .ok _ e =>
      match e.jump with
      | none => runStretch rest e
      | some j => .jumped a j { e with jump := none }

/-- Run actions and whatever they jump to, with a number of jumps left. -/
def runFrom (code : Code) : Nat → List Action → EngineM Unit
  | budget, k, e =>
    match runStretch k e with
    | .finished e => .ok () e
    | .failed err e => .error err e
    | .jumped a j e =>
      match code.target? j with
      | none => .error ((Error.unknownJump j).atAction a) e
      | some k =>
        match budget with
        -- the jump beyond the last is still counted
        | 0 => .error (Error.loopLimit.atAction a) { e with jumps := e.jumps + 1 }
        | budget + 1 => runFrom code budget k { e with jumps := e.jumps + 1 }

/-- Execute code.  A jump that is pending from before is made first. -/
def execute (code : Code) : EngineM Unit := fun e =>
  match e.jump with
  | none => runFrom code (jumpLimit - e.jumps) code.actions e
  | some j =>
    -- an engine that was stopped may still want a jump
    let e := { e with jump := none }
    match code.target? j with
    | none => .error (.unknownJump j) e
    | some k =>
      let e := { e with jumps := e.jumps + 1 }
      if jumpLimit < e.jumps then .error .loopLimit e
      else runFrom code (jumpLimit - e.jumps) k e

end Code

end Mos6510
