import Mos6510.Statement

/-!
# Lowering statements

The builder turns statements into a flat list of actions.  Conditions and
loops become jumps, counters and jump targets.  A statement that fails leaves
the actions and the open blocks as they were; all it may use up are numbers.
-/

namespace Mos6510

/-- The numbers given out so far.  All parts of one assembly share them, so
that the jumps of included files and macro calls never meet. -/
structure Ids where
  /-- The next jump. -/
  jump : Nat := 0
  /-- The next loop counter. -/
  counter : Nat := 0
  /-- The latest macro call; calls count from one. -/
  seq : Nat := 0
  deriving DecidableEq, Repr, Inhabited

/-- A block that is not yet closed. -/
inductive Block where
  /-- A condition: where it ends, and where its next branch starts.  After
  the last branch there is no next one. -/
  | condition (loc : Location) (exit : Nat) (next : Option Nat)
  /-- A counted loop: where it starts and ends, and its counter. -/
  | repetition (loc : Location) (start exit counter : Nat)
  /-- A loop with a condition: where it starts and ends. -/
  | loop (loc : Location) (start exit : Nat)
  /-- A macro definition, with the actions before it. -/
  | definition (loc : Location) (name : String) (params : List String) (outer : Array Action)

namespace Block

def kind : Block → BlockKind
  | condition _ _ _ => .condition
  | repetition _ _ _ _ => .repetition
  | loop _ _ _ => .loop
  | definition _ _ _ _ => .definition

/-- Where a block was opened. -/
def location : Block → Location
  | condition loc _ _ => loc
  | repetition loc _ _ _ => loc
  | loop loc _ _ => loc
  | definition loc _ _ _ => loc

end Block

/-- A program under construction. -/
structure Builder where
  ids : Ids := {}
  actions : Array Action := #[]
  /-- The open blocks, innermost first. -/
  blocks : List Block := []
  deriving Inhabited

abbrev BuilderM := EStateM Error Builder

namespace Builder

def add (b : Builder) (acts : List Action) : Builder :=
  { b with actions := b.actions ++ acts }

/-- Are we inside a macro definition? -/
def inMacro (b : Builder) : Bool := b.blocks.any fun blk => blk.kind == .definition

/-- Fold an expression; an error gets the location of the statement unless it
has one. -/
def foldAt (loc : Location) (expr : List Action) : Except Error (List Action) :=
  match foldConstant expr with
  | .ok e => .ok e
  | .error err => .error (err.atLocation loc)

def foldAllAt (loc : Location) : List (List Action) → Except Error (List (List Action))
  | [] => .ok []
  | e :: rest => do
    let e ← foldAt loc e
    let rest ← foldAllAt loc rest
    pure (e :: rest)

/-- The error of a directive that does not fit the open block. -/
def mismatch (loc : Location) (opened : Option BlockKind) (directive : String) : Error :=
  (Error.blockMismatch opened directive).atLocation loc

/-- Add the actions of a result, or fail with its error. -/
def addResult (acts : Except Error (List Action)) : BuilderM Unit := fun b =>
  match acts with
  | .ok acts => .ok () (b.add acts)
  | .error err => .error err b

/-- Add actions that cannot fail. -/
def addOp (loc : Location) (op : Op) : BuilderM Unit := fun b =>
  .ok () (b.add [Action.plain loc op])

def openIf (loc : Location) (cond : List Action) : BuilderM Unit := fun b =>
  -- both numbers are drawn before the condition is folded, which can fail
  let exit := b.ids.jump
  let next := b.ids.jump + 1
  let b := { b with ids := { b.ids with jump := b.ids.jump + 2 } }
  match foldAt loc cond with
  | .error err => .error err b
  | .ok cond =>
    let b := b.add (cond ++ [Action.plain loc (.jumpIfFalse next)])
    .ok () { b with blocks := .condition loc exit (some next) :: b.blocks }

/-- Start another conditional branch. -/
def elseIf (loc : Location) (cond : List Action) : BuilderM Unit := fun b =>
  match b.blocks with
  | .condition start exit (some next) :: outer =>
    match foldAt loc cond with
    | .error err => .error err b
    | .ok cond =>
      -- here the number is drawn only once the condition is folded
      let after := b.ids.jump
      let b := { b with
        ids := { b.ids with jump := b.ids.jump + 1 }
        blocks := .condition start exit (some after) :: outer }
      .ok () (b.add ([Action.plain loc (.jump exit), Action.plain loc (.target next)] ++ cond ++
        [Action.plain loc (.jumpIfFalse after)]))
  | .condition _ _ none :: _ => .error (Error.elseIfAfterElse.atLocation loc) b
  | _ => .error (mismatch loc none ".ELIF") b

/-- Start the last branch of a condition. -/
def otherwise (loc : Location) : BuilderM Unit := fun b =>
  match b.blocks with
  | .condition start exit (some next) :: outer =>
    let b := { b with blocks := .condition start exit none :: outer }
    .ok () (b.add [Action.plain loc (.jump exit), Action.plain loc (.target next)])
  | .condition _ _ none :: _ => .error (Error.duplicateElse.atLocation loc) b
  | _ => .error (mismatch loc none ".ELSE") b

/-- Fail because the innermost block is not the one a directive closes. -/
def failClose (loc : Location) (directive : String) : BuilderM Unit := fun b =>
  .error (mismatch loc (b.blocks.head?.map Block.kind) directive) b

def closeIf (loc : Location) : BuilderM Unit := fun b =>
  match b.blocks with
  | .condition _ exit next :: outer =>
    let ends := match next with
      | some next => [Action.plain loc (.target next)]
      | none => []
    .ok () ({ b with blocks := outer }.add (ends ++ [Action.plain loc (.target exit)]))
  | _ => failClose loc ".ENDIF" b

def openRepeat (loc : Location) (count : List Action) : BuilderM Unit := fun b =>
  -- a round starts with the test, so a count of zero runs none
  let start := b.ids.jump
  let exit := b.ids.jump + 1
  let counter := b.ids.counter
  let b := { b with
    ids := { b.ids with jump := b.ids.jump + 2, counter := b.ids.counter + 1 } }
  match foldAt loc count with
  | .error err => .error err b
  | .ok count =>
    let b := b.add (count ++
      [Action.plain loc (.counterSet counter), Action.plain loc (.target start),
        Action.plain loc (.counterTest counter exit)])
    .ok () { b with blocks := .repetition loc start exit counter :: b.blocks }

def closeRepeat (loc : Location) : BuilderM Unit := fun b =>
  match b.blocks with
  | .repetition _ start exit counter :: outer =>
    .ok () ({ b with blocks := outer }.add
      [Action.plain loc (.counterStep counter start), Action.plain loc (.target exit)])
  | _ => failClose loc ".ENDREP" b

def openWhile (loc : Location) (cond : List Action) : BuilderM Unit := fun b =>
  let start := b.ids.jump
  let exit := b.ids.jump + 1
  let b := { b with ids := { b.ids with jump := b.ids.jump + 2 } }
  match foldAt loc cond with
  | .error err => .error err b
  | .ok cond =>
    -- the condition stands inside the loop and is evaluated in every round
    let b := b.add (Action.plain loc (.target start) :: cond ++
      [Action.plain loc (.jumpIfFalse exit)])
    .ok () { b with blocks := .loop loc start exit :: b.blocks }

def closeWhile (loc : Location) : BuilderM Unit := fun b =>
  match b.blocks with
  | .loop _ start exit :: outer =>
    .ok () ({ b with blocks := outer }.add
      [Action.plain loc (.jump start), Action.plain loc (.target exit)])
  | _ => failClose loc ".ENDWHILE" b

/-- Open a macro definition, which is allowed outside all blocks only. -/
def openMacro (loc : Location) (name : String) (params : List String) : BuilderM Unit := fun b =>
  match b.blocks with
  | [] =>
    .ok () { b with actions := #[], blocks := [.definition loc name params b.actions] }
  | _ :: _ => .error (Error.macroNesting.atLocation loc) b

def closeMacro (loc : Location) : BuilderM Unit := fun b =>
  match b.blocks with
  | .definition start name params before :: outer =>
    .ok () ({ b with actions := before, blocks := outer }.add
      [Action.plain start (.defineMacro name params b.actions.toList)])
  | _ => failClose loc ".ENDMACRO" b

/-- Call a macro, which is forbidden inside a macro. -/
def call (loc : Location) (name : String) (args : List (List Action)) : BuilderM Unit := fun b =>
  if b.inMacro then .error (Error.callInMacro.atLocation loc) b
  else addResult (do
    let args ← foldAllAt loc args
    pure [Action.plain loc (.callMacro name args)]) b

/-- The argument of a message as actions. -/
def messageArg (loc : Location) : MessageArg → Except Error (List Action)
  | .text s => .ok [Action.plain loc (.string s)]
  | .expr e => foldAt loc e

/-- The arguments of a message as actions, in order. -/
def messageArgs (loc : Location) : List MessageArg → Except Error (List (List Action))
  | [] => .ok []
  | a :: rest => do
    let a ← messageArg loc a
    let rest ← messageArgs loc rest
    pure (a :: rest)

/-- Include a file, which is forbidden inside a macro. -/
def includeSource (loc : Location) (name : String) : BuilderM Unit := fun b =>
  if b.inMacro then .error (Error.includeInMacro.atLocation loc) b
  else addOp loc (.includeSource name) b

/-- Include a binary file, which is forbidden inside a macro. -/
def includeBinary (loc : Location) (name : String) (skip length : List Action) :
    BuilderM Unit := fun b =>
  if b.inMacro then .error (Error.includeInMacro.atLocation loc) b
  else addResult (do
    let skip ← foldAt loc skip
    let length ← foldAt loc length
    pure [Action.plain loc (.includeBinary name [skip, length])]) b

def issue (loc : Location) : Statement → BuilderM Unit
  | .assign name expr => addResult do
    let expr ← foldAt loc expr
    pure (expr ++ [Action.set loc name])
  | .label name => addOp loc (.label name false)
  | .instruction mnemonic operand =>
    addResult (match operand.resolve loc mnemonic with
      | .ok acts => .ok acts
      | .error err => .error (err.atLocation loc))
  | .data word expr => addResult do
    let expr ← foldAt loc expr
    pure (expr ++ [Action.plain loc (.data word)])
  | .text word bytes => addOp loc (.text word bytes)
  | .openIf cond => openIf loc cond
  | .elseIf cond => elseIf loc cond
  | .otherwise => otherwise loc
  | .closeIf => closeIf loc
  | .openRepeat count => openRepeat loc count
  | .closeRepeat => closeRepeat loc
  | .openWhile cond => openWhile loc cond
  | .closeWhile => closeWhile loc
  | .openMacro name params => openMacro loc name params
  | .closeMacro => closeMacro loc
  | .call name args => call loc name args
  | .metaLabel name => addOp loc (.metaLabel name)
  | .goto name => addOp loc (.goto name)
  | .message level formatted args => addResult do
    let args ← messageArgs loc args
    pure [Action.plain loc (.message level formatted args)]
  | .includeSource name => includeSource loc name
  | .includeBinary name skip length => includeBinary loc name skip length

/-- Lower statements in order, up to the first that fails. -/
def issueAll : List Line → BuilderM Unit
  | [] => pure ()
  | l :: rest => do
    issue l.location l.statement
    issueAll rest

/-- The lowered program.  All blocks have to be closed. -/
def finish (b : Builder) : Except Error (List Action) :=
  match b.blocks with
  | [] => .ok b.actions.toList
  | blk :: _ => .error ((Error.blockUnclosed blk.kind).atLocation blk.location)

end Builder

end Mos6510
