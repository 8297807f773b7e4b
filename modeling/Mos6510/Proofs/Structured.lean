import Mathlib.Data.PFun
import Mos6510.Builder
import Mos6510.Proofs.Framing

/-!
# Structured programs

A structured program is made of simple statements, conditions and loops, with
all its expressions in postfix order.  It has two readings:

* `Structured.lines`: the statements that it is written as, in order;
* `Structured.exec`: what it does, by recursion over its structure.  The first
  branch with a condition that is not zero is run and no later condition is
  looked at, the count of a repetition is evaluated once, the condition of a
  loop before each round.  No jump, counter or folded constant takes part.
-/

namespace Mos6510

/-! ## Syntax -/

/-- An operand as written: an implied one has no expression, any other has
one. -/
structure WrittenOperand where
  form : OperandForm
  index : Index
  expr : Option Expr
  complete : expr = none ↔ form = .implied

namespace WrittenOperand

/-- The actions that push the operand. -/
def actions (o : WrittenOperand) : List Action := o.expr.elim [] Expr.actions

def operand (o : WrittenOperand) : Operand :=
  { form := o.form, index := o.index, expr := o.actions }

/-- The encoding of an instruction, unless the value of the operand has to
choose between two. -/
def encoding? (o : WrittenOperand) (m : Mnemonic) : Option Opcode :=
  match o.form.mode? with
  | some mode => m.encoding? mode
  | none =>
    if m.isBranch then m.encoding? .relative
    else
      match m.encoding? (Engine.directMode o.index true),
        m.encoding? (Engine.directMode o.index false) with
      | some _, some _ => none
      | short, long => short.or long

/-- What encodes an instruction once its operand is on the stack. -/
def encoder (o : WrittenOperand) (mnemonic : String) : Op :=
  match (Mnemonic.ofName? mnemonic).bind o.encoding? with
  | some op => .instruction op.code
  | none => .width mnemonic o.index

end WrittenOperand

/-- An argument of a message as written. -/
inductive Spoken where
  | text (value : String)
  | expr (value : Expr)

/-- The argument of a statement. -/
def Spoken.messageArg : Spoken → MessageArg
  | text value => .text value
  | expr value => .expr value.actions

def Spoken.actions (loc : Location) : Spoken → List Action
  | text value => [Action.plain loc (.string value)]
  | expr value => value.actions

/-- A statement that does one thing. -/
inductive Simple where
  | assign (name : String) (x : Expr)
  | label (name : String)
  | data (word : Bool) (x : Expr)
  | text (word : Bool) (bytes : List UInt8)
  | instruction (mnemonic : String) (operand : WrittenOperand)
  | message (level : Level) (formatted : Bool) (args : List Spoken)

namespace Simple

def statement : Simple → Statement
  | assign name x => .assign name x.actions
  | label name => .label name
  | data word x => .data word x.actions
  | text word bytes => .text word bytes
  | instruction mnemonic operand => .instruction mnemonic operand.operand
  | message level formatted args => .message level formatted (args.map Spoken.messageArg)

/-- What the statement does: its expression, then one action. -/
def actions (loc : Location) : Simple → List Action
  | assign name x => x.actions ++ [Action.plain loc (.set name)]
  | label name => [Action.plain loc (.label name false)]
  | data word x => x.actions ++ [Action.plain loc (.data word)]
  | text word bytes => [Action.plain loc (.text word bytes)]
  | instruction mnemonic operand =>
    operand.actions ++ [Action.plain loc (operand.encoder mnemonic)]
  | message level formatted args =>
    [Action.plain loc (.message level formatted (args.map (Spoken.actions loc)))]

end Simple

mutual

/-- A structured program.  Each part has the location of the line that it
stands on. -/
inductive Structured where
  | skip
  | seq (p q : Structured)
  | simple (loc : Location) (s : Simple)
  /-- `.IF` with its body, and what follows. -/
  | choice (loc : Location) (test : Expr) (body : Structured) (rest : Branches)
  /-- `.REP` up to `.ENDREP`. -/
  | repetition (loc : Location) (count : Expr) (body : Structured) (close : Location)
  /-- `.WHILE` up to `.ENDWHILE`. -/
  | loop (loc : Location) (test : Expr) (body : Structured) (close : Location)

/-- What follows the first branch of a condition. -/
inductive Branches where
  /-- `.ENDIF`. -/
  | close (loc : Location)
  /-- `.ELSE` with its body, up to `.ENDIF`. -/
  | otherwise (loc : Location) (body : Structured) (close : Location)
  /-- `.ELIF` with its body, and what follows. -/
  | elseIf (loc : Location) (test : Expr) (body : Structured) (rest : Branches)

end

mutual

def Structured.lines : Structured → List Line
  | .skip => []
  | .seq p q => p.lines ++ q.lines
  | .simple loc s => [⟨loc, s.statement⟩]
  | .choice loc test body rest => ⟨loc, .openIf test.actions⟩ :: (body.lines ++ rest.lines)
  | .repetition loc count body close =>
    ⟨loc, .openRepeat count.actions⟩ :: (body.lines ++ [⟨close, .closeRepeat⟩])
  | .loop loc test body close =>
    ⟨loc, .openWhile test.actions⟩ :: (body.lines ++ [⟨close, .closeWhile⟩])

def Branches.lines : Branches → List Line
  | .close loc => [⟨loc, .closeIf⟩]
  | .otherwise loc body close => ⟨loc, .otherwise⟩ :: (body.lines ++ [⟨close, .closeIf⟩])
  | .elseIf loc test body rest => ⟨loc, .elseIf test.actions⟩ :: (body.lines ++ rest.lines)

end

/-! ## Interpretation -/

def Expr.value (x : Expr) : EngineM Int64 := do
  performAll x.actions
  Engine.pop

/-- Operations that may go on for ever.  If they end, they give a value or an
error, and the engine as they leave it. -/
abbrev Interp := ExceptT Error (StateT Engine Part)

namespace Interp

variable {α β : Type}

/-- What an operation comes to, if it ends. -/
def outcome (m : Interp α) (e : Engine) : Part (Except Error α × Engine) :=
  m.run.run e

/-- An operation of the engine always ends. -/
def ofEngine (m : EngineM α) : Interp α := ExceptT.mk fun e =>
  match m e with
  | .ok a e => Part.some (.ok a, e)
  | .error err e => Part.some (.error err, e)

theorem outcome_pure (a : α) (e : Engine) :
    outcome (pure a : Interp α) e = Part.some (.ok a, e) := rfl

theorem outcome_bind (m : Interp α) (f : α → Interp β) (e : Engine) :
    (m >>= f).outcome e = (m.outcome e).bind fun x => ExceptT.bindCont f x.1 x.2 := rfl

theorem mem_outcome_bind {m : Interp α} {f : α → Interp β} {e : Engine}
    {r : Except Error β × Engine} :
    r ∈ (m >>= f).outcome e ↔
      (∃ a e', (.ok a, e') ∈ m.outcome e ∧ r ∈ (f a).outcome e') ∨
      (∃ err e', (.error err, e') ∈ m.outcome e ∧ r = (.error err, e')) := by
  rw [outcome_bind, Part.mem_bind_iff]
  constructor
  · rintro ⟨⟨x, e'⟩, hx, hr⟩
    cases x with
    | ok a => exact .inl ⟨a, e', hx, hr⟩
    | error err => exact .inr ⟨err, e', hx, Part.mem_some_iff.mp hr⟩
  · rintro (⟨a, e', hx, hr⟩ | ⟨err, e', hx, rfl⟩)
    · exact ⟨_, hx, hr⟩
    · exact ⟨_, hx, Part.mem_some_iff.mpr rfl⟩

/-- The outcome of an operation of the engine and what follows it. -/
theorem outcome_ofEngine_bind (m : EngineM α) (f : α → Interp β) (e : Engine) :
    outcome (ofEngine m >>= f) e =
      match m e with
      | .ok a e' => outcome (f a) e'
      | .error err e' => Part.some (.error err, e') := by
  rw [outcome_bind]
  unfold ofEngine outcome
  simp only [ExceptT.run_mk, StateT.run]
  cases m e with
  | ok a e' => exact Part.bind_some _ _
  | error err e' => exact Part.bind_some _ _

/-! ### Loops -/

/-- Do something a number of times. -/
def times : Nat → Interp Unit → Interp Unit
  | 0, _ => pure ()
  | n + 1, body => do
    body
    times n body

/-- Where an operation leads that is done again as long as it says so: to an
end, or to the engine that the next time starts from. -/
def oneRound (m : Interp Bool) : Engine →. (Except Error Unit × Engine) ⊕ Engine := fun e =>
  (m.outcome e).map fun
    | (.ok true, e) => .inr e
    | (.ok false, e) => .inl (.ok (), e)
    | (.error err, e) => .inl (.error err, e)

/-- Do something again as long as it says so. -/
def repeatWhile (m : Interp Bool) : Interp Unit := ExceptT.mk m.oneRound.fix

/-- One time, then again. -/
theorem repeatWhile_eq (m : Interp Bool) :
    repeatWhile m = m >>= fun more => if more then repeatWhile m else pure () := by
  funext e
  refine Part.ext fun r => ?_
  change r ∈ m.oneRound.fix e ↔ r ∈ outcome _ e
  rw [PFun.mem_fix_iff, mem_outcome_bind]
  -- a round that ends the loop is an error or says no; any other leads to the next
  constructor
  · rintro (hend | ⟨e', hmore, hr⟩)
    · obtain ⟨⟨x, e'⟩, hx, hround⟩ := (Part.mem_map_iff _).mp hend
      cases x with
      | error err => exact .inr ⟨err, e', hx, (Sum.inl.inj hround).symm⟩
      | ok more =>
          cases more with
          | false => exact .inl ⟨false, e', hx, Part.mem_some_iff.mpr (Sum.inl.inj hround).symm⟩
          | true => cases hround
    · obtain ⟨⟨x, e''⟩, hx, hround⟩ := (Part.mem_map_iff _).mp hmore
      cases x with
      | error err => cases hround
      | ok more =>
          cases more with
          | false => cases hround
          | true =>
              cases hround
              exact .inl ⟨true, e', hx, hr⟩
  · rintro (⟨more, e', hx, hr⟩ | ⟨err, e', hx, rfl⟩)
    · cases more with
      | false =>
          cases Part.mem_some_iff.mp hr
          exact .inl ((Part.mem_map_iff _).mpr ⟨_, hx, rfl⟩)
      | true => exact .inr ⟨e', (Part.mem_map_iff _).mpr ⟨_, hx, rfl⟩, hr⟩
    · exact .inl ((Part.mem_map_iff _).mpr ⟨_, hx, rfl⟩)

/-- Do something as long as a test does not give zero. -/
def whileNonzero (test : Interp Int64) (body : Interp Unit) : Interp Unit := repeatWhile do
  let v ← test
  if v == 0 then pure false
  else
    body
    pure true

/-- The test comes before each round. -/
theorem whileNonzero_eq (test : Interp Int64) (body : Interp Unit) :
    whileNonzero test body = test >>= fun v =>
      if v == 0 then pure () else body >>= fun _ => whileNonzero test body := by
  conv_lhs => rw [whileNonzero, repeatWhile_eq, bind_assoc]
  refine bind_congr fun v => ?_
  split
  · rw [pure_bind, if_neg Bool.false_ne_true]
  · rw [bind_assoc]
    refine bind_congr fun _ => ?_
    rw [pure_bind, if_pos rfl, whileNonzero]

end Interp

open Interp

mutual

def Structured.exec : Structured → Interp Unit
  | .skip => pure ()
  | .seq p q => do
    p.exec
    q.exec
  | .simple loc s => ofEngine (performAll (s.actions loc))
  | .choice _ test body rest => do
    let v ← ofEngine test.value
    if v == 0 then rest.exec else body.exec
  | .repetition _ count body _ => do
    let v ← ofEngine count.value
    times v.toInt.toNat body.exec
  | .loop _ test body _ => whileNonzero (ofEngine test.value) body.exec

/-- What the branches do after the conditions before them gave zero. -/
def Branches.exec : Branches → Interp Unit
  | .close _ => pure ()
  | .otherwise _ body _ => body.exec
  | .elseIf _ test body rest => do
    let v ← ofEngine test.value
    if v == 0 then rest.exec else body.exec

end

end Mos6510
