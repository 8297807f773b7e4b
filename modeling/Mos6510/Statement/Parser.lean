import Mos6510.Expr.Parser
import Mos6510.Statement

/-!
# Reading statements

Statements follow each other without a separator: what a token starts, or
whether a mnemonic takes an operand, shows in the tokens alone.
-/

namespace Mos6510

namespace Statement

open Parse

/-! ## Instructions -/

/-- Does the next statement start here?  Then the mnemonic before has no
operand. -/
def startsNext : Parse Bool := do
  match ← peek with
  | .mnemonic _ => pure true
  | .label _ => pure true
  | .directive _ => pure true
  | .endOfFile => pure true
  | .string _ _ => pure true
  | .word _ => pure ((← peekSecond) = .assign)
  | .pc => pure ((← peekSecond) = .assign)
  | _ => pure false

/-- The rest of `(expr,X)`, `(expr),Y` or `(expr)`. -/
def indirectOperand : Parse Operand := do
  let expr ← expression
  if ← accept .comma then
    expect (.word "X") .indexXExpected
    expect .closeParen .closeExpected
    pure { form := .indirectX, expr := expr }
  else
    expect .closeParen .closeExpected
    if ← accept .comma then
      expect (.word "Y") .indexYExpected
      pure { form := .indirectY, expr := expr }
    else pure { form := .indirect, expr := expr }

/-- `expr`, `expr,X` or `expr,Y`. -/
def directOperand : Parse Operand := do
  let expr ← expression
  if ← accept .comma then
    if ← accept (.word "X") then pure { form := .direct, index := .x, expr := expr }
    else if ← accept (.word "Y") then pure { form := .direct, index := .y, expr := expr }
    else fail .indexExpected
  else pure { form := .direct, expr := expr }

/-- The operand after a mnemonic.  The accumulator may be written as `A` where
the mnemonic has an encoding without operand. -/
def operand (m : Mnemonic) : Parse Operand := do
  if ← accept .immediate then
    pure { form := .immediate, expr := ← expression }
  else if m.isBranch then
    pure { form := .direct, expr := ← expression }
  else if ← startsNext then
    pure {}
  else if m.has .implied && (← peek) = .word "A" then
    next
    pure {}
  else if ← accept .openParen then indirectOperand
  else directOperand

def instructionAfter (m : Mnemonic) : Parse Statement := do
  pure (.instruction m.name (← operand m))

def assignmentAfter (name : String) : Parse Statement := do
  expect .assign .assignExpected
  pure (.assign name (← expression))

/-! ## Directives -/

/-- The parameter of a macro, whose name has to be a global one. -/
def parameter (loc : Location) : Parse String := do
  let name ← identifier
  if isLocalName name then failAt loc (.localParameter name) else pure name

/-- The rest of `.MACRO NAME, PARAM, ...`. -/
def macroAfter (loc : Location) : Parse Statement := do
  let name ← identifier
  let params ← afterCommas (parameter loc)
  pure (.openMacro name params)

/-- The rest of `.CALL NAME, ARG, ...`. -/
def callAfter : Parse Statement := do
  let name ← identifier
  let args ← afterCommas expression
  pure (.call name args)

/-- The rest of `.INCBIN "FILE"[, SKIP[, LENGTH]]`. -/
def binaryAfter (loc : Location) : Parse Statement := do
  let name ← quoted
  if ← accept .comma then
    let skip ← expression
    if ← accept .comma then
      pure (.includeBinary name skip (← expression))
    else pure (.includeBinary name skip [Action.load loc (-1)])
  else pure (.includeBinary name [Action.load loc 0] [Action.load loc (-1)])

def messageArg : Parse MessageArg := do
  match ← peek with
  | .string value _ =>
    next
    pure (.text value)
  | _ => pure (.expr (← expression))

/-- Does a message end before its first argument? -/
def endsMessage : Lexeme → Bool
  | .directive _ => true
  | .endOfFile => true
  | .label _ => true
  | .mnemonic _ => true
  | _ => false

def messageAfter (loc : Location) (level : Level) (formatted : Bool) : Parse Statement := do
  if endsMessage (← peek) then failAt loc .messageArgs
  else
    let arg ← messageArg
    let args ← afterCommas messageArg
    pure (.message level formatted (arg :: args))

/-- The rest of a directive that is a single statement. -/
def directiveAfter (loc : Location) (name : String) : Parse Statement :=
  match name with
  | "IF" => do pure (.openIf (← expression))
  | "ELIF" => do pure (.elseIf (← expression))
  | "ELSE" => pure .otherwise
  | "ENDIF" => pure .closeIf
  | "REP" => do pure (.openRepeat (← expression))
  | "ENDREP" => pure .closeRepeat
  | "WHILE" => do pure (.openWhile (← expression))
  | "ENDWHILE" => pure .closeWhile
  | "MACRO" => macroAfter loc
  | "ENDMACRO" => pure .closeMacro
  | "CALL" => callAfter
  | "LABEL" => do pure (.metaLabel (← identifier))
  | "GOTO" => do pure (.goto (← identifier))
  | "INCLUDE" => do pure (.includeSource (← quoted))
  | "INCBIN" => binaryAfter loc
  | "INFO" => messageAfter loc .info false
  | "INFOF" => messageAfter loc .info true
  | "WARN" => messageAfter loc .warning false
  | "WARNF" => messageAfter loc .warning true
  | "ERROR" => messageAfter loc .error false
  | "ERRORF" => messageAfter loc .error true
  | name => failAt loc (.unknownDirective name)

/-! ## Lines -/

/-- The lines that some tokens stand for: those before what is wrong, and the
tokens left if nothing is. -/
structure Reading (ts : List Token) where
  lines : List Line
  rest : Except Error (Tail ts)

/-- A single statement at a location. -/
def Reading.single {ts : List Token} (loc : Location) :
    Except Error (Statement × Tail ts) → Reading ts
  | .ok (s, rest) => ⟨[⟨loc, s⟩], .ok rest⟩
  | .error err => ⟨[], .error err⟩

/-- A text or the value of an expression as data. -/
def dataItem (word : Bool) : Parse Line := do
  let loc ← here
  match ← peek with
  | .string _ bytes =>
    next
    pure ⟨loc, .text word bytes⟩
  | _ => pure ⟨loc, .data word (← expression)⟩

/-- Items of data with commas between them. -/
def dataItems (word : Bool) (file : String) (ts : List Token) : Reading ts :=
  match dataItem word file ts with
  | .error err => ⟨[], .error err⟩
  | .ok (item, ⟨⟨.comma, line⟩ :: rest, h⟩) =>
    have : rest.length < ts.length := Nat.lt_of_succ_le h
    let more := dataItems word file rest
    ⟨item :: more.lines, match more.rest with
      | .ok last => .ok (Tail.within ⟨⟨.comma, line⟩ :: rest, h⟩ (last.behind ⟨.comma, line⟩))
      | .error err => .error err⟩
  | .ok (item, rest) => ⟨[item], .ok rest⟩
termination_by ts.length

/-- The count of repeated data and the comma after it. -/
def dataCount : Parse (List Action) := do
  let count ← expression
  expect .comma .commaExpected
  pure count

/-- The rest of `.REPB COUNT, ITEM, ...`: the items, stored as often as the
count says. -/
def repeatedItems (word : Bool) (loc : Location) (file : String) (ts : List Token) : Reading ts :=
  match dataCount file ts with
  | .error err => ⟨[], .error err⟩
  | .ok (count, more) =>
    let items := dataItems word file more.val
    let opened := ⟨loc, .openRepeat count⟩ :: items.lines
    match items.rest with
    | .error err => ⟨opened, .error err⟩
    | .ok last => ⟨opened ++ [⟨loc, .closeRepeat⟩],
        .ok (more.within last)⟩

def directiveLines (loc : Location) (name : String) (file : String) (ts : List Token) :
    Reading ts :=
  match name with
  | "DB" => dataItems false file ts
  | "DW" => dataItems true file ts
  | "REPB" => repeatedItems false loc file ts
  | "REPW" => repeatedItems true loc file ts
  | name => Reading.single loc (directiveAfter loc name file ts)

/-- The lines of the statement that a token starts, with the tokens after
it. -/
def linesAfter (t : Token) (file : String) (rest : List Token) : Reading rest :=
  let loc : Location := ⟨file, t.line⟩
  match t.lexeme with
  | .directive name => directiveLines loc name file rest
  | .label name => ⟨[⟨loc, .label name⟩], .ok (.all rest)⟩
  | .word name => .single loc (assignmentAfter name file rest)
  | .pc => .single loc (assignmentAfter pcName file rest)
  | .mnemonic m => .single loc (instructionAfter m file rest)
  | l => ⟨[], .error (.inSource loc (.unexpected l.render))⟩

end Statement

/-- The lines of a file, latest first after those read already, and what is
wrong if something is. -/
def readLines (file : String) (done : List Line) (ts : List Token) :
    List Line × Option Error :=
  match ts with
  | [] => (done, none)
  | t :: rest =>
    if t.lexeme = .endOfFile then (done, none)
    else
      let reading := Statement.linesAfter t file rest
      let done := reading.lines.reverse ++ done
      match reading.rest with
      | .error err => (done, some err)
      | .ok last =>
        readLines file done last.val
termination_by ts.length
decreasing_by exact last.length_lt

/-- The lines of a file in order, up to what is wrong if something is. -/
def linesOf (file : String) (ts : List Token) : List Line × Option Error :=
  let (lines, err) := readLines file [] ts
  (lines.reverse, err)

end Mos6510
