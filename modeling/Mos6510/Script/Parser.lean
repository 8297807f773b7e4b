import Mos6510.Script.Expr
import Mos6510.Script.Token

/-!
# Reading scripts

The grammar of expressions, loosest binding first: a choice `a if c else b`,
`or`, `and`, `not`, comparisons (which do not chain), `|`, `^`, `&`, shifts,
sums, products, the signs `+ - ~`, and then calls, fields and indices.

The grammar is read from the left with one token to look at.  The first
argument of its functions is a bound on how deep they call each other; the
number of tokens gives one that is never met.
-/

namespace Mos6510.Script

/-- A reader of tokens, which fails on what is malformed. -/
abbrev Parse := StateT (List Token) Option

def ahead : Parse (Option Token) := do return (← get).head?

/-- Pass over the next token. -/
def advance : Parse Unit := modify (·.drop 1)

/-- Pass over the next token if it is this one. -/
def accept (t : Token) : Parse Bool := do
  if (← ahead) == some t then
    advance
    return true
  else return false

/-- Pass over the next token, which has to be this one. -/
def expect (t : Token) : Parse Unit := do
  if ← accept t then return () else failure

def identifier : Parse String := do
  match ← ahead with
  | some (.name s) =>
    advance
    return s
  | _ => failure

/-! ## Operators -/

/-- What stands between two operands. -/
inductive Joint where
  | or
  | and
  | op (op : BinaryOp)
  deriving DecidableEq, Repr, Inhabited

/-- Two operands with what stands between them. -/
def Joint.join (j : Joint) (x y : Expr String) : Expr String :=
  match j with
  | or => .either x y
  | and => .both x y
  | op o => .binary o x y

/-- How tight an infix operator binds, from zero for the loosest. -/
def joint? : Token → Option (Nat × Joint)
  | .word "or" => some (0, .or)
  | .word "and" => some (1, .and)
  | .mark "==" => some (3, .op .eq)
  | .mark "!=" => some (3, .op .ne)
  | .mark "<" => some (3, .op .lt)
  | .mark ">" => some (3, .op .gt)
  | .mark "<=" => some (3, .op .le)
  | .mark ">=" => some (3, .op .ge)
  | .word "in" => some (3, .op .isIn)
  | .mark "|" => some (4, .op .bitOr)
  | .mark "^" => some (5, .op .bitXor)
  | .mark "&" => some (6, .op .bitAnd)
  | .mark "<<" => some (7, .op .shiftLeft)
  | .mark ">>" => some (7, .op .shiftRight)
  | .mark "-" => some (8, .op .sub)
  | .mark "+" => some (8, .op .add)
  | .mark "*" => some (9, .op .mul)
  | .mark "%" => some (9, .op .rem)
  | .mark "/" => some (9, .op .div)
  | .mark "//" => some (9, .op .floorDiv)
  | _ => none

/-- The level of `not`. -/
def notLevel : Nat := 2

def compareLevel : Nat := 3

/-- The level below all infix operators. -/
def lastLevel : Nat := 10

/-- The infix operator that comes next, with its level and the number of its
tokens; `not in` is one operator, and no other one starts with `not`. -/
def jointAhead : Parse (Option (Nat × Joint × Nat)) := do
  match ← get with
  | .word "not" :: .word "in" :: _ => return some (compareLevel, .op .notIn, 2)
  | .word "not" :: _ => failure
  | t :: _ => return (joint? t).map fun j => (j.1, j.2, 1)
  | [] => return none

/-- The operator of an augmented assignment. -/
def augmentOp? : Token → Option BinaryOp
  | .mark "+=" => some .add
  | .mark "-=" => some .sub
  | .mark "*=" => some .mul
  | .mark "/=" => some .div
  | .mark "//=" => some .floorDiv
  | .mark "%=" => some .rem
  | .mark "&=" => some .bitAnd
  | .mark "|=" => some .bitOr
  | .mark "^=" => some .bitXor
  | .mark "<<=" => some .shiftLeft
  | .mark ">>=" => some .shiftRight
  | _ => none

/-- Is this where a series of expressions ends, after a comma? -/
def endsSeries (t : Option Token) : Bool :=
  t == none || t == some .newline ||
    ["=", "\x7d", "]", ")", ";"].any fun m => t == some (.mark m)

/-! ## Parameters and arguments -/

/-- Parameters as they are read. -/
structure Params where
  shape : Shape := {}
  defaults : List (Expr String) := []
  /-- Has there been a star? -/
  starred : Bool := false

namespace Params

/-- One more ordinary parameter.  After a star it can only be given by name;
before, none without a default may follow one that has it. -/
def add? (p : Params) (name : String) (default? : Option (Expr String)) : Option Params :=
  let s := p.shape
  if s.table.isSome then none
  else if !p.starred && default?.isNone && s.names.any (·.2) then none
  else some { p with
    shape := { s with
      names := s.names ++ [(name, default?.isSome)]
      positional := if p.starred then s.positional else s.positional + 1 }
    defaults := p.defaults ++ default?.toList }

def star? (p : Params) (name? : Option String) : Option Params :=
  if p.shape.table.isSome || p.starred then none
  else some { p with shape := { p.shape with rest := name? }, starred := true }

/-- Two stars with a name. -/
def table? (p : Params) (name : String) : Option Params :=
  if p.shape.table.isSome then none
  else some { p with shape := { p.shape with table := some name } }

/-- Are the parameters complete?  No name is there twice, and a star without a
name is followed by a parameter. -/
def isComplete (p : Params) : Bool :=
  let s := p.shape
  s.binds.eraseDups.length == s.binds.length &&
    (!p.starred || s.rest.isSome || s.positional < s.names.length)

end Params

/-- Arguments as they are read. -/
structure Args where
  args : List (Expr String) := []
  names : List String := []
  named : List (Expr String) := []
  rest : Option (Expr String) := none
  table : Option (Expr String) := none

namespace Args

/-- One more argument by position: all of these come first. -/
def add? (a : Args) (x : Expr String) : Option Args :=
  if a.rest.isSome || a.table.isSome || !a.names.isEmpty then none
  else some { a with args := a.args ++ [x] }

def name? (a : Args) (name : String) (x : Expr String) : Option Args :=
  if a.rest.isSome || a.table.isSome || a.names.contains name then none
  else some { a with names := a.names ++ [name], named := a.named ++ [x] }

def rest? (a : Args) (x : Expr String) : Option Args :=
  if a.rest.isSome || a.table.isSome then none else some { a with rest := some x }

def table? (a : Args) (x : Expr String) : Option Args :=
  if a.table.isSome then none else some { a with table := some x }

/-- The most arguments of either kind. -/
def limit : Nat := 255

/-- The call of a function with the arguments. -/
def call? (a : Args) (f : Expr String) : Option (Expr String) :=
  if limit < a.args.length || limit < a.names.length then none
  else some (.call f a.args a.names a.named a.rest a.table)

end Args

/-! ## Expressions -/

mutual

/-- A choice or a function, or what binds tighter. -/
def test : Nat → Parse (Expr String)
  | 0 => failure
  | fuel + 1 => do
    if ← accept (.word "lambda") then
      lambda fuel true
    else
      let x ← operand fuel 0
      if ← accept (.word "if") then
        let c ← operand fuel 0
        expect (.word "else")
        let y ← test fuel
        return .choice c x y
      else return x

/-- The condition of a comprehension, which is no choice. -/
def condition : Nat → Parse (Expr String)
  | 0 => failure
  | fuel + 1 => do
    if ← accept (.word "lambda") then lambda fuel false else operand fuel 0

/-- A function after its word; its body may be a choice, or not. -/
def lambda : Nat → Bool → Parse (Expr String)
  | 0, _ => failure
  | fuel + 1, choice => do
    let id := (← get).length
    let p ← params fuel true {}
    expect (.mark ":")
    let body ← if choice then test fuel else condition fuel
    if p.isComplete then
      return .lambda (.mk id "lambda" p.shape p.defaults [.result body] 0)
    else failure

/-- Parameters up to the end of their list. -/
def params : Nat → Bool → Params → Parse Params
  | 0, _, _ => failure
  | fuel + 1, isFirst, p => do
    match ← ahead with
    | none => return p
    | some (.mark ")") => return p
    | some (.mark ":") => return p
    | some _ =>
      if !isFirst then expect (.mark ",")
      if (← ahead) == some (.mark ")") then return p
      else if ← accept (.mark "**") then
        let name ← identifier
        params fuel false (← p.table? name)
      else if ← accept (.mark "*") then
        match ← ahead with
        | some (.name name) =>
          advance
          params fuel false (← p.star? (some name))
        | _ => params fuel false (← p.star? none)
      else
        let name ← identifier
        if ← accept (.mark "=") then
          let x ← test fuel
          params fuel false (← p.add? name (some x))
        else params fuel false (← p.add? name none)

/-- What binds at least as tight as a level. -/
def operand : Nat → Nat → Parse (Expr String)
  | 0, _ => failure
  | fuel + 1, level => do
    if lastLevel ≤ level then suffixed fuel
    else if level == notLevel && (← ahead) == some (.word "not") then
      advance
      let x ← operand fuel notLevel
      return .unary .not x
    else
      let x ← operand fuel (level + 1)
      chain fuel level true x

/-- The operators of a level after their first operand. -/
def chain : Nat → Nat → Bool → Expr String → Parse (Expr String)
  | 0, _, _, _ => failure
  | fuel + 1, level, isFirst, x => do
    match ← jointAhead with
    | none => return x
    | some (n, j, size) =>
      if n < level then return x
      else if !isFirst && n == compareLevel then failure
      else
        modify (·.drop size)
        let y ← operand fuel (n + 1)
        chain fuel level false (j.join x y)

/-- A primary with its calls, fields and indices. -/
def suffixed : Nat → Parse (Expr String)
  | 0 => failure
  | fuel + 1 => do
    let x ← primary fuel
    suffixes fuel x

/-- Calls, fields and indices after a primary. -/
def suffixes : Nat → Expr String → Parse (Expr String)
  | 0, _ => failure
  | fuel + 1, x => do
    if ← accept (.mark ".") then
      let name ← identifier
      suffixes fuel (.field x name)
    else if ← accept (.mark "[") then
      let y ← subscript fuel x
      suffixes fuel y
    else if ← accept (.mark "(") then
      let a ← arguments fuel true {}
      expect (.mark ")")
      suffixes fuel (← a.call? x)
    else return x

/-- An index or a slice after its bracket. -/
def subscript : Nat → Expr String → Parse (Expr String)
  | 0, _ => failure
  | fuel + 1, x => do
    if (← ahead) == some (.mark ":") then bounds fuel x .none
    else
      let i ← series fuel false
      if ← accept (.mark "]") then return .index x i
      else bounds fuel x i

/-- The bounds of a slice after the first one. -/
def bounds : Nat → Expr String → Expr String → Parse (Expr String)
  | 0, _, _ => failure
  | fuel + 1, x, low => do
    let high ← bound fuel
    let step ← bound fuel
    expect (.mark "]")
    return .slice x low high step

/-- A bound of a slice with the colon before it; both may be missing. -/
def bound : Nat → Parse (Expr String)
  | 0 => failure
  | fuel + 1 => do
    if ← accept (.mark ":") then
      let t ← ahead
      if t == some (.mark ":") || t == some (.mark "]") then return .none else test fuel
    else return .none

/-- Arguments up to the end of their list. -/
def arguments : Nat → Bool → Args → Parse Args
  | 0, _, _ => failure
  | fuel + 1, isFirst, a => do
    match ← ahead with
    | none => return a
    | some (.mark ")") => return a
    | some _ =>
      if !isFirst then expect (.mark ",")
      match ← get with
      | .mark ")" :: _ => return a
      | .mark "*" :: _ =>
        advance
        let x ← test fuel
        arguments fuel false (← a.rest? x)
      | .mark "**" :: _ =>
        advance
        let x ← test fuel
        arguments fuel false (← a.table? x)
      | .name name :: .mark "=" :: _ =>
        advance
        advance
        let x ← test fuel
        arguments fuel false (← a.name? name x)
      | _ =>
        let x ← test fuel
        arguments fuel false (← a.add? x)

def primary : Nat → Parse (Expr String)
  | 0 => failure
  | fuel + 1 => do
    let t ← ahead
    advance
    match t with
    | some (.int n) => return .int n
    | some (.real x) => return .real x
    | some (.text s) => return .text s
    | some (.bytes s) => return .bytes s
    | some (.name s) => return .name s
    | some (.mark "-") =>
      let x ← suffixed fuel
      return .unary .minus x
    | some (.mark "+") =>
      let x ← suffixed fuel
      return .unary .plus x
    | some (.mark "~") =>
      let x ← suffixed fuel
      return .unary .invert x
    | some (.mark "(") =>
      if ← accept (.mark ")") then return .tuple []
      else
        let x ← series fuel true
        expect (.mark ")")
        return x
    | some (.mark "[") =>
      if ← accept (.mark "]") then return .list []
      else
        let x ← test fuel
        if (← ahead) == some (.word "for") then
          let cs ← clauses fuel (.mark "]")
          return .listOf x cs
        else
          let xs ← moreItems fuel true
          expect (.mark "]")
          return .list (x :: xs)
    | some (.mark "\x7b") =>
      if ← accept (.mark "\x7d") then return .dict []
      else
        let (k, v) ← entry fuel
        if (← ahead) == some (.word "for") then
          let cs ← clauses fuel (.mark "\x7d")
          return .dictOf k v cs
        else
          let xs ← moreEntries fuel
          expect (.mark "\x7d")
          return .dict (k :: v :: xs)
    | _ => failure

/-- Expressions between commas; several make a tuple. -/
def series : Nat → Bool → Parse (Expr String)
  | 0, _ => failure
  | fuel + 1, trailing => do
    let x ← test fuel
    if (← ahead) == some (.mark ",") then
      let xs ← moreItems fuel trailing
      return .tuple (x :: xs)
    else return x

/-- The expressions that follow, each with a comma before it; a comma may
stand after the last one, or not. -/
def moreItems : Nat → Bool → Parse (List (Expr String))
  | 0, _ => failure
  | fuel + 1, trailing => do
    if ← accept (.mark ",") then
      if endsSeries (← ahead) then
        if trailing then return [] else failure
      else
        let x ← test fuel
        let xs ← moreItems fuel trailing
        return x :: xs
    else return []

def entry : Nat → Parse (Expr String × Expr String)
  | 0 => failure
  | fuel + 1 => do
    let k ← test fuel
    expect (.mark ":")
    let v ← test fuel
    return (k, v)

/-- The keys and values that follow, with a comma before each pair. -/
def moreEntries : Nat → Parse (List (Expr String))
  | 0 => failure
  | fuel + 1 => do
    if ← accept (.mark ",") then
      if (← ahead) == some (.mark "\x7d") then return []
      else
        let (k, v) ← entry fuel
        let xs ← moreEntries fuel
        return k :: v :: xs
    else return []

/-- The clauses of a comprehension, with the bracket that closes it. -/
def clauses : Nat → Token → Parse (List (Clause String))
  | 0, _ => failure
  | fuel + 1, close => do
    if ← accept close then return []
    else if ← accept (.word "for") then
      let t ← target fuel
      expect (.word "in")
      let x ← operand fuel 0
      let cs ← clauses fuel close
      return .each t x :: cs
    else
      expect (.word "if")
      let c ← condition fuel
      let cs ← clauses fuel close
      return .only c :: cs

/-- What a loop assigns its items to. -/
def target : Nat → Parse (Expr String)
  | 0 => failure
  | fuel + 1 => do
    let x ← suffixed fuel
    if (← ahead) == some (.mark ",") then
      let xs ← moreTargets fuel
      return .tuple (x :: xs)
    else return x

/-- The targets that follow, each with a comma before it. -/
def moreTargets : Nat → Parse (List (Expr String))
  | 0 => failure
  | fuel + 1 => do
    if ← accept (.mark ",") then
      if endsSeries (← ahead) then return []
      else
        let x ← suffixed fuel
        let xs ← moreTargets fuel
        return x :: xs
    else return []

end

/-! ## Statements -/

/-- A statement that holds no others. -/
def smallStmt (fuel : Nat) : Parse (Stmt String) := do
  if ← accept (.word "pass") then return .pass
  else if ← accept (.word "break") then return .leave
  else if ← accept (.word "continue") then return .again
  else if ← accept (.word "return") then
    let t ← ahead
    if t == none || t == some .newline || t == some (.mark ";") then return .result .none
    else
      let x ← series fuel false
      return .result x
  else
    let x ← series fuel false
    if ← accept (.mark "=") then
      let y ← series fuel false
      return .assign x y
    else match (← ahead).bind augmentOp? with
      | some op =>
        advance
        let y ← series fuel false
        return .augment op x y
      | none => return .expr x

/-- The statements of a line, between semicolons. -/
def simpleStmts : Nat → Parse (List (Stmt String))
  | 0 => failure
  | fuel + 1 => do
    let s ← smallStmt fuel
    let more ← accept (.mark ";")
    match ← ahead with
    | none => return [s]
    | some .newline =>
      advance
      return [s]
    | some _ =>
      if more then
        let ss ← simpleStmts fuel
        return s :: ss
      else failure

mutual

/-- The statements that start with the next token. -/
def stmts : Nat → Parse (List (Stmt String))
  | 0 => failure
  | fuel + 1 => do
    if ← accept (.word "def") then
      let id := (← get).length
      let name ← identifier
      expect (.mark "(")
      let p ← params fuel true {}
      expect (.mark ")")
      expect (.mark ":")
      let body ← suite fuel
      if p.isComplete then return [.define name (.mk id name p.shape p.defaults body 0)]
      else failure
    else if ← accept (.word "if") then
      let s ← branch fuel
      return [s]
    else if ← accept (.word "for") then
      let t ← target fuel
      expect (.word "in")
      let x ← series fuel false
      expect (.mark ":")
      let body ← suite fuel
      return [.loop t x body]
    else simpleStmts fuel

/-- A conditional statement after its word. -/
def branch : Nat → Parse (Stmt String)
  | 0 => failure
  | fuel + 1 => do
    let c ← test fuel
    expect (.mark ":")
    let yes ← suite fuel
    if ← accept (.word "elif") then
      let s ← branch fuel
      return .choose c yes [s]
    else if ← accept (.word "else") then
      expect (.mark ":")
      let no ← suite fuel
      return .choose c yes no
    else return .choose c yes []

/-- The statements that belong to another one: the rest of its line, or a
block. -/
def suite : Nat → Parse (List (Stmt String))
  | 0 => failure
  | fuel + 1 => do
    if ← accept .newline then
      expect .indent
      block fuel
    else simpleStmts fuel

/-- The statements of a block up to its end. -/
def block : Nat → Parse (List (Stmt String))
  | 0 => failure
  | fuel + 1 => do
    if ← accept .outdent then return []
    else
      let ss ← stmts fuel
      let more ← block fuel
      return ss ++ more

end

def script : Nat → Parse (List (Stmt String))
  | 0 => failure
  | fuel + 1 => do
    if ← accept .newline then script fuel
    else if (← get).isEmpty then return []
    else
      let ss ← stmts fuel
      let more ← script fuel
      return ss ++ more

/-- Read a script; nothing if it is malformed. -/
def parse? (cs : List Char) : Option (List (Stmt String)) := do
  let ts ← tokens? cs
  (script (24 * (ts.length + 1))).run' ts

end Mos6510.Script
