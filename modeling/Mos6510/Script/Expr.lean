import Mos6510.Double

/-!
# Expressions and statements of scripts

The trees that a script is made of.  Names are of a type `ν` of their own: a
parsed script holds them as they are written, one that is ready to run holds
what they stand for.
-/

namespace Mos6510.Script

/-- An operator before its operand. -/
inductive UnaryOp where
  | plus
  | minus
  | invert
  | not
  deriving DecidableEq, Repr, Inhabited

/-- An operator between two operands that are both evaluated. -/
inductive BinaryOp where
  | add
  | sub
  | mul
  | div
  | floorDiv
  | rem
  | bitAnd
  | bitOr
  | bitXor
  | shiftLeft
  | shiftRight
  | eq
  | ne
  | lt
  | le
  | gt
  | ge
  | isIn
  | notIn
  deriving DecidableEq, Repr, Inhabited

/-- How the parameters of a function are given. -/
structure Shape where
  /-- The ordinary parameters; the flag says which have a default. -/
  names : List (String × Bool) := []
  /-- How many of them can be given by position. -/
  positional : Nat := 0
  /-- Takes the positions that are left, as a tuple. -/
  rest : Option String := none
  /-- Takes the names that are left, as a dictionary. -/
  table : Option String := none
  deriving DecidableEq, Repr, Inhabited

/-- The names that the parameters bind, in the order of their slots. -/
def Shape.binds (s : Shape) : List String :=
  s.names.map (·.1) ++ s.rest.toList ++ s.table.toList

mutual

/-- An expression. -/
inductive Expr (ν : Type) where
  | none
  | int (value : Nat)
  | real (value : Double)
  | text (value : List UInt8)
  | bytes (value : List UInt8)
  | name (name : ν)
  | list (items : List (Expr ν))
  | tuple (items : List (Expr ν))
  /-- Keys and values in turn. -/
  | dict (items : List (Expr ν))
  | unary (op : UnaryOp) (x : Expr ν)
  | binary (op : BinaryOp) (x y : Expr ν)
  | both (x y : Expr ν)
  | either (x y : Expr ν)
  | choice (cond yes no : Expr ν)
  | lambda (code : Func ν)
  /-- A call with its arguments by position, those by name, and perhaps the
  items of a series and a dictionary; what is missing of these is `none`. -/
  | call (f : Expr ν) (args : List (Expr ν)) (names : List String) (named : List (Expr ν))
    (rest table : Option (Expr ν))
  | field (x : Expr ν) (name : String)
  | index (x i : Expr ν)
  | slice (x low high step : Expr ν)
  | listOf (item : Expr ν) (clauses : List (Clause ν))
  | dictOf (key value : Expr ν) (clauses : List (Clause ν))

/-- A clause after the item of a comprehension. -/
inductive Clause (ν : Type) where
  | each (target items : Expr ν)
  | only (cond : Expr ν)

/-- A function: a number that no other function of the script has, its name,
its parameters with their defaults, its body and the number of its variables. -/
inductive Func (ν : Type) where
  | mk (id : Nat) (name : String) (shape : Shape) (defaults : List (Expr ν))
    (body : List (Stmt ν)) (slots : Nat)

/-- A statement. -/
inductive Stmt (ν : Type) where
  | pass
  | expr (x : Expr ν)
  | assign (target value : Expr ν)
  | augment (op : BinaryOp) (target value : Expr ν)
  | choose (cond : Expr ν) (yes no : List (Stmt ν))
  | loop (target items : Expr ν) (body : List (Stmt ν))
  | define (name : ν) (code : Func ν)
  | result (x : Expr ν)
  | leave
  | again

end

instance {ν : Type} : Inhabited (Expr ν) := ⟨.none⟩

end Mos6510.Script
