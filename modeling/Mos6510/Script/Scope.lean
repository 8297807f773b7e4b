import Mos6510.Script.Parser

/-!
# What the names of scripts stand for

Before a script runs, every name is bound to what it stands for, also in parts
that are never evaluated.  A name is a variable of the innermost function or
comprehension that assigns to it anywhere; else a global, if any statement of
the script assigns to it; else a define; else one of the names that every
script knows.

The variables of a comprehension are kept with those of the function around
it.  A global is assigned to once, and only functions hold loops and
conditional statements.
-/

namespace Mos6510.Script

/-- The functions that every script knows. -/
inductive Prim where
  | abs
  | all
  | any
  | bool
  | bytes
  | chr
  | dict
  | dir
  | enumerate
  | fail
  | float
  | getattr
  | hasattr
  | hash
  | int
  | len
  | list
  | max
  | min
  | ord
  | print
  | range
  | repr
  | reversed
  | sorted
  | str
  | tuple
  | type
  | zip
  deriving DecidableEq, Repr, Inhabited

namespace Prim

def every : List Prim :=
  [abs, all, any, bool, bytes, chr, dict, dir, enumerate, fail, float, getattr, hasattr, hash,
    int, len, list, max, min, ord, print, range, repr, reversed, sorted, str, tuple, type, zip]

def name : Prim → String
  | abs => "abs"
  | all => "all"
  | any => "any"
  | bool => "bool"
  | bytes => "bytes"
  | chr => "chr"
  | dict => "dict"
  | dir => "dir"
  | enumerate => "enumerate"
  | fail => "fail"
  | float => "float"
  | getattr => "getattr"
  | hasattr => "hasattr"
  | hash => "hash"
  | int => "int"
  | len => "len"
  | list => "list"
  | max => "max"
  | min => "min"
  | ord => "ord"
  | print => "print"
  | range => "range"
  | repr => "repr"
  | reversed => "reversed"
  | sorted => "sorted"
  | str => "str"
  | tuple => "tuple"
  | type => "type"
  | zip => "zip"

def ofName? (s : String) : Option Prim := every.find? fun p => p.name == s

end Prim

/-- What a name stands for. -/
inductive Ref where
  /-- A variable of the function so many functions outwards. -/
  | slot (out index : Nat)
  | global (name : String)
  | define (value : Int64)
  | none
  | bool (value : Bool)
  | prim (f : Prim)
  deriving DecidableEq, Repr, Inhabited

/-- The names outside all functions: the globals of the script, and what is
defined for it. -/
structure World where
  globals : List String
  defines : List (String × Int64)

/-- The variables of the functions around, the innermost first. -/
abbrev Scopes := List (List (String × Nat))

/-- The variable with a name, counting outwards. -/
def slot? (name : String) : Nat → Scopes → Option Ref
  | _, [] => none
  | out, s :: rest =>
    match s.lookup name with
    | some i => some (.slot out i)
    | none => slot? name (out + 1) rest

/-- What a name outside all functions stands for. -/
def World.ref? (w : World) (name : String) : Option Ref :=
  if w.globals.contains name then some (.global name)
  else match w.defines.lookup name with
    | some v => some (.define v)
    | none =>
      match name with
      | "None" => some .none
      | "True" => some (.bool true)
      | "False" => some (.bool false)
      | name => (Prim.ofName? name).map .prim

def World.find? (w : World) (scopes : Scopes) (name : String) : Option Ref :=
  (slot? name 0 scopes).orElse fun _ => w.ref? name

/-! ## Names that are assigned to -/

mutual

/-- The names that an assignment to an expression binds; nothing if it cannot
be assigned to. -/
def Expr.binds? : Expr String → Option (List String)
  | .name s => some [s]
  | .index _ _ => some []
  | .field _ _ => some []
  | .list xs => bindsAll? xs
  | .tuple xs => bindsAll? xs
  | _ => none

/-- The names that an assignment to expressions binds. -/
def bindsAll? : List (Expr String) → Option (List String)
  | [] => some []
  | x :: rest => do return (← x.binds?) ++ (← bindsAll? rest)

end

/-- Does the expression have several parts to assign to? -/
def Expr.isSeries {ν : Type} : Expr ν → Bool
  | .list _ => true
  | .tuple _ => true
  | _ => false

/-- The names that the clauses of a comprehension bind. -/
def clausesBind? : List (Clause String) → Option (List String)
  | [] => some []
  | .each t _ :: rest => do return (← t.binds?) ++ (← clausesBind? rest)
  | .only _ :: rest => clausesBind? rest

mutual

/-- The names that a statement binds; nothing if it assigns to what cannot be
assigned to. -/
def Stmt.binds? : Stmt String → Option (List String)
  | .assign t _ => t.binds?
  | .augment _ t _ => if t.isSeries then none else t.binds?
  | .choose _ yes no => do return (← stmtsBind? yes) ++ (← stmtsBind? no)
  | .loop t _ body => do return (← t.binds?) ++ (← stmtsBind? body)
  | .define name _ => some [name]
  | _ => some []

def stmtsBind? : List (Stmt String) → Option (List String)
  | [] => some []
  | s :: rest => do return (← s.binds?) ++ (← stmtsBind? rest)

end

/-! ## Binding -/

/-- Binding keeps count of the variables of the function at hand, and fails on
a name that stands for nothing. -/
abbrev Bind := StateT Nat Option

/-- Where a statement stands. -/
inductive Site where
  | top
  | body
  | loop
  deriving DecidableEq, Repr, Inhabited

def Site.inFunction (s : Site) : Bool := s != .top

/-- Names with variables of their own, in front of the innermost scope. -/
def inner (names : List String) (scopes : Scopes) : Bind Scopes := do
  let first ← get
  let block := names.eraseDups.zipIdx first
  set (first + block.length)
  match scopes with
  | s :: rest => return (block ++ s) :: rest
  | [] => return [block]

mutual

def Expr.bind (w : World) (scopes : Scopes) : Expr String → Bind (Expr Ref)
  | .none => return .none
  | .int n => return .int n
  | .real x => return .real x
  | .text s => return .text s
  | .bytes s => return .bytes s
  | .name s => do return .name (← w.find? scopes s)
  | .list xs => do return .list (← bindAll w scopes xs)
  | .tuple xs => do return .tuple (← bindAll w scopes xs)
  | .dict xs => do return .dict (← bindAll w scopes xs)
  | .unary op x => do return .unary op (← x.bind w scopes)
  | .binary op x y => do return .binary op (← x.bind w scopes) (← y.bind w scopes)
  | .both x y => do return .both (← x.bind w scopes) (← y.bind w scopes)
  | .either x y => do return .either (← x.bind w scopes) (← y.bind w scopes)
  | .choice c x y => do
    return .choice (← c.bind w scopes) (← x.bind w scopes) (← y.bind w scopes)
  | .lambda code => do return .lambda (← code.bind w scopes)
  | .call f xs names ys rest table => do
    return .call (← f.bind w scopes) (← bindAll w scopes xs) names (← bindAll w scopes ys)
      (← bindOption w scopes rest) (← bindOption w scopes table)
  | .field x name => do return .field (← x.bind w scopes) name
  | .index x i => do return .index (← x.bind w scopes) (← i.bind w scopes)
  | .slice x low high step => do
    return .slice (← x.bind w scopes) (← low.bind w scopes) (← high.bind w scopes)
      (← step.bind w scopes)
  | .listOf x cs => do
    let within ← inner (← clausesBind? cs) scopes
    return .listOf (← x.bind w within) (← bindClauses w scopes within cs)
  | .dictOf k v cs => do
    let within ← inner (← clausesBind? cs) scopes
    return .dictOf (← k.bind w within) (← v.bind w within) (← bindClauses w scopes within cs)

def bindAll (w : World) (scopes : Scopes) : List (Expr String) → Bind (List (Expr Ref))
  | [] => return []
  | x :: rest => do return (← x.bind w scopes) :: (← bindAll w scopes rest)

/-- Bind the names of an expression that may be missing. -/
def bindOption (w : World) (scopes : Scopes) : Option (Expr String) → Bind (Option (Expr Ref))
  | none => return none
  | some x => do return some (← x.bind w scopes)

/-- Bind the names of clauses.  The items of the first one stand outside the
comprehension. -/
def bindClauses (w : World) (outside within : Scopes) :
    List (Clause String) → Bind (List (Clause Ref))
  | [] => return []
  | .each t x :: rest => do
    return .each (← t.bind w within) (← x.bind w outside) :: (← bindClauses w within within rest)
  | .only c :: rest => do
    return .only (← c.bind w within) :: (← bindClauses w within within rest)

/-- Bind the names of a function: its defaults stand outside it. -/
def Func.bind (w : World) (scopes : Scopes) : Func String → Bind (Func Ref)
  | .mk id name shape defaults body _ => do
    let defaults ← bindAll w scopes defaults
    let own := (shape.binds ++ (← stmtsBind? body)).eraseDups
    let (body, slots) ← (bindStmts w (own.zipIdx :: scopes) .body body).run own.length
    return .mk id name shape defaults body slots

def Stmt.bind (w : World) (scopes : Scopes) (site : Site) : Stmt String → Bind (Stmt Ref)
  | .pass => return .pass
  | .expr x => do return .expr (← x.bind w scopes)
  | .assign t x => do return .assign (← t.bind w scopes) (← x.bind w scopes)
  | .augment op t x => do return .augment op (← t.bind w scopes) (← x.bind w scopes)
  | .choose c yes no =>
    if site.inFunction then do
      return .choose (← c.bind w scopes) (← bindStmts w scopes site yes)
        (← bindStmts w scopes site no)
    else failure
  | .loop t x body =>
    if site.inFunction then do
      return .loop (← t.bind w scopes) (← x.bind w scopes) (← bindStmts w scopes .loop body)
    else failure
  | .define name code => do return .define (← w.find? scopes name) (← code.bind w scopes)
  | .result x => if site.inFunction then do return .result (← x.bind w scopes) else failure
  | .leave => if site == .loop then return .leave else failure
  | .again => if site == .loop then return .again else failure

def bindStmts (w : World) (scopes : Scopes) (site : Site) :
    List (Stmt String) → Bind (List (Stmt Ref))
  | [] => return []
  | s :: rest => do return (← s.bind w scopes site) :: (← bindStmts w scopes site rest)

end

/-- A script that is ready to run: its statements and the number of the
variables of its comprehensions. -/
structure Program where
  body : List (Stmt Ref)
  slots : Nat

/-- Bind the names of a script; nothing if one stands for nothing, or if a
global is assigned to twice. -/
def Program.ofStmts? (defines : List (String × Int64)) (body : List (Stmt String)) :
    Option Program := do
  let globals ← stmtsBind? body
  if globals.eraseDups.length != globals.length then none
  else
    let w : World := { globals := globals, defines := defines }
    let (body, slots) ← (bindStmts w [[]] .top body).run 0
    return { body := body, slots := slots }

end Mos6510.Script
