import Mos6510.Script.Function

/-!
# Running scripts

A script is the text between `$(` and `)`.  It is run as an assignment of that
text to the name `rc`, which further statements may follow, and what is
assigned is its value.

The first argument of the functions that evaluate is a bound on how deep they
call each other.  A function is never called while it is being called, so a
bound that is never met follows from the size of the script.
-/

namespace Mos6510.Script

/-- Where an expression is evaluated. -/
structure Env where
  /-- Where the variables of the functions around start, the innermost first. -/
  frames : List Nat
  /-- The functions that are being called. -/
  active : List Nat := []

/-- How a statement ends. -/
inductive Flow where
  | next
  | leave
  | again
  | result (v : Value)

/-! ## Variables -/

/-- The value of a name; fails if nothing has been assigned to it. -/
def Env.read (env : Env) : Ref → Eval Value
  | .slot out i => do
    let first ← env.frames[out]?
    (((← get).slots[first + i]?).join : Option Value)
  | .global name => do (← get).globals.lookup name
  | .define v => return .int v.toInt
  | .none => return .none
  | .bool b => return .bool b
  | .prim f => return .prim f

/-- Assign a value to a name. -/
def Env.write (env : Env) (r : Ref) (v : Value) : Eval Unit := do
  match r with
  | .slot out i =>
    let first ← env.frames[out]?
    modify fun s => { s with slots := s.slots.setIfInBounds (first + i) (some v) }
  | .global name => modify fun s => { s with globals := (name, v) :: s.globals }
  | _ => failure

/-- Make variables, of which the first have values. -/
def newFrame (slots : Nat) (values : List Value) : Eval Nat :=
  modifyGet fun s =>
    let frame : List (Option Value) :=
      values.map some ++ List.replicate (slots - values.length) none
    (s.slots.size, { s with slots := s.slots ++ frame })

/-! ## Arguments -/

/-- The values of ordinary parameters, those that are not given taken from the
defaults. -/
def withDefaults? : List (String × Bool) → List (Option Value) → List Value → Option (List Value)
  | [], _, _ => some []
  | (_, false) :: names, v :: vs, ds => do return (← v) :: (← withDefaults? names vs ds)
  | (_, true) :: names, v :: vs, d :: ds => do return v.getD d :: (← withDefaults? names vs ds)
  | _, _, _ => none

/-- Put arguments by name among the values of parameters; what names no
parameter is left.  None may have a value already. -/
def placeNamed? (names : List (List UInt8)) :
    List (Option Value) → Named → Option (List (Option Value) × Named)
  | vs, [] => some (vs, [])
  | vs, (k, v) :: rest =>
    match names.findIdx? (· == k) with
    | some i =>
      if (vs[i]?).join.isSome then none else placeNamed? names (vs.set i (some v)) rest
    | none => do
      let (vs, left) ← placeNamed? names vs rest
      if (left.map (·.1)).contains k then none else return (vs, (k, v) :: left)

/-- The values that a call gives to the parameters of a function. -/
def Shape.arguments (shape : Shape) (defaults args : List Value) (named : Named) :
    Eval (List Value) := do
  let n := min args.length shape.positional
  if shape.positional < args.length && shape.rest.isNone then failure
  else
    let names := shape.names.map fun p => (Bytes.ofString p.1).toList
    let given := (args.take n).map some ++ List.replicate (names.length - n) none
    let (given, left) ← placeNamed? names given named
    let ordinary ← withDefaults? shape.names given defaults
    let rest := if shape.rest.isSome then [Value.tuple (args.drop n)] else []
    match shape.table with
    | some _ =>
      let table ← newDict (left.map fun e => (Value.ofBytes e.1, e.2)).toArray
      return ordinary ++ rest ++ [table]
    | none => if left.isEmpty then return ordinary ++ rest else failure

/-- Arguments by name from a dictionary. -/
def namedFrom (v : Value) : Eval Named := do
  match v with
  | .dict p => ((← get).dictItems p).toList.mapM fun e => do
      let k ← (e.1.str? : Eval (List UInt8))
      return (k, e.2)
  | _ => failure

/-- Keys and values in turn as the entries of a dictionary, no key twice. -/
def entriesOf? (entries : Array (Value × Value)) : List Value → Option (Array (Value × Value))
  | k :: v :: rest => do
    match ← position? entries k with
    | some _ => none
    | none => entriesOf? (entries.push (k, v)) rest
  | _ => some entries

/-! ## Evaluation -/

mutual

def eval : Nat → Env → Expr Ref → Eval Value
  | 0, _, _ => failure
  | fuel + 1, env, x => do
    match x with
    | .none => return .none
    | .int n => return .int n
    | .real x => return .real x
    | .text s => return .ofBytes s
    | .bytes s => return .bytes { part := s }
    | .name r => env.read r
    | .list xs => listOf (← xs.mapM (eval fuel env))
    | .tuple xs => return .tuple (← xs.mapM (eval fuel env))
    | .dict xs =>
      let vs ← xs.mapM (eval fuel env)
      newDict (← entriesOf? #[] vs)
    | .unary op x => unaryOp op (← eval fuel env x)
    | .binary op x y =>
      let a ← eval fuel env x
      let b ← eval fuel env y
      binaryOp op a b
    | .both x y =>
      let a ← eval fuel env x
      if ← truth a then eval fuel env y else return a
    | .either x y =>
      let a ← eval fuel env x
      if ← truth a then return a else eval fuel env y
    | .choice c x y =>
      let a ← eval fuel env c
      if ← truth a then eval fuel env x else eval fuel env y
    | .lambda code => makeClosure fuel env code
    | .call f xs names ys rest table =>
      let g ← eval fuel env f
      let args ← xs.mapM (eval fuel env)
      let values ← ys.mapM (eval fuel env)
      let more ← match rest with
        | some x => pure (← itemsOf (← eval fuel env x)).toList
        | none => pure []
      let moreNamed ← match table with
        | some x => namedFrom (← eval fuel env x)
        | none => pure []
      let named := (names.map fun n => (Bytes.ofString n).toList).zip values
      call fuel env.active g (args ++ more) (named ++ moreNamed)
    | .field x name =>
      let v ← eval fuel env x
      (← methodOf v name)
    | .index x i =>
      let a ← eval fuel env x
      let b ← eval fuel env i
      indexOf a b
    | .slice x low high step =>
      let a ← eval fuel env x
      let b ← eval fuel env low
      let c ← eval fuel env high
      let d ← eval fuel env step
      sliceOf a b c d
    | .listOf x cs =>
      let xs ← comprehend fuel env cs (fun (vs : Array Value) => do
        return vs.push (← eval fuel env x)) #[]
      newList xs
    | .dictOf k v cs =>
      let es ← comprehend fuel env cs (fun (es : Array (Value × Value)) => do
        let a ← eval fuel env k
        let b ← eval fuel env v
        put? es a b) #[]
      newDict es

/-- Do something for each choice of items that the clauses of a comprehension
admit, handing on what has been found. -/
def comprehend {α : Type} : Nat → Env → List (Clause Ref) → (α → Eval α) → α → Eval α
  | 0, _, _, _, _ => failure
  | fuel + 1, env, cs, f, a => do
    match cs with
    | [] => f a
    | .each t x :: rest =>
      let v ← eval fuel env x
      foldWalk v (fun a item => do
        assign fuel env t item
        comprehend fuel env rest f a) a
    | .only c :: rest =>
      if ← truth (← eval fuel env c) then comprehend fuel env rest f a else return a

def assign : Nat → Env → Expr Ref → Value → Eval Unit
  | 0, _, _, _ => failure
  | fuel + 1, env, t, v => do
    match t with
    | .name r => env.write r v
    | .index x i =>
      let a ← eval fuel env x
      let b ← eval fuel env i
      setIndex a b v
    | .list ts => assignAll fuel env ts v
    | .tuple ts => assignAll fuel env ts v
    | _ => failure

/-- Assign the items of a value to as many expressions. -/
def assignAll : Nat → Env → List (Expr Ref) → Value → Eval Unit
  | 0, _, _, _ => failure
  | fuel + 1, env, ts, v => do
    let xs ← itemsOf v
    if xs.count != ts.length then failure
    else (ts.zip xs.toList).forM fun p => assign fuel env p.1 p.2

/-- A function with the variables around it. -/
def makeClosure : Nat → Env → Func Ref → Eval Value
  | 0, _, _ => failure
  | fuel + 1, env, .mk id name shape defaults body slots => do
    let values ← defaults.mapM (eval fuel env)
    let n ← fresh
    return .closure n (.mk id name shape defaults body slots) env.frames values

def call : Nat → List Nat → Value → List Value → Named → Eval Value
  | 0, _, _, _, _ => failure
  | fuel + 1, active, f, args, named => do
    match f with
    | .prim p => callPrim (fun g xs => call fuel active g xs []) p args named
    | .method _ self name => callMethod self name args named
    | .closure _ (.mk id _ shape _ body slots) frames defaults =>
      if active.contains id then failure
      else
        let values ← shape.arguments defaults args named
        let first ← newFrame slots values
        match ← execAll fuel { frames := first :: frames, active := id :: active } body with
        | .result v => return v
        | _ => return .none
    | _ => failure

def exec : Nat → Env → Stmt Ref → Eval Flow
  | 0, _, _ => failure
  | fuel + 1, env, s => do
    match s with
    | .pass => return .next
    | .expr x =>
      let _ ← eval fuel env x
      return .next
    | .assign t x =>
      let v ← eval fuel env x
      assign fuel env t v
      return .next
    | .augment op (.name r) x =>
      let a ← env.read r
      let b ← eval fuel env x
      env.write r (← augment op a b)
      return .next
    | .augment op (.index x i) y =>
      let a ← eval fuel env x
      let k ← eval fuel env i
      let old ← indexOf a k
      let b ← eval fuel env y
      setIndex a k (← augment op old b)
      return .next
    | .augment _ _ _ => failure
    | .choose c yes no =>
      if ← truth (← eval fuel env c) then execAll fuel env yes else execAll fuel env no
    | .loop t x body =>
      let v ← eval fuel env x
      let r ← walk v fun item => do
        assign fuel env t item
        match ← execAll fuel env body with
        | .leave => return some Flow.next
        | .result v => return some (.result v)
        | _ => return none
      return r.getD .next
    | .define r code =>
      let v ← makeClosure fuel env code
      env.write r v
      return .next
    | .result x =>
      let v ← eval fuel env x
      return .result v
    | .leave => return .leave
    | .again => return .again

/-- Execute statements, up to the first that does not go on. -/
def execAll : Nat → Env → List (Stmt Ref) → Eval Flow
  | 0, _, _ => failure
  | _, _, [] => return .next
  | fuel + 1, env, s :: rest => do
    match ← exec fuel env s with
    | .next => execAll fuel env rest
    | flow => return flow

end

/-! ## Scripts -/

/-- The name that holds the value of a script. -/
def resultName : String := "rc"

/-- The outcome of a script. -/
inductive Outcome where
  /-- The script is malformed or fails. -/
  | failed
  /-- The value of the script, if it has one. -/
  | value (v : Option Value)
  deriving Inhabited

/-- Run a script that is `size` characters long. -/
def Program.run (p : Program) (size : Nat) : Option Store := do
  let fuel := 16 * (size + 8) * (size + 8)
  let start : Store := { slots := Array.replicate p.slots none }
  let (_, s) ← (execAll fuel { frames := [0] } p.body).run start
  return s

/-- Run a script with defines that it can name. -/
def run (defines : List (String × Int64)) (text : String) : Outcome :=
  let cs := (resultName ++ "=" ++ text ++ "\n").toList
  let store? := do (← Program.ofStmts? defines (← parse? cs)).run cs.length
  match store? with
  | some s => .value (s.globals.lookup resultName)
  | none => .failed

/-- The number that a value stands for in source text: an integer of 64 bits,
or one and zero for a truth value. -/
def Value.number? : Value → Option Int64
  | .bool b => some (if b then 1 else 0)
  | v => v.int64?.map Int64.ofInt

end Mos6510.Script
