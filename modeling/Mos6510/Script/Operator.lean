import Mos6510.Script.Format

/-!
# Operators of scripts

Arithmetic on integers is exact.  An integer that meets a number in floating
point is rounded to one first, and fails if it is too large for that;
dividing by zero fails as well.
-/

namespace Mos6510.Script

/-! ## Numbers -/

/-- Bits of two integers joined by an operation on naturals, in two's
complement of enough width. -/
def bitwise (f : Nat → Nat → Nat) (a b : Int) : Int :=
  let width := max a.natAbs.log2 b.natAbs.log2 + 2
  let m : Nat := 1 <<< width
  let r := f (a % m).toNat (b % m).toNat % m
  if r < m / 2 then r else (r : Int) - m

/-- An integer in floating point, unless it is too large. -/
def finite? (n : Int) : Option Double :=
  let x := Double.ofInt n
  if x.isFinite then some x else none

/-- An operator on two numbers in floating point. -/
def realOp? (op : BinaryOp) (x y : Double) : Option Value :=
  match op with
  | .add => some (.real (x.add y))
  | .sub => some (.real (x.sub y))
  | .mul => some (.real (x.mul y))
  | .div => if y.isZero then none else some (.real (x.div y))
  | .floorDiv => if y.isZero then none else some (.real (x.div y).floor)
  | .rem => if y.isZero then none else some (.real (x.mod y))
  | _ => none

/-- The first shift to the left that is too far. -/
def shiftLimit : Int := 512

def intOp? (op : BinaryOp) (a b : Int) : Option Value :=
  match op with
  | .add => some (.int (a + b))
  | .sub => some (.int (a - b))
  | .mul => some (.int (a * b))
  | .floorDiv => if b == 0 then none else some (.int (a.fdiv b))
  | .rem => if b == 0 then none else some (.int (a.fmod b))
  | .div => do realOp? .div (← finite? a) (← finite? b)
  | .bitAnd => some (.int (bitwise Nat.land a b))
  | .bitOr => some (.int (bitwise Nat.lor a b))
  | .bitXor => some (.int (bitwise Nat.xor a b))
  | .shiftLeft => if b < 0 || shiftLimit ≤ b then none else some (.int (a * (1 <<< b.toNat : Nat)))
  | .shiftRight => do
    let b ← (Value.int b).int32?
    if b < 0 then none else return .int (a >>> min b.toNat (a.natAbs.log2 + 1))
  | _ => none

def numberOp? (op : BinaryOp) : Value → Value → Option Value
  | .int a, .int b => intOp? op a b
  | .int a, .real y => do realOp? op (← finite? a) y
  | .real x, .int b => do realOp? op x (← finite? b)
  | .real x, .real y => realOp? op x y
  | _, _ => none

/-! ## Rows -/

/-- The length that no repeated row may reach. -/
def repeatLimit : Nat := 0x40000000

/-- How often a row of some length is repeated, if that is not too often. -/
def repeats? (length : Nat) (n : Int) : Option Nat :=
  if length == 0 then some 0
  else do
    let n ← (Value.int n).int32?
    if length * n.toNat < repeatLimit then return n.toNat else none

def repeated? (xs : List Value) (n : Int) : Option (List Value) := do
  let k ← repeats? xs.length n
  return (List.replicate k xs).flatten

def times (x : Value) (n : Int) : Eval Value := do
  match x with
  | .str b => return .str (b.times (← repeats? b.size n))
  | .bytes b => return .bytes (b.times (← repeats? b.size n))
  | .tuple xs => return .tuple (← repeated? xs n)
  | .list p => listOf (← repeated? ((← get).listItems p).toList n)
  | _ => failure

/-- An entry put among others: a key that is there keeps its place. -/
def put? (entries : Array (Value × Value)) (key v : Value) : Option (Array (Value × Value)) := do
  match ← position? entries key with
  | some i => return entries.modify i fun e => (e.1, v)
  | none => return entries.push (key, v)

/-- Entries put among others. -/
def putAll? (entries : Array (Value × Value)) (more : List (Value × Value)) :
    Option (Array (Value × Value)) :=
  more.foldlM (fun es e => put? es e.1 e.2) entries

/-- Is the first value inside the second? -/
def isInside (x y : Value) : Eval Bool := do
  let s ← get
  match y with
  | .list p =>
    let r ← (s.listItems p).toList.findM? (equalValues · x)
    return r.isSome
  | .tuple ys =>
    let r ← ys.findM? (equalValues · x)
    return r.isSome
  | .dict p => return ((lookUp? (s.dictItems p) x).join).isSome
  | .str t => return contains (← x.str?) t.toList
  | .bytes t =>
    match x with
    | .bytes b => return contains b.toList t.toList
    | x => return t.toList.contains (← x.byte?)
  | .range start stop step =>
    let n ← x.integer?
    if (Value.int n).int32?.isNone then return false
    else
      let d := n - start
      return d % step == 0 && 0 ≤ d / step && d / step < rangeCount start stop step
  | _ => failure

/-! ## Operators -/

def unaryOp (op : UnaryOp) (x : Value) : Eval Value := do
  match op, x with
  | .not, x => return .bool !(← truth x)
  | .minus, .int n => return .int (-n)
  | .plus, .int n => return .int n
  | .invert, .int n => return .int (-n - 1)
  | .minus, .real x => return .real x.neg
  | .plus, .real x => return .real x
  | _, _ => failure

/-- An operator between two operands. -/
def binaryOp (op : BinaryOp) (x y : Value) : Eval Value := do
  match op, x, y with
  | .isIn, x, y => return .bool (← isInside x y)
  | .notIn, x, y => return .bool !(← isInside x y)
  | .add, .str a, .str b => return .ofBytes (a.toList ++ b.toList)
  | .add, .tuple a, .tuple b => return .tuple (a ++ b)
  | .add, .list p, .list q => newList ((← get).listItems p ++ (← get).listItems q)
  | .mul, .int n, .str b => times (.str b) n
  | .mul, .int n, .bytes b => times (.bytes b) n
  | .mul, .int n, .tuple xs => times (.tuple xs) n
  | .mul, .int n, .list p => times (.list p) n
  | .mul, .str b, .int n => times (.str b) n
  | .mul, .bytes b, .int n => times (.bytes b) n
  | .mul, .tuple xs, .int n => times (.tuple xs) n
  | .mul, .list p, .int n => times (.list p) n
  | .rem, .str b, y => return .ofBytes (← (← get).interpolate? b.toList y)
  | .bitOr, .dict p, .dict q =>
    let s ← get
    newDict (← putAll? (s.dictItems p) (s.dictItems q).toList)
  | op, x, y =>
    if [.eq, .ne, .lt, .le, .gt, .ge].contains op then return .bool (← compareValues op x y)
    else numberOp? op x y

/-- Add the items of a value to a list. -/
def extend (place : Nat) (v : Value) : Eval Unit := do
  let xs ← itemsOf v
  changeList place fun items => items ++ xs.toList

/-- An operator that changes its first operand if it can: a list takes the
items of any series, a dictionary the entries of another one. -/
def augment (op : BinaryOp) (x y : Value) : Eval Value := do
  match op, x, y with
  | .add, .list p, y =>
    if ((← get).items? y).isSome then
      extend p y
      return .list p
    else failure
  | .bitOr, .dict p, .dict q =>
    let s ← get
    let es ← putAll? (s.dictItems p) (s.dictItems q).toList
    changeDict p fun _ => es
    return .dict p
  | op, x, y => binaryOp op x y

/-! ## Positions -/

/-- A position from the start; negative ones count from the end. -/
def place? (n : Nat) (i : Value) : Option Nat := do
  let i ← i.int32?
  let i := if i < 0 then i + n else i
  if 0 ≤ i && i < n then return i.toNat else none

/-- The item of a value at a position, or of a key. -/
def indexOf (x i : Value) : Eval Value := do
  let s ← get
  match x with
  | .dict p => (← lookUp? (s.dictItems p) i)
  | .str b =>
    let byte ← b.get? (← place? b.size i)
    return .ofBytes [byte]
  | .bytes b =>
    let byte ← b.get? (← place? b.size i)
    return .int byte.toNat
  | .parts .codepoints _ => failure
  | .parts .codepointOrds _ => failure
  | x =>
    let xs ← s.items? x
    return xs.get (← place? xs.count i)

/-- Put a value at a position, or under a key. -/
def setIndex (x i v : Value) : Eval Unit := do
  let s ← get
  match x with
  | .dict p =>
    let es ← put? (s.dictItems p) i v
    changeDict p fun _ => es
  | .list p =>
    let k ← place? (s.listItems p).size i
    changeList p fun items => items.set! k v
  | _ => failure

/-- A bound of a slice: negative ones count from the end, and one that is
missing is given. -/
def bound? (n : Nat) (missing : Int) (v : Value) : Option Int :=
  match v with
  | .none => some missing
  | v => v.int32?.map fun i => if i < 0 then i + n else i

/-- A bound brought to the positions of a row. -/
def clamp (n : Nat) (i : Int) : Int := max 0 (min i n)

/-- The positions from one bound to another, of a row of some length. -/
def span? (n : Nat) (low high : Value) : Option (Nat × Nat) := do
  let a ← bound? n 0 low
  let b ← bound? n n high
  return ((clamp n a).toNat, (clamp n b).toNat)

/-- The positions of a slice: the first, the one that ends it, and the step. -/
def sliceBounds? (n : Nat) (low high step : Value) : Option (Int × Int × Int) := do
  let k ← match step with
    | .none => some 1
    | v => v.int32?
  if k == 0 then none
  else if 0 < k then
    let (a, b) ← span? n low high
    return (a, max a b, k)
  else
    let a ← bound? n (n - 1) low
    let b ← bound? n (-1) high
    let a := min a (n - 1)
    let b := max b (-1)
    return (max a b, b, k)

/-- The items of a row at the positions of a slice. -/
def pick {α : Type} (get : Nat → Option α) (start stop step : Int) : List α :=
  (List.range (rangeCount start stop step)).filterMap fun (i : Nat) =>
    get (start + i * step).toNat

def sliceOf (x low high step : Value) : Eval Value := do
  let s ← get
  let n ← s.length? x
  let (a, b, k) ← sliceBounds? n low high step
  match x with
  | .str t => return .ofBytes (pick t.get? a b k)
  | .bytes t => return .bytes { part := pick t.get? a b k }
  | .tuple xs => return .tuple (pick (xs.toArray[·]?) a b k)
  | .list p => listOf (pick ((s.listItems p)[·]?) a b k)
  | .range start _ step => return .range (start + step * a) (start + step * b) (step * k)
  | _ => failure

end Mos6510.Script
