import Mos6510.Script.Value

/-!
# Order and equality of values

Values of different types are never equal, numbers apart, and have no order.
Lists and tuples are compared item by item; a comparison that goes too deep
fails.  The keys of a dictionary are values that cannot change.
-/

namespace Mos6510.Script

/-- Does a comparison hold of two values in this order? -/
def BinaryOp.holds (op : BinaryOp) (o : Ordering) : Bool :=
  match op with
  | .eq => o == .eq
  | .ne => o != .eq
  | .lt => o == .lt
  | .le => o != .gt
  | .gt => o == .gt
  | .ge => o != .lt
  | _ => false

/-- A comparison of values that are equal or not, but have no order. -/
def BinaryOp.holdsIf? (op : BinaryOp) (same : Bool) : Option Bool :=
  match op with
  | .eq => some same
  | .ne => some !same
  | _ => none

def compareBytes : List UInt8 → List UInt8 → Ordering
  | [], [] => .eq
  | [], _ :: _ => .lt
  | _ :: _, [] => .gt
  | a :: as, b :: bs => (compare a b).then (compareBytes as bs)

def Bytes.compare (a b : Bytes) : Ordering :=
  if a.same b then .eq else compareBytes a.toList b.toList

/-- Do two ranges have the same items? -/
def sameRange (a b c a' b' c' : Int) : Bool :=
  let n := rangeCount a b c
  n == rangeCount a' b' c' && (n == 0 || (a == a' && (n == 1 || c == c')))

/-! ## Keys -/

namespace Value

mutual

def isKey : Value → Bool
  | list _ => false
  | dict _ => false
  | range _ _ _ => false
  | parts _ _ => false
  | tuple xs => areKeys xs
  | _ => true

def areKeys : List Value → Bool
  | [] => true
  | x :: rest => x.isKey && areKeys rest

end

mutual

/-- How many tuples stand around the innermost part of a key. -/
def depth : Value → Nat
  | tuple xs => depthAll xs
  | _ => 0

/-- How many tuples stand around the innermost part of the items of a tuple. -/
def depthAll : List Value → Nat
  | [] => 0
  | x :: rest => max (x.depth + 1) (depthAll rest)

end

mutual

def sameKey : Value → Value → Bool
  | none, none => true
  | bool a, bool b => a == b
  | int a, int b => a == b
  | int a, real y => y.compareInt a == .eq
  | real x, int b => x.compareInt b == .eq
  | real x, real y => x.compare y == .eq
  | str a, str b => a.same b
  | bytes a, bytes b => a.same b
  | tuple xs, tuple ys => sameKeys xs ys
  | prim f, prim g => f == g
  | method i _ _, method j _ _ => i == j
  | closure i _ _ _, closure j _ _ _ => i == j
  | _, _ => false

def sameKeys : List Value → List Value → Bool
  | [], [] => true
  | x :: xs, y :: ys => x.sameKey y && sameKeys xs ys
  | _, _ => false

end

end Value

/-- How deep values are compared. -/
def compareLimit : Nat := 10

/-- The position of a key; fails if the value can be no key, or one that is
there is nested too deep to be compared. -/
def position? (entries : Array (Value × Value)) (key : Value) : Option (Option Nat) :=
  if !key.isKey then none
  else match entries.findIdx? fun e => e.1.sameKey key with
    | some i => if key.depth < compareLimit then some (some i) else none
    | none => some none

def lookUp? (entries : Array (Value × Value)) (key : Value) : Option (Option Value) := do
  let i ← position? entries key
  return i.bind fun i => (entries[i]?).map (·.2)

/-! ## Comparisons -/

/-- The first two items of two rows that differ, if any do. -/
def difference? (equal : Value → Value → Option Bool) :
    List Value → List Value → Option (Option (Value × Value))
  | x :: xs, y :: ys => do
    if ← equal x y then difference? equal xs ys else return some (x, y)
  | _, _ => some none

/-- Compare two rows by a comparison of their items. -/
def compareRows (within : BinaryOp → Value → Value → Option Bool) (op : BinaryOp)
    (xs ys : List Value) : Option Bool := do
  if xs.length != ys.length && (op == .eq || op == .ne) then return op == .ne
  else match ← difference? (within .eq) xs ys with
    | some (x, y) =>
      match op with
      | .eq => return false
      | .ne => return true
      | op => within op x y
    | none => return op.holds (compare xs.length ys.length)

/-- Are the entries of two dictionaries the same, in whatever order? -/
def sameEntries (equal : Value → Value → Option Bool) (ys : Array (Value × Value)) :
    List (Value × Value) → Option Bool
  | [] => some true
  | (k, x) :: rest =>
    match lookUp? ys k with
    | some (some y) => do if ← equal x y then sameEntries equal ys rest else return false
    | _ => some false

/-- Compare two values, no deeper than a bound. -/
def Store.compareWithin (s : Store) : Nat → BinaryOp → Value → Value → Option Bool
  | 0, _, _, _ => none
  | depth + 1, op, x, y =>
    match x, y with
    | .bool a, .bool b => some (op.holds (compare a b))
    | .int a, .int b => some (op.holds (compare a b))
    | .real a, .real b => some (op.holds (a.compare b))
    | .int a, .real b => some (op.holds (b.compareInt a))
    | .real a, .int b => some (op.holds (a.compareInt b).swap)
    | .str a, .str b => some (op.holds (a.compare b))
    | .bytes a, .bytes b => some (op.holds (a.compare b))
    | .list p, .list q => compareRows (s.compareWithin depth) op
        (s.listItems p).toList (s.listItems q).toList
    | .tuple xs, .tuple ys => compareRows (s.compareWithin depth) op xs ys
    | .dict p, .dict q => do
      let same ← if (s.dictItems p).size != (s.dictItems q).size then some false
        else sameEntries (s.compareWithin depth .eq) (s.dictItems q) (s.dictItems p).toList
      op.holdsIf? same
    | .range a b c, .range a' b' c' => op.holdsIf? (sameRange a b c a' b' c')
    | .parts k a, .parts l b => op.holdsIf? (k == l && a.same b)
    | x, y => op.holdsIf? (x.sameKey y)

def compareValues (op : BinaryOp) (x y : Value) : Eval Bool := do
  (← get).compareWithin compareLimit op x y

def equalValues (x y : Value) : Eval Bool := compareValues .eq x y

end Mos6510.Script
