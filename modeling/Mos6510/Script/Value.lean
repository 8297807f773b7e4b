import Mos6510.Script.Bytes
import Mos6510.Script.Scope

/-!
# Values of scripts

Scripts compute with integers of any size, numbers in floating point, strings,
lists, dictionaries and functions.  A truth value is no integer for
arithmetic.

Lists and dictionaries can change, and a change shows wherever the value is
known: such a value is a place in the `Store`, which also holds the variables
of functions.  While something goes through the items of a list or dictionary
it cannot change.
-/

namespace Mos6510.Script

/-- What the items of a series taken from a string are. -/
inductive Parts where
  /-- Strings of one byte. -/
  | elems
  /-- Bytes as integers. -/
  | elemOrds
  /-- Strings of one character. -/
  | codepoints
  /-- Characters as integers. -/
  | codepointOrds
  /-- Bytes of a row of bytes, as integers. -/
  | byteElems
  deriving DecidableEq, Repr, Inhabited

/-- A value. -/
inductive Value where
  | none
  | bool (b : Bool)
  | int (n : Int)
  | real (x : Double)
  | str (s : Bytes)
  | bytes (s : Bytes)
  | tuple (items : List Value)
  /-- The list at a place of the store. -/
  | list (place : Nat)
  /-- The dictionary at a place of the store. -/
  | dict (place : Nat)
  | range (start stop step : Int)
  | parts (kind : Parts) (s : Bytes)
  | prim (f : Prim)
  /-- A method of a value; the number tells it from others of the same name. -/
  | method (id : Nat) (self : Value) (name : String)
  /-- A function with the variables of those around it and the values of its
  defaults. -/
  | closure (id : Nat) (code : Func Ref) (frames : List Nat) (defaults : List Value)
  deriving Inhabited

namespace Value

def ofBytes (s : List UInt8) : Value := str { part := s }

def ofString (s : String) : Value := str (Bytes.ofString s)

def typeName : Value → String
  | none => "NoneType"
  | bool _ => "bool"
  | int _ => "int"
  | real _ => "float"
  | str _ => "string"
  | bytes _ => "bytes"
  | tuple _ => "tuple"
  | list _ => "list"
  | dict _ => "dict"
  | range _ _ _ => "range"
  | parts .elems _ => "string.elems"
  | parts .elemOrds _ => "string.elems"
  | parts .codepoints _ => "string.codepoints"
  | parts .codepointOrds _ => "string.codepoints"
  | parts .byteElems _ => "bytes.elems"
  | prim _ => "builtin_function_or_method"
  | method _ _ _ => "builtin_function_or_method"
  | closure _ _ _ _ => "function"

/-- The integer of 32 bits that a value is. -/
def int32? : Value → Option Int
  | int n => if -0x80000000 ≤ n && n < 0x80000000 then some n else Option.none
  | _ => Option.none

/-- The integer of 64 bits that a value is. -/
def int64? : Value → Option Int
  | int n => if -0x8000000000000000 ≤ n && n < 0x8000000000000000 then some n else Option.none
  | _ => Option.none

def byte? : Value → Option UInt8
  | int n => if 0 ≤ n && n < 256 then some n.toNat.toUInt8 else Option.none
  | _ => Option.none

def str? : Value → Option (List UInt8)
  | str s => some s.toList
  | _ => Option.none

def integer? : Value → Option Int
  | int n => some n
  | real x => x.truncate?
  | _ => Option.none

def isCallable : Value → Bool
  | prim _ => true
  | method _ _ _ => true
  | closure _ _ _ _ => true
  | _ => false

end Value

def rangeCount (start stop step : Int) : Nat :=
  if 0 < step then
    if start < stop then ((stop - 1 - start) / step + 1).toNat else 0
  else if stop < start then ((start - 1 - stop) / -step + 1).toNat else 0

/-! ## Series -/

/-- Values in a row, each to be had by its position. -/
structure Items where
  count : Nat
  get : Nat → Value

namespace Items

def ofArray (xs : Array Value) : Items := ⟨xs.size, fun i => xs.getD i .none⟩

def ofList (xs : List Value) : Items := ofArray xs.toArray

def toList (xs : Items) : List Value := (List.range xs.count).map xs.get

/-- Does a test hold of one of the last items? -/
def anyOf (xs : Items) (p : Value → Bool) : Nat → Bool
  | 0 => false
  | left + 1 => if p (xs.get (xs.count - (left + 1))) then true else anyOf xs p left

/-- Does a test hold of an item? -/
def any (xs : Items) (p : Value → Bool) : Bool := xs.anyOf p xs.count

end Items

def rangeItems (start stop step : Int) : Items :=
  ⟨rangeCount start stop step, fun i => .int (start + i * step)⟩

/-- The items of a series taken from a string. -/
def partItems (kind : Parts) (s : Bytes) : Items :=
  match kind with
  | .elems => .ofList (s.toList.map fun b => .ofBytes [b])
  | .elemOrds => .ofList (s.toList.map fun b => .int b.toNat)
  | .byteElems => .ofList (s.toList.map fun b => .int b.toNat)
  | .codepoints => .ofList (s.glyphs.map fun g => .ofBytes (mended g))
  | .codepointOrds => .ofList (s.glyphs.map fun g => .int g.toChar.toNat)

/-! ## The store -/

/-- What can change, and how many are going through its items. -/
structure Cell (α : Type) where
  items : Array α
  walks : Nat := 0

/-- The state of a script. -/
structure Store where
  /-- Variables; one without a value has not been assigned to. -/
  slots : Array (Option Value) := #[]
  globals : List (String × Value) := []
  lists : Array (Cell Value) := #[]
  /-- The keys of a dictionary with their values, in the order they came. -/
  dicts : Array (Cell (Value × Value)) := #[]
  /-- How many functions and methods have been made. -/
  made : Nat := 0

/-- A computation of a script, which may fail. -/
abbrev Eval := StateT Store Option

namespace Store

def listItems (s : Store) (place : Nat) : Array Value :=
  match s.lists[place]? with
  | some c => c.items
  | none => #[]

def dictItems (s : Store) (place : Nat) : Array (Value × Value) :=
  match s.dicts[place]? with
  | some c => c.items
  | none => #[]

def items? (s : Store) : Value → Option Items
  | .list p => some (.ofArray (s.listItems p))
  | .tuple xs => some (.ofList xs)
  | .dict p => some (.ofArray ((s.dictItems p).map (·.1)))
  | .range a b c => some (rangeItems a b c)
  | .parts kind b => some (partItems kind b)
  | _ => none

def length? (s : Store) : Value → Option Nat
  | .str b => some b.size
  | .bytes b => some b.size
  | .parts .codepoints _ => none
  | .parts .codepointOrds _ => none
  | .parts _ b => some b.size
  | .range a b c => some (rangeCount a b c)
  | v => (s.items? v).map (·.count)

def isTrue (s : Store) : Value → Bool
  | .none => false
  | .bool b => b
  | .int n => n != 0
  | .real x => !x.isZero
  | .parts .byteElems b => !b.isEmpty
  | .parts _ _ => true
  | v =>
    match s.length? v with
    | some n => n != 0
    | none => true

end Store

/-- The items of a value; fails if it has none. -/
def itemsOf (v : Value) : Eval Items := do (← get).items? v

def truth (v : Value) : Eval Bool := do return (← get).isTrue v

def newList (xs : Array Value) : Eval Value :=
  modifyGet fun s => (.list s.lists.size, { s with lists := s.lists.push ⟨xs, 0⟩ })

def listOf (xs : List Value) : Eval Value := newList xs.toArray

def newDict (xs : Array (Value × Value)) : Eval Value :=
  modifyGet fun s => (.dict s.dicts.size, { s with dicts := s.dicts.push ⟨xs, 0⟩ })

/-- A number that no other function or method has. -/
def fresh : Eval Nat := modifyGet fun s => (s.made, { s with made := s.made + 1 })

/-- Change a list; fails while something goes through its items. -/
def changeList (place : Nat) (f : Array Value → Array Value) : Eval Unit := do
  match (← get).lists[place]? with
  | some c =>
    if c.walks == 0 then modify fun s => { s with lists := s.lists.modify place fun c =>
      { c with items := f c.items } }
    else failure
  | none => failure

/-- Change a dictionary; fails while something goes through its entries. -/
def changeDict (place : Nat) (f : Array (Value × Value) → Array (Value × Value)) :
    Eval Unit := do
  match (← get).dicts[place]? with
  | some c =>
    if c.walks == 0 then modify fun s => { s with dicts := s.dicts.modify place fun c =>
      { c with items := f c.items } }
    else failure
  | none => failure

/-- Note how many more are going through the items of a value. -/
def countWalks (v : Value) (f : Nat → Nat) : Eval Unit :=
  match v with
  | .list p => modify fun s => { s with lists := s.lists.modify p fun c =>
      { c with walks := f c.walks } }
  | .dict p => modify fun s => { s with dicts := s.dicts.modify p fun c =>
      { c with walks := f c.walks } }
  | _ => return ()

/-- Go through the last items of a series, up to the first that gives a
result. -/
def walkItems {α : Type} (xs : Items) (f : Value → Eval (Option α)) : Nat → Eval (Option α)
  | 0 => return none
  | left + 1 => do
    match ← f (xs.get (xs.count - (left + 1))) with
    | some a => return some a
    | none => walkItems xs f left

/-- Go through the last items of a series, handing on what has been found. -/
def foldItems {α : Type} (xs : Items) (f : α → Value → Eval α) : Nat → α → Eval α
  | 0, a => return a
  | left + 1, a => do
    let a ← f a (xs.get (xs.count - (left + 1)))
    foldItems xs f left a

/-- Do something with the items of a value, which cannot change meanwhile. -/
def withItems {α : Type} (v : Value) (f : Items → Eval α) : Eval α := do
  let xs ← itemsOf v
  countWalks v (· + 1)
  let a ← f xs
  countWalks v (· - 1)
  return a

/-- Go through the items of a value up to the first that gives a result. -/
def walk {α : Type} (v : Value) (f : Value → Eval (Option α)) : Eval (Option α) :=
  withItems v fun xs => walkItems xs f xs.count

/-- Go through the items of a value, handing on what has been found. -/
def foldWalk {α : Type} (v : Value) (f : α → Value → Eval α) (a : α) : Eval α :=
  withItems v fun xs => foldItems xs f xs.count a

end Mos6510.Script
