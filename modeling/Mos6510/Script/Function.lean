import Mos6510.Double.Parse
import Mos6510.Script.Method

/-!
# Functions that every script knows

A call that does not fit fails.  `apply` stands for the call of a function of
the script, which a function that takes one needs.
-/

namespace Mos6510.Script

open Text (Glyph)

/-- The parameters of a function, each with whether it has to be given, bound
to arguments by position and by name; one that is missing is nothing. -/
def matched? (params : List (String × Bool)) (args : List Value) (named : Named) :
    Option (List (Option Value)) := do
  let names := named.map (·.1)
  let known := params.map fun p => (Bytes.ofString p.1).toList
  if params.length < args.length || names.eraseDups.length != names.length
      || names.any fun n => !(known.drop args.length).contains n then none
  else
    let given := args.map some ++ (known.drop args.length).map fun n => named.lookup n
    if (params.zip given).any fun p => p.1.2 && p.2.isNone then none else return given

/-! ## Numbers -/

/-- The base that a text with a zero in front names, and its digits. -/
def baseLead? : List Char → Option (Nat × List Char)
  | '0' :: k :: d :: ds => (baseOf? k).map fun base => (base, d :: ds)
  | _ => none

/-- The digits of an integer and their base.  Base zero leaves the choice to
the text, where a zero in front then has to be followed by zeros; any other
base may be named in front of the digits too. -/
def digitsIn? (base : Nat) (ds : List Char) : Option (Nat × List Char) :=
  match baseLead? ds with
  | some (named, more) =>
    if base == 0 || base == named then some (named, more) else some (base, ds)
  | none =>
    if base != 0 then some (base, ds)
    else if ds.head? == some '0' && ds.any (· != '0') then none
    else some (10, ds)

/-- The integer that a text with an optional sign writes in a base. -/
def readInt? (base : Nat) (cs : List Char) : Option Int := do
  let (negative, ds) : Bool × List Char := match cs with
    | '-' :: ds => (true, ds)
    | '+' :: ds => (false, ds)
    | ds => (false, ds)
  let (base, ds) ← digitsIn? base ds
  if ds.isEmpty || !ds.all (isDigitOf base) then none
  else return if negative then -(valueOf base ds : Int) else valueOf base ds

def charsOf (b : Bytes) : List Char := b.glyphs.map Glyph.toChar

def toInt? (x : Value) (base : Option Value) : Option Int :=
  match x, base with
  | .str b, none => readInt? 10 (charsOf b)
  | .str b, some base => do
    let n ← base.int32?
    if n == 0 || (2 ≤ n && n ≤ 36) then readInt? n.toNat (charsOf b) else none
  | .bool b, none => some (if b then 1 else 0)
  | x, none => x.integer?
  | _, some _ => none

/-- The names of what is no finite number, with an optional sign. -/
def special? (cs : List Char) : Option Double :=
  let (negative, name) : Bool × List Char := match cs with
    | '-' :: rest => (true, rest)
    | '+' :: rest => (false, rest)
    | rest => (false, rest)
  match (String.ofList name).toLower with
  | "inf" => some (.infinite negative)
  | "infinity" => some (.infinite negative)
  | "nan" => some .nan
  | _ => none

/-- A value in floating point. -/
def toReal? : Value → Option Double
  | .bool b => finite? (if b then 1 else 0)
  | .int n => finite? n
  | .real x => some x
  | .str b => (special? (charsOf b)).orElse fun _ => Double.read? (charsOf b)
  | _ => none

/-! ## Strings -/

/-- A number for a string, from its characters. -/
def textHash (gs : List Glyph) : Int :=
  (gs.foldl (fun h g => 31 * h + Int32.ofNat g.toChar.toNat) (0 : Int32)).toInt

def bytesHash (s : List UInt8) : Int :=
  (s.foldl (fun h b => (h ^^^ b.toUInt32) * 16777619) (2166136261 : UInt32)).toNat

/-- The code of the only character of a string, or the only byte of a row. -/
def ordinal? : Value → Option Int
  | .str b =>
    match b.glyphs with
    | [g] => some g.toChar.toNat
    | _ => none
  | .bytes b =>
    match b.toList with
    | [x] => some x.toNat
    | _ => none
  | _ => none

/-- A row of bytes from a string, another row or integers. -/
def toBytes (v : Value) : Eval Value := do
  match v with
  | .bytes b => return .bytes b
  | .str b => return .bytes { part := b.glyphs.flatMap mended }
  | v =>
    let xs ← itemsOf v
    return .bytes { part := ← xs.toList.mapM fun x => (x.byte? : Eval UInt8) }

def toText (v : Value) : Eval Value := do
  match v with
  | .str b => return .str b
  | .bytes b => return .ofBytes (b.glyphs.flatMap mended)
  | v => return .ofBytes ((← get).text v)

/-! ## Series -/

/-- The items of a series, each with its key: what a function gives for it, or
the item itself. -/
def withKeys (apply : Value → List Value → Eval Value) (key : Option Value) (v : Value) :
    Eval (List (Value × Value)) :=
  withItems v fun xs => xs.toList.mapM fun x => do
    match key with
    | none => return (x, x)
    | some f => return (← apply f [x], x)

/-- Is the function of a call one, if it is given? -/
def isFunction (key : Option Value) : Bool := (key.map Value.isCallable).getD true

/-- The value with the extreme key: the first that none comes before. -/
def extremum (op : BinaryOp) : Value × Value → List (Value × Value) → Eval Value
  | best, [] => return best.2
  | best, x :: rest => do
    if ← compareValues op x.1 best.1 then extremum op x rest else extremum op best rest

/-- The least or the greatest of values. -/
def extreme (apply : Value → List Value → Eval Value) (op : BinaryOp) (args : List Value)
    (named : Named) : Eval Value := do
  match ← matched? [("key", false)] [] named with
  | [key] =>
    if !isFunction key then failure
    else
      let series := match args with
        | [v] => v
        | args => .tuple args
      match ← withKeys apply key series with
      | best :: rest => extremum op best rest
      | [] => failure
  | _ => failure

/-- Put a value among others that are sorted backwards, after those that are
not greater. -/
def insertSorted (less : Value → Value → Eval Bool) (x : Value × Value) :
    List (Value × Value) → Eval (List (Value × Value))
  | [] => return [x]
  | y :: rest => do
    if ← less x.1 y.1 then return y :: (← insertSorted less x rest)
    else return x :: y :: rest

/-- Values sorted by their keys; equal ones keep their order. -/
def sortByKeys (less : Value → Value → Eval Bool) (xs : List (Value × Value)) :
    Eval (List Value) := do
  let sorted ← xs.foldlM (fun ys x => insertSorted less x ys) []
  return sorted.reverse.map (·.2)

def sort (apply : Value → List Value → Eval Value) (args : List Value) (named : Named) :
    Eval Value := do
  match ← matched? [("iterable", true), ("key", false), ("reverse", false)] args named with
  | [some v, key, reverse] =>
    let backwards ← match reverse with
      | none => some false
      | some (.bool b) => some b
      | some _ => none
    if !isFunction key then failure
    else
      let pairs ← withKeys apply key v
      let less (a b : Value) : Eval Bool :=
        if backwards then compareValues .lt b a else compareValues .lt a b
      listOf (← sortByKeys less pairs)
  | _ => failure

/-- The items of several series side by side, as far as the shortest goes. -/
def zipped (args : List Value) : Eval Value := do
  let rows ← args.mapM itemsOf
  match (rows.map Items.count).min? with
  | none => listOf []
  | some n => listOf ((List.range n).map fun i => .tuple (rows.map fun r => r.get i))

def makeRange? : List Value → Option Value
  | [stop] => do return .range 0 (← stop.int64?) 1
  | [start, stop] => do return .range (← start.int64?) (← stop.int64?) 1
  | [start, stop, step] => do
    let k ← step.int64?
    if k == 0 then none else return .range (← start.int64?) (← stop.int64?) k
  | _ => none

/-- The items of a series with their numbers. -/
def numbered (v start : Value) : Eval Value := do
  let first ← start.int64?
  let xs ← itemsOf v
  listOf (xs.toList.zipIdx.map fun x => .tuple [.int (first + x.2), x.1])

/-! ## Functions -/

/-- The method with a name, given as a value. -/
def fieldOf (v name : Value) : Eval (Option Value) := do
  let s ← name.str?
  match (methodsOf v).find? fun m => (Bytes.ofString m).toList == s with
  | some m => methodOf v m
  | none => return none

/-- Call a function that takes no arguments by name. -/
def callPlain (f : Prim) (args : List Value) : Eval Value := do
  match f, args with
  | .abs, [.int n] => return .int n.natAbs
  | .abs, [.real x] => return .real x.abs
  | .all, [v] =>
    let s ← get
    return .bool !((← itemsOf v).any fun x => !s.isTrue x)
  | .any, [v] =>
    let s ← get
    return .bool ((← itemsOf v).any s.isTrue)
  | .bool, [] => return .bool false
  | .bool, [v] => return .bool (← truth v)
  | .bytes, [v] => toBytes v
  | .chr, [.int n] => return .ofBytes (← convertChar? (.int n))
  | .dir, [v] => listOfStrings ((methodsOf v).map fun m => (Bytes.ofString m).toList)
  | .enumerate, [v] => numbered v (.int 0)
  | .enumerate, [v, start] => numbered v start
  | .float, [] => return .real .zero
  | .float, [v] => return .real (← toReal? v)
  | .getattr, [v, name] => (← fieldOf v name)
  | .getattr, [v, name, missing] => return (← fieldOf v name).getD missing
  | .hasattr, [v, name] => return .bool (← fieldOf v name).isSome
  | .hash, [.str b] => return .int (textHash b.glyphs)
  | .hash, [.bytes b] => return .int (bytesHash b.toList)
  | .len, [v] => return .int (← (← get).length? v)
  | .list, [] => listOf []
  | .list, [v] => listOf (← itemsOf v).toList
  | .ord, [v] => return .int (← ordinal? v)
  | .range, args => makeRange? args
  | .repr, [v] => return .ofBytes ((← get).text v)
  | .reversed, [v] => listOf (← itemsOf v).toList.reverse
  | .str, [v] => toText v
  | .tuple, [] => return .tuple []
  | .tuple, [v] => return .tuple (← itemsOf v).toList
  | .type, [v] => return .ofString v.typeName
  | .zip, args => zipped args
  | _, _ => failure

/-- Call a function that every script knows. -/
def callPrim (apply : Value → List Value → Eval Value) (f : Prim) (args : List Value)
    (named : Named) : Eval Value := do
  match f with
  | .dict => if 1 < args.length then failure else newDict (← update #[] args named)
  | .fail => failure
  | .int =>
    match ← matched? [("x", true), ("base", false)] args named with
    | [some x, base] => return .int (← toInt? x base)
    | _ => failure
  | .max => if args.isEmpty then failure else extreme apply .gt args named
  | .min => if args.isEmpty then failure else extreme apply .lt args named
  | .print =>
    match ← matched? [("sep", false)] [] named with
    | [none] => return .none
    | [some (.str _)] => return .none
    | _ => failure
  | .sorted => sort apply args named
  | f => if named.isEmpty then callPlain f args else failure

end Mos6510.Script
