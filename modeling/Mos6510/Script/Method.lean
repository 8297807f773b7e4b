import Mos6510.Script.Operator
import Mos6510.Text.Blank
import Mos6510.Text.Letter
import Mos6510.Text.Lower

/-!
# Methods of values

What strings, lists and dictionaries can be asked for.  A call that does not
fit fails.
-/

namespace Mos6510.Script

open Text (Glyph)

/-- Arguments that are given by name. -/
abbrev Named := List (List UInt8 × Value)

/-- Arguments filled up to a number of them; fails if there are too few or too
many. -/
def filled? (least most : Nat) (args : List Value) : Option (List Value) :=
  if least ≤ args.length && args.length ≤ most then
    some (args ++ List.replicate (most - args.length) .none)
  else none

/-! ## Strings -/

def listOfStrings (parts : List (List UInt8)) : Eval Value := listOf (parts.map .ofBytes)

/-- The part of a row between two bounds, and where it starts. -/
def window? (s : List UInt8) (low high : Value) : Option (Nat × List UInt8) := do
  let (a, b) ← span? s.length low high
  return (a, (s.drop a).take (b - a))

/-- The position of a row inside a part of another one. -/
def find? (last : Bool) (s : List UInt8) (args : List Value) : Option (Option Nat) := do
  match ← filled? 1 3 args with
  | [.str sub, low, high] =>
    let (a, w) ← window? s low high
    let i := if last then lastIndexOf? sub.toList w else indexOf? sub.toList w
    return i.map (· + a)
  | _ => none

/-- Does a test hold of a row and one of others? -/
def holdsOfAny? (p : List UInt8 → Bool) : List Value → Option Bool
  | [] => some false
  | x :: rest => do if p (← x.str?) then return true else holdsOfAny? p rest

/-- Does a part of a row start with another one, or end in it?  Of a tuple, one
has to fit. -/
def affix? (p : List UInt8 → List UInt8 → Bool) (s : List UInt8) (args : List Value) :
    Option Bool := do
  match ← filled? 1 3 args with
  | [x, low, high] =>
    let (_, w) ← window? s low high
    match x with
    | .tuple xs => holdsOfAny? (p · w) xs
    | x => holdsOfAny? (p · w) [x]
  | _ => none

/-- Do all characters of a text, which is not empty, pass a test? -/
def allChars (p : Char → Bool) (gs : List Glyph) : Bool :=
  !gs.isEmpty && gs.all fun g => p g.toChar

/-- Every character of a text changed. -/
def mapChars (f : Char → Char) (gs : List Glyph) : List UInt8 :=
  gs.flatMap fun g => Glyph.encodeChar (f g.toChar)

/-- A text in which a letter is in title case after a character without case,
and in lower case after others. -/
def titleFrom : Bool → List Glyph → List UInt8
  | _, [] => []
  | afterCased, g :: rest =>
    let c := if afterCased then Text.lowerChar g.toChar else Text.titleChar g.toChar
    Glyph.encodeChar c ++ titleFrom (Text.isCased c) rest

/-- Does upper case stand after characters without case only, and lower case
after the others only?  The flags say whether the character before has a case,
and whether any has. -/
def isTitleFrom : Bool → Bool → List Glyph → Bool
  | _, any, [] => any
  | afterCased, any, g :: rest =>
    let c := g.toChar
    if ('A' ≤ c && c ≤ 'Z') || Text.isTitle c then !afterCased && isTitleFrom true true rest
    else if Text.isLower c then afterCased && isTitleFrom true true rest
    else if Text.isUpper c then false
    else isTitleFrom false any rest

def isBlankGlyph (g : Glyph) : Bool := Text.isBlank g.toChar

/-- The words of a text.  With a limit, so many words at most and then what
is left.  The fuel bounds the number of words. -/
def wordsOf : Nat → Option Nat → List Glyph → List (List Glyph)
  | 0, _, _ => []
  | fuel + 1, limit, gs =>
    match limit, gs.dropWhile isBlankGlyph with
    | _, [] => []
    | some 0, gs => [gs]
    | limit, gs =>
      gs.takeWhile (fun g => !isBlankGlyph g) ::
        wordsOf fuel (limit.map (· - 1)) (gs.dropWhile fun g => !isBlankGlyph g)

def bytesOf (gs : List Glyph) : List UInt8 := gs.flatMap glyphBytes

/-- The words of a text, counted from its start or from its end. -/
def splitWords (fromEnd : Bool) (limit : Option Nat) (gs : List Glyph) : List (List UInt8) :=
  if fromEnd then
    ((wordsOf (gs.length + 1) limit gs.reverse).map fun w => bytesOf w.reverse).reverse
  else (wordsOf (gs.length + 1) limit gs).map bytesOf

/-- The parts of a row between separators, counted from its end. -/
def splitFromEnd (sep : List UInt8) (limit : Option Nat) (s : List UInt8) : List (List UInt8) :=
  let parts := splitAtMost sep none s
  match limit with
  | none => parts
  | some n =>
    if n < parts.length then
      joinWith sep (parts.take (parts.length - n)) :: parts.drop (parts.length - n)
    else parts

def split? (fromEnd : Bool) (b : Bytes) (args : List Value) : Option (List (List UInt8)) := do
  let limit ← match args with
    | [_, n] => n.int64?
    | _ => some (-1)
  let limit := if limit < 0 then none else some limit.toNat
  match ← filled? 0 2 args with
  | .none :: _ => return splitWords fromEnd limit b.glyphs
  | .str sep :: _ =>
    if sep.isEmpty then none
    else if fromEnd then return splitFromEnd sep.toList limit b.toList
    else return splitAtMost sep.toList limit b.toList
  | _ => none

/-- The lines of a row, with the line feeds that end them or without. -/
def linesOf (keep : Bool) (s : List UInt8) : List (List UInt8) :=
  let parts := splitAtMost [10] none s
  let whole := parts.dropLast.map fun l => if keep then l ++ [10] else l
  whole ++ (parts.getLast?.toList.filter fun l => !l.isEmpty)

/-- A string divided at a separator, into what is before, the separator and
what is after. -/
def partition (fromEnd : Bool) (sep s : List UInt8) : Value :=
  let i := if fromEnd then lastIndexOf? sep s else indexOf? sep s
  match i, fromEnd with
  | some i, _ => .tuple ([s.take i, sep, s.drop (i + sep.length)].map .ofBytes)
  | none, true => .tuple ([[], [], s].map .ofBytes)
  | none, false => .tuple ([s, [], []].map .ofBytes)

/-- A text without characters at its ends: those given, or white space. -/
def strip? (atStart atEnd : Bool) (gs : List Glyph) (args : List Value) :
    Option (List UInt8) := do
  let cut ← match args with
    | [] => some []
    | [.str b] => some (b.glyphs.map Glyph.toChar)
    | _ => none
  let p (g : Glyph) : Bool := if cut.isEmpty then isBlankGlyph g else cut.contains g.toChar
  let gs := if atStart then trimStart p gs else gs
  let gs := if atEnd then trimEnd p gs else gs
  return bytesOf gs

def replace? (s : List UInt8) (args : List Value) : Option (List UInt8) :=
  match args with
  | [.str old, .str new] => some (replaceIn old.toList new.toList none s)
  | [.str old, .str new, n] => do
    let n ← n.int64?
    return replaceIn old.toList new.toList (if n < 0 then none else some n.toNat) s
  | _ => none

def stringMethods : List String :=
  ["capitalize", "codepoint_ords", "codepoints", "count", "elem_ords", "elems", "endswith",
    "find", "format", "index", "isalnum", "isalpha", "isdigit", "islower", "isspace", "istitle",
    "isupper", "join", "lower", "lstrip", "partition", "removeprefix", "removesuffix",
    "replace", "rfind", "rindex", "rpartition", "rsplit", "rstrip", "split", "splitlines",
    "startswith", "strip", "title", "upper"]

/-- Call a method of a string that takes no arguments. -/
def plainStringMethod? (b : Bytes) (name : String) : Option Value :=
  let s := b.toList
  let gs := b.glyphs
  let isCased := gs.any fun g => Text.isCased g.toChar
  match name with
  | "capitalize" => some (.ofBytes
      (mapChars Text.titleChar (gs.take 1) ++ mapChars Text.lowerChar (gs.drop 1)))
  | "codepoint_ords" => some (.parts .codepointOrds b)
  | "codepoints" => some (.parts .codepoints b)
  | "elem_ords" => some (.parts .elemOrds b)
  | "elems" => some (.parts .elems b)
  | "isalnum" => some (.bool (allChars (fun c => Text.isLetter c || Text.isDigit c) gs))
  | "isalpha" => some (.bool (allChars Text.isLetter gs))
  | "isdigit" => some (.bool (allChars Text.isDigit gs))
  | "islower" => some (.bool (isCased && s == mapChars Text.lowerChar gs))
  | "isspace" => some (.bool (allChars Text.isBlank gs))
  | "istitle" => some (.bool (isTitleFrom false false gs))
  | "isupper" => some (.bool (isCased && s == mapChars Text.upperChar gs))
  | "lower" => some (.ofBytes (mapChars Text.lowerChar gs))
  | "title" => some (.ofBytes (titleFrom false gs))
  | "upper" => some (.ofBytes (mapChars Text.upperChar gs))
  | _ => none

def stringMethod (b : Bytes) (name : String) (args : List Value) : Eval Value := do
  let s := b.toList
  match name, args with
  | "count", args =>
    match ← filled? 1 3 args with
    | [.str sub, low, high] =>
      let (_, w) ← window? s low high
      if sub.isEmpty then return .int ((Glyph.ofBytes w).length + 1)
      else return .int (countOf sub.toList w)
    | _ => failure
  | "endswith", args => return .bool (← affix? endsIn s args)
  | "startswith", args => return .bool (← affix? List.isPrefixOf s args)
  | "find", args => return .int (((← find? false s args).map Int.ofNat).getD (-1))
  | "rfind", args => return .int (((← find? true s args).map Int.ofNat).getD (-1))
  | "index", args =>
    let i ← (← find? false s args)
    return .int i
  | "rindex", args =>
    let i ← (← find? true s args)
    return .int i
  | "join", [v] =>
    let parts ← (← itemsOf v).toList.mapM fun x => (x.str? : Eval (List UInt8))
    return .ofBytes (joinWith s parts)
  | "lstrip", args => return .ofBytes (← strip? true false b.glyphs args)
  | "rstrip", args => return .ofBytes (← strip? false true b.glyphs args)
  | "strip", args => return .ofBytes (← strip? true true b.glyphs args)
  | "partition", [.str sep] => if sep.isEmpty then failure else return partition false sep.toList s
  | "rpartition", [.str sep] => if sep.isEmpty then failure else return partition true sep.toList s
  | "removeprefix", [.str x] =>
    return if x.toList.isPrefixOf s then .ofBytes (s.drop x.size) else .str b
  | "removesuffix", [.str x] =>
    return if endsIn x.toList s then .ofBytes (s.take (s.length - x.size)) else .str b
  | "replace", args => return .ofBytes (← replace? s args)
  | "rsplit", args => listOfStrings (← split? true b args)
  | "split", args => listOfStrings (← split? false b args)
  | "splitlines", [] => listOfStrings (linesOf false s)
  | "splitlines", [.bool keep] => listOfStrings (linesOf keep s)
  | name, [] => plainStringMethod? b name
  | _, _ => failure

/-! ## Lists and dictionaries -/

def listMethods : List String :=
  ["append", "clear", "extend", "index", "insert", "pop", "remove"]

/-- The first position of a value among others. -/
def positionOf (v : Value) : Nat → List Value → Eval (Option Nat)
  | _, [] => return none
  | i, x :: rest => do if ← equalValues x v then return some i else positionOf v (i + 1) rest

def listMethod (place : Nat) (name : String) (args : List Value) : Eval Value := do
  let xs := (← get).listItems place
  match name, args with
  | "append", [v] =>
    changeList place (·.push v)
    return .none
  | "clear", [] =>
    changeList place fun _ => #[]
    return .none
  | "extend", [v] =>
    extend place v
    return .none
  | "index", args =>
    match ← filled? 1 3 args with
    | [v, low, high] =>
      let (a, b) ← span? xs.size low high
      let i ← (← positionOf v a ((xs.toList.drop a).take (b - a)))
      return .int i
    | _ => failure
  | "insert", [i, v] =>
    let i ← i.int64?
    let i := if i < 0 then max 0 (i + xs.size) else i
    let k := min i.toNat xs.size
    changeList place fun xs => (xs.extract 0 k).push v ++ xs.extract k xs.size
    return .none
  | "pop", args =>
    let i ← match args with
      | [] => some ((xs.size : Int) - 1)
      | [i] => i.int64?
      | _ => none
    let i := if i < 0 then i + xs.size else i
    if i < 0 then failure
    else
      let v ← xs[i.toNat]?
      changeList place fun xs => xs.eraseIdxIfInBounds i.toNat
      return v
  | "remove", [v] =>
    let i ← (← positionOf v 0 xs.toList)
    changeList place fun xs => xs.eraseIdxIfInBounds i
    return .none
  | _, _ => failure

def dictMethods : List String :=
  ["clear", "get", "items", "keys", "pop", "popitem", "setdefault", "update", "values"]

/-- The key and value that an item of a series gives. -/
def pairOf (v : Value) : Eval (Value × Value) := do
  let n ← (← get).length? v
  let xs ← itemsOf v
  if n == 2 then return (xs.get 0, xs.get 1) else failure

/-- Entries with those of arguments put among them: of a dictionary or of a
series of pairs, and then those given by name, none of which comes twice. -/
def update (entries : Array (Value × Value)) (args : List Value) (named : Named) :
    Eval (Array (Value × Value)) := do
  let s ← get
  let more ← match args with
    | [] => pure []
    | [.dict p] => pure (s.dictItems p).toList
    | [v] => (← itemsOf v).toList.mapM pairOf
    | _ => failure
  let names := named.map (·.1)
  if names.eraseDups.length != names.length then failure
  else putAll? entries (more ++ named.map fun e => (.ofBytes e.1, e.2))

def dictMethod (place : Nat) (name : String) (args : List Value) (named : Named) :
    Eval Value := do
  let es := (← get).dictItems place
  match name, args, named with
  | "clear", [], [] =>
    changeDict place fun _ => #[]
    return .none
  | "get", args, [] =>
    match ← filled? 1 2 args with
    | [k, v] => return (← lookUp? es k).getD v
    | _ => failure
  | "items", [], [] => listOf (es.toList.map fun e => .tuple [e.1, e.2])
  | "keys", [], [] => listOf (es.toList.map (·.1))
  | "values", [], [] => listOf (es.toList.map (·.2))
  | "pop", k :: rest, [] =>
    if 1 < rest.length then failure
    else match ← position? es k with
      | some i =>
        changeDict place fun es => es.eraseIdxIfInBounds i
        return (← es[i]?).2
      | none => rest.head?
  | "popitem", [], [] =>
    let (k, v) ← es[0]?
    changeDict place fun es => es.eraseIdxIfInBounds 0
    return .tuple [k, v]
  | "setdefault", args, [] =>
    match ← filled? 1 2 args with
    | [k, v] =>
      match ← lookUp? es k with
      | some w => return w
      | none =>
        let es ← put? es k v
        changeDict place fun _ => es
        return v
    | _ => failure
  | "update", args, named =>
    let es ← update es args named
    changeDict place fun _ => es
    return .none
  | _, _, _ => failure

/-! ## Methods -/

def methodsOf : Value → List String
  | .str _ => stringMethods
  | .bytes _ => ["elems"]
  | .list _ => listMethods
  | .dict _ => dictMethods
  | _ => []

def methodOf (v : Value) (name : String) : Eval (Option Value) := do
  if (methodsOf v).contains name then
    let id ← fresh
    return some (.method id v name)
  else return none

/-- Call a method.  Only two take arguments by name. -/
def callMethod (self : Value) (name : String) (args : List Value) (named : Named) :
    Eval Value := do
  match self, name, args, named with
  | .str b, "format", args, named =>
    return .ofBytes (← (← get).fillFields args named 0 {} b.toList)
  | .str b, name, args, [] => stringMethod b name args
  | .bytes b, "elems", [], [] => return .parts .byteElems b
  | .list p, name, args, [] => listMethod p name args
  | .dict p, name, args, named => dictMethod p name args named
  | _, _, _, _ => failure

end Mos6510.Script
