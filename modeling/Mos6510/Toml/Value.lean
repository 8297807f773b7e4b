import Mos6510.Toml.Scalar

/-!
# Values of TOML

Values as they are written, and the keys that name them.
-/

namespace Mos6510.Toml

/-- A value without parts. -/
inductive Scalar where
  | text (s : String)
  | int (n : Int64)
  /-- A number that is no integer. -/
  | real
  /-- A date or time. -/
  | moment
  | bool (b : Bool)
  deriving DecidableEq, Repr, Inhabited

mutual

/-- A value as it is written. -/
inductive Value where
  | scalar (s : Scalar)
  | array (items : List Value)
  /-- A table within a line. -/
  | table (entries : List Entry)

/-- A key with its value. -/
inductive Entry where
  | mk (key : List String) (value : Value)

end

instance : Inhabited Value := ⟨.scalar default⟩

def keyPart? (cs : List Char) : Option (String × List Char) :=
  match cs.takeWhile isBare with
  | [] => shortString? cs
  | w => some (String.ofList w, cs.dropWhile isBare)

/-- The parts of a key with dots between them; the fuel bounds their
number. -/
def keyParts? : Nat → List Char → Option (List String × List Char)
  | 0, _ => none
  | fuel + 1, cs =>
    match keyPart? (skipGap cs) with
    | none => none
    | some (part, rest) =>
      match skipGap rest with
      | '.' :: rest => (keyParts? fuel rest).map fun r => (part :: r.1, r.2)
      | rest => some ([part], rest)

def key? (cs : List Char) : Option (List String × List Char) := keyParts? (cs.length + 1) cs

def wordValue? (w : List Char) : Option Scalar :=
  if w == "true".toList then some (.bool true)
  else if w == "false".toList then some (.bool false)
  else match integer? w with
    | some n => some (.int n)
    | none => if isReal w then some .real else if isMoment w then some .moment else none

/-- The word at the start of the text.  Date and time may have one blank
between them. -/
def word (cs : List Char) : List Char × List Char :=
  let w := cs.takeWhile isWord
  let rest := cs.dropWhile isWord
  match rest with
  | ' ' :: d :: more =>
    if isDate w && d.isDigit then
      (w ++ 'T' :: (d :: more).takeWhile isWord, (d :: more).dropWhile isWord)
    else (w, rest)
  | rest => (w, rest)

mutual

/-- A value.  The fuel bounds the depth of calls. -/
def value? : Nat → List Char → Option (Value × List Char)
  | 0, _ => none
  | fuel + 1, cs =>
    match cs with
    | '[' :: rest => (items? fuel (skipBlank false rest)).map fun r => (.array r.1, r.2)
    | '\x7b' :: rest =>
      match skipGap rest with
      | '\x7d' :: rest => some (.table [], rest)
      | rest => (entries? fuel rest).map fun r => (.table r.1, r.2)
    | '"' :: _ => (string? cs).map fun r => (.scalar (.text r.1), r.2)
    | '\'' :: _ => (string? cs).map fun r => (.scalar (.text r.1), r.2)
    | cs =>
      let (w, rest) := word cs
      (wordValue? w).map fun s => (.scalar s, rest)

/-- The items of an array up to its end. -/
def items? : Nat → List Char → Option (List Value × List Char)
  | 0, _ => none
  | fuel + 1, cs =>
    match cs with
    | ']' :: rest => some ([], rest)
    | cs =>
      match value? fuel cs with
      | none => none
      | some (v, rest) =>
        match skipBlank false rest with
        | ',' :: rest =>
          (items? fuel (skipBlank false rest)).map fun r => (v :: r.1, r.2)
        | ']' :: rest => some ([v], rest)
        | _ => none

/-- The entries of a table within a line up to its end. -/
def entries? : Nat → List Char → Option (List Entry × List Char)
  | 0, _ => none
  | fuel + 1, cs =>
    match entry? fuel cs with
    | none => none
    | some (e, rest) =>
      match skipGap rest with
      | ',' :: rest => (entries? fuel rest).map fun r => (e :: r.1, r.2)
      | '\x7d' :: rest => some ([e], rest)
      | _ => none

def entry? : Nat → List Char → Option (Entry × List Char)
  | 0, _ => none
  | fuel + 1, cs =>
    match key? cs with
    | some (key, '=' :: rest) =>
      (value? fuel (skipGap rest)).map fun r => (.mk key r.1, r.2)
    | _ => none

end

end Mos6510.Toml
