import Mos6510.Double.Text
import Mos6510.Script.Value
import Mos6510.Text.Quoted

/-!
# Values as text

The text of a value is the expression that gives it, where there is one.  A
list or dictionary inside itself is written as three dots.
-/

namespace Mos6510.Script

open Text (Glyph)

def ascii (s : String) : List UInt8 := s.toList.map fun c => c.toNat.toUInt8

def quoteGlyph : Glyph → List UInt8
  | .char c => (Text.quoteChar '"' false c).flatMap Glyph.encodeChar
  | .stray b =>
    ascii ("\\x" ++ String.ofList (Text.zeroPad 2 (Text.digits Text.lowerDigit 16 b.toNat)))

/-- A row of bytes between quotes. -/
def quoteBytes (b : Bytes) : List UInt8 := [34] ++ b.glyphs.flatMap quoteGlyph ++ [34]

/-- Texts with a comma and a blank between them. -/
def commas (xs : List (List UInt8)) : List UInt8 := joinWith (ascii ", ") xs

def showRange (start stop step : Int) : List UInt8 :=
  let args := if step != 1 then [start, stop, step] else if start != 0 then [start, stop]
    else [stop]
  ascii "range(" ++ commas (args.map fun n => ascii (Text.decimal n)) ++ ascii ")"

/-- The method that gives a series of parts. -/
def Parts.method : Parts → String
  | elems => "elems"
  | elemOrds => "elem_ords"
  | codepoints => "codepoints"
  | codepointOrds => "codepoint_ords"
  | byteElems => "elems"

def Func.name {ν : Type} : Func ν → String
  | .mk _ name _ _ _ _ => name

mutual

/-- The text of a value, given that of lists and dictionaries. -/
def Value.showWith (cell : Value → List UInt8) : Value → List UInt8
  | .none => ascii "None"
  | .bool true => ascii "True"
  | .bool false => ascii "False"
  | .int n => ascii (Text.decimal n)
  | .real x => ascii (String.ofList (x.shortText 'e'))
  | .str b => quoteBytes b
  | .bytes b => ascii "b" ++ quoteBytes b
  | .tuple [x] => ascii "(" ++ x.showWith cell ++ ascii ",)"
  | .tuple xs => ascii "(" ++ commas (showAll cell xs) ++ ascii ")"
  | .list p => cell (.list p)
  | .dict p => cell (.dict p)
  | .range a b c => showRange a b c
  | .parts .byteElems b => ascii "b" ++ quoteBytes b ++ ascii ".elems()"
  | .parts kind b => quoteBytes b ++ ascii ("." ++ kind.method ++ "()")
  | .prim f => ascii ("<built-in function " ++ f.name ++ ">")
  | .method _ self name =>
    ascii ("<built-in method " ++ name ++ " of " ++ self.typeName ++ " value>")
  | .closure _ code _ _ => ascii "<function " ++ (Bytes.ofString code.name).toList ++ ascii ">"

def showAll (cell : Value → List UInt8) : List Value → List (List UInt8)
  | [] => []
  | x :: rest => x.showWith cell :: showAll cell rest

end

/-- Is the list or dictionary one of those around? -/
def isAround (around : List Value) (v : Value) : Bool :=
  around.any fun w =>
    match v, w with
    | .list p, .list q => p == q
    | .dict p, .dict q => p == q
    | _, _ => false

/-- The text of a value inside others.  No list or dictionary is entered
twice, so their number bounds the depth. -/
def Store.showAt (s : Store) : Nat → List Value → Value → List UInt8
  | 0, _, _ => ascii "..."
  | fuel + 1, around, v => v.showWith fun c =>
    match c with
    | .list p =>
      ascii "[" ++ (if isAround around c then ascii "..."
        else commas ((s.listItems p).toList.map (s.showAt fuel (c :: around)))) ++ ascii "]"
    | .dict p =>
      let entry (e : Value × Value) : List UInt8 :=
        s.showAt fuel around e.1 ++ ascii ": " ++ s.showAt fuel (c :: around) e.2
      ascii "\x7b" ++ (if isAround around c then ascii "..."
        else commas ((s.dictItems p).toList.map entry)) ++ ascii "\x7d"
    | _ => []

def Store.text (s : Store) (v : Value) : List UInt8 :=
  s.showAt (s.lists.size + s.dicts.size + 2) [] v

/-- The text of a value; a string is its own text. -/
def Store.display (s : Store) : Value → List UInt8
  | .str b => b.toList
  | v => s.text v

end Mos6510.Script
