import Mos6510.Text.Utf8

/-!
# Rows of bytes

The strings of scripts are rows of bytes that are meant to be UTF-8 and need
not be: an index or a slice can cut a character apart.  This module searches,
divides and joins such rows.
-/

namespace Mos6510.Script

open Text (Glyph)

/-- A row of bytes, kept as a part and how often it is repeated: a row that is
repeated very often takes no more room than its part. -/
structure Bytes where
  part : List UInt8
  copies : Nat := 1
  deriving Inhabited, Repr

namespace Bytes

def toList (b : Bytes) : List UInt8 :=
  if b.copies == 1 then b.part else (List.replicate b.copies b.part).flatten

def size (b : Bytes) : Nat := b.part.length * b.copies

def isEmpty (b : Bytes) : Bool := b.size == 0

def times (b : Bytes) (n : Nat) : Bytes := { b with copies := b.copies * n }

def get? (b : Bytes) (i : Nat) : Option UInt8 :=
  if i < b.size then b.part[i % b.part.length]? else none

def same (a b : Bytes) : Bool :=
  a.size == b.size && ((a.copies == b.copies && a.part == b.part) || a.toList == b.toList)

def ofChars (cs : List Char) : Bytes := { part := cs.flatMap Glyph.encodeChar }

def ofString (s : String) : Bytes := ofChars s.toList

/-- The characters of a row, and the bytes that are part of none. -/
def glyphs (b : Bytes) : List Glyph := Glyph.ofBytes b.toList

end Bytes

/-- The bytes of a character, or the stray byte. -/
def glyphBytes : Glyph → List UInt8
  | .char c => Glyph.encodeChar c
  | .stray b => [b]

/-- The character of a glyph in UTF-8; a stray byte is replaced. -/
def mended (g : Glyph) : List UInt8 := Glyph.encodeChar g.toChar

/-! ## Searching -/

/-- Where a row starts inside another one, at the earliest. -/
def indexOf? (sub : List UInt8) : List UInt8 → Option Nat
  | [] => if sub.isEmpty then some 0 else none
  | b :: rest =>
    if sub.isPrefixOf (b :: rest) then some 0 else (indexOf? sub rest).map (· + 1)

/-- Where a row starts inside another one, at the latest. -/
def lastIndexOf? (sub : List UInt8) : List UInt8 → Option Nat
  | [] => if sub.isEmpty then some 0 else none
  | b :: rest =>
    match lastIndexOf? sub rest with
    | some i => some (i + 1)
    | none => if sub.isPrefixOf (b :: rest) then some 0 else none

/-- Is a row inside another one? -/
def contains (sub s : List UInt8) : Bool := (indexOf? sub s).isSome

def endsIn (sub s : List UInt8) : Bool := sub.reverse.isPrefixOf s.reverse

/-! ## Dividing -/

/-- The parts of a row between separators, of which at most `limit` count; the
bytes of the separator before are passed over. -/
def splitFrom (sep : List UInt8) : Nat → Nat → List UInt8 → List (List UInt8)
  | _, _, [] => [[]]
  | skip + 1, limit, _ :: rest => splitFrom sep skip limit rest
  | 0, limit, b :: rest =>
    if 0 < limit && sep.isPrefixOf (b :: rest) then
      match sep.length with
      | 0 => [b :: rest]
      | n + 1 => [] :: splitFrom sep n (limit - 1) rest
    else match splitFrom sep 0 limit rest with
      | part :: more => (b :: part) :: more
      | [] => [[b]]

/-- The parts of a row between separators.  With a limit, no more separators
count. -/
def splitAtMost (sep : List UInt8) (limit : Option Nat) (s : List UInt8) : List (List UInt8) :=
  splitFrom sep 0 (limit.getD s.length) s

/-- The number of times that a separator divides a row. -/
def countOf (sep s : List UInt8) : Nat := (splitAtMost sep none s).length - 1

/-- Parts with a row between them. -/
def joinWith (sep : List UInt8) (parts : List (List UInt8)) : List UInt8 :=
  (parts.intersperse sep).flatten

/-- Replace a row inside another one, so many times at most.  An empty row
stands before the first character and after each. -/
def replaceIn (old new : List UInt8) (limit : Option Nat) (s : List UInt8) : List UInt8 :=
  if old.isEmpty then
    let gs := (Glyph.ofBytes s).map glyphBytes
    let n := min (limit.getD (gs.length + 1)) (gs.length + 1)
    let first := gs.take (n - 1)
    if n == 0 then s
    else new ++ (first.map (· ++ new)).flatten ++ (gs.drop (n - 1)).flatten
  else joinWith new (splitAtMost old limit s)

/-! ## Cutting off -/

/-- Drop glyphs from the start while a test holds. -/
def trimStart (p : Glyph → Bool) (gs : List Glyph) : List Glyph := gs.dropWhile p

/-- Drop glyphs from the end while a test holds. -/
def trimEnd (p : Glyph → Bool) (gs : List Glyph) : List Glyph := (gs.reverse.dropWhile p).reverse

end Mos6510.Script
