/-!
# Source text from bytes

A source file is a sequence of bytes that is meant to be UTF-8 and need not
be.  `Glyph.ofBytes` splits it into glyphs: each well formed sequence is the
character it encodes, and every byte that starts none is a glyph of its own
that stands for the replacement character.
-/

namespace Mos6510.Text

/-- One unit of source text. -/
inductive Glyph where
  /-- A well formed character. -/
  | char (c : Char)
  /-- A byte that is not part of any well formed character. -/
  | stray (b : UInt8)
  deriving DecidableEq, Repr, Inhabited

namespace Glyph

/-- The character shown for a glyph: U+FFFD for a stray byte. -/
def toChar : Glyph → Char
  | char c => c
  | stray _ => '\uFFFD'

/-- Is the glyph well formed? -/
def isChar : Glyph → Bool
  | char _ => true
  | stray _ => false

def encodeChar (c : Char) : List UInt8 :=
  (String.singleton c).toUTF8.toList

def firstByte : Glyph → UInt8
  | char c => (encodeChar c).headD 0
  | stray b => b

/-- Is the glyph this very character? -/
def is (g : Glyph) (c : Char) : Bool := g == .char c

def ofString (s : String) : List Glyph := s.toList.map .char

/-- The text shown for a sequence of glyphs. -/
def toText (gs : List Glyph) : String := String.ofList (gs.map toChar)

/-- The six payload bits of a continuation byte. -/
def continuation? (b : UInt8) : Option Nat :=
  if 0x80 ≤ b && b < 0xC0 then some (b.toNat - 0x80) else none

/-- The well formed character at the start of a byte sequence, with the
number of bytes after the first that belong to it.  Overlong forms, surrogates
and code points beyond U+10FFFF are not well formed. -/
def decode? : List UInt8 → Option (Char × Nat)
  | [] => none
  | a :: rest =>
    if a < 0x80 then some (Char.ofNat a.toNat, 0)
    else if 0xC2 ≤ a && a < 0xE0 then do
      let x ← rest.head? >>= continuation?
      some (Char.ofNat ((a.toNat - 0xC0) * 64 + x), 1)
    else if 0xE0 ≤ a && a < 0xF0 then do
      let x ← rest.head? >>= continuation?
      let y ← (rest.drop 1).head? >>= continuation?
      let n := ((a.toNat - 0xE0) * 64 + x) * 64 + y
      if 0x800 ≤ n && !(0xD800 ≤ n && n < 0xE000) then some (Char.ofNat n, 2) else none
    else if 0xF0 ≤ a && a < 0xF5 then do
      let x ← rest.head? >>= continuation?
      let y ← (rest.drop 1).head? >>= continuation?
      let z ← (rest.drop 2).head? >>= continuation?
      let n := (((a.toNat - 0xF0) * 64 + x) * 64 + y) * 64 + z
      if 0x10000 ≤ n && n < 0x110000 then some (Char.ofNat n, 3) else none
    else none

/-- Split bytes into glyphs, passing over `skip` bytes that belong to the
glyph before. -/
def split : Nat → List UInt8 → List Glyph
  | _, [] => []
  | skip + 1, _ :: rest => split skip rest
  | 0, b :: rest =>
    match decode? (b :: rest) with
    | some (c, more) => .char c :: split more rest
    | none => .stray b :: split 0 rest

/-- The glyphs of a byte sequence. -/
def ofBytes (bytes : List UInt8) : List Glyph := split 0 bytes

end Glyph

end Mos6510.Text
