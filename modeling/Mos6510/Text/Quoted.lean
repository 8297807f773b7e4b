import Mos6510.Text.Digits
import Mos6510.Text.Printable

/-!
# Quoted text

A text between quotes on one line: the quote, the backslash and whatever is
not printable are written as escapes.
-/

namespace Mos6510.Text

/-- How a control character with a letter of its own is escaped. -/
def letterEscape? (c : Char) : Option Char :=
  match c.toNat with
  | 7 => some 'a'
  | 8 => some 'b'
  | 12 => some 'f'
  | 10 => some 'n'
  | 13 => some 'r'
  | 9 => some 't'
  | 11 => some 'v'
  | _ => none

/-- A code point as an escape of the least of the widths two, four and
eight that fits its kind: control characters, the basic plane, the rest. -/
def codeEscape (c : Char) : List Char :=
  let n := c.toNat
  let body (width : Nat) := zeroPad width (digits lowerDigit 16 n)
  if n < 0x20 || n == 0x7F then '\\' :: 'x' :: body 2
  else if n < 0x10000 then '\\' :: 'u' :: body 4
  else '\\' :: 'U' :: body 8

/-- One character inside quotes.  With `ascii` nothing above ASCII is shown
as it is. -/
def quoteChar (quote : Char) (ascii : Bool) (c : Char) : List Char :=
  if c == quote || c == '\\' then ['\\', c]
  else if isPrintable c && (!ascii || c.toNat < 128) then [c]
  else match letterEscape? c with
    | some e => ['\\', e]
    | none => codeEscape c

/-- A text between double quotes. -/
def quote (ascii : Bool) (s : String) : String :=
  String.ofList ('"' :: s.toList.flatMap (quoteChar '"' ascii) ++ ['"'])

def quoteSingle (ascii : Bool) (c : Char) : String :=
  String.ofList ('\'' :: quoteChar '\'' ascii c ++ ['\''])

end Mos6510.Text
