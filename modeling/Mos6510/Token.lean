import Mos6510.Mnemonic
import Mos6510.Operator
import Mos6510.Text.Digits
import Mos6510.Text.Quoted

/-!
# Tokens

The lexical elements of source text.  Names are in upper case; a string is
kept both as text and as the bytes it stands for in memory.
-/

namespace Mos6510

/-- The operators of expressions as they are written.  Some stand for a prefix
operator, some for an infix operator, some for either. -/
inductive Sign where
  | bang
  | tilde
  | plus
  | minus
  | times
  | slash
  | ampersand
  | bar
  | caret
  | shiftLeft
  | shiftRight
  | equal
  | unequal
  | less
  | lessEqual
  | greater
  | greaterEqual
  deriving DecidableEq, Repr, Inhabited

namespace Sign

/-- The signs of two characters. -/
def double : List Sign :=
  [equal, unequal, shiftLeft, lessEqual, shiftRight, greaterEqual]

def single : List Sign :=
  [bang, tilde, less, greater, plus, minus, times, slash, ampersand, bar, caret]

/-- Every sign, longer ones first, so that the first that fits is the longest. -/
def all : List Sign := double ++ single

def chars : Sign → List Char
  | bang => ['!']
  | tilde => ['~']
  | plus => ['+']
  | minus => ['-']
  | times => ['*']
  | slash => ['/']
  | ampersand => ['&']
  | bar => ['|']
  | caret => ['^']
  | shiftLeft => ['<', '<']
  | shiftRight => ['>', '>']
  | equal => ['=', '=']
  | unequal => ['!', '=']
  | less => ['<']
  | lessEqual => ['<', '=']
  | greater => ['>']
  | greaterEqual => ['>', '=']

def text (s : Sign) : String := String.ofList s.chars

/-- The prefix operator that a sign stands for. -/
def unary? : Sign → Option UnaryOp
  | bang => some .logicalNot
  | tilde => some .complement
  | minus => some .negate
  | less => some .lowByte
  | greater => some .highByte
  | _ => none

/-- The infix operator that a sign stands for. -/
def binary? : Sign → Option BinaryOp
  | plus => some .add
  | minus => some .sub
  | times => some .mul
  | slash => some .div
  | ampersand => some .and
  | bar => some .or
  | caret => some .xor
  | shiftLeft => some .shiftLeft
  | shiftRight => some .shiftRight
  | equal => some .eq
  | unequal => some .ne
  | less => some .lt
  | lessEqual => some .le
  | greater => some .gt
  | greaterEqual => some .ge
  | bang => none
  | tilde => none

end Sign

/-- The kinds of tokens. -/
inductive TokenKind where
  | endOfFile
  | directive
  | word
  | mnemonic
  | label
  | string
  | pc
  | immediate
  | number
  | assign
  | operator
  | openParen
  | closeParen
  | comma
  deriving DecidableEq, Repr, Inhabited

namespace TokenKind

def all : List TokenKind :=
  [endOfFile, directive, word, mnemonic, label, string, pc, immediate, number, assign,
    operator, openParen, closeParen, comma]

def name : TokenKind → String
  | endOfFile => "end of file"
  | directive => "directive"
  | word => "identifier"
  | mnemonic => "mnemonic"
  | label => "label"
  | string => "string"
  | pc => "@"
  | immediate => "#"
  | number => "number"
  | assign => "="
  | operator => "operator"
  | openParen => "("
  | closeParen => ")"
  | comma => ","

end TokenKind

/-- A lexical element. -/
inductive Lexeme where
  | endOfFile
  /-- A directive, without its dot. -/
  | directive (name : String)
  | word (name : String)
  | mnemonic (name : Mnemonic)
  /-- A label, without its colon. -/
  | label (name : String)
  /-- A string, unescaped, and its bytes in memory. -/
  | string (text : String) (bytes : List UInt8)
  /-- The program counter `@`. -/
  | pc
  | immediate
  /-- A number as it is written, and its value. -/
  | number (text : String) (value : Int64)
  | assign
  | operator (sign : Sign)
  | openParen
  | closeParen
  | comma
  deriving DecidableEq, Repr, Inhabited

namespace Lexeme

def kind : Lexeme → TokenKind
  | endOfFile => .endOfFile
  | directive _ => .directive
  | word _ => .word
  | mnemonic _ => .mnemonic
  | label _ => .label
  | string _ _ => .string
  | pc => .pc
  | immediate => .immediate
  | number _ _ => .number
  | assign => .assign
  | operator _ => .operator
  | openParen => .openParen
  | closeParen => .closeParen
  | comma => .comma

/-- The name, sign, number or unescaped string of a lexeme. -/
def text : Lexeme → String
  | endOfFile => ""
  | directive name => name
  | word name => name
  | mnemonic m => m.name
  | label name => name
  | string text _ => text
  | number text _ => text
  | operator sign => sign.text
  | pc => "@"
  | immediate => "#"
  | assign => "="
  | openParen => "("
  | closeParen => ")"
  | comma => ","

/-- A lexeme as messages show it. -/
def render : Lexeme → String
  | endOfFile => TokenKind.endOfFile.name
  | directive name => "'." ++ name ++ "'"
  | label name => "'" ++ name ++ ":'"
  | string text _ => Text.quote false text
  | number _ value => Text.decimal value.toInt
  | l => "'" ++ l.text ++ "'"

end Lexeme

/-- A lexeme at its line of the source. -/
structure Token where
  lexeme : Lexeme
  line : Nat
  deriving DecidableEq, Repr, Inhabited

end Mos6510
