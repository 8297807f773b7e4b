import Mos6510.Error
import Mos6510.Token

/-!
# Reading tokens

A parser of a file reads from the front of its tokens.  It never makes the
tokens more, which its type says, so that loops over it end.
-/

namespace Mos6510

/-- What is left of some tokens. -/
abbrev Tail (ts : List Token) := { rest : List Token // rest.length ≤ ts.length }

namespace Tail

def all (ts : List Token) : Tail ts := ⟨ts, Nat.le_refl _⟩

def afterFirst : (ts : List Token) → Tail ts
  | [] => ⟨[], Nat.le_refl _⟩
  | _ :: rest => ⟨rest, Nat.le_succ _⟩

def within {ts : List Token} (rest : Tail ts) (last : Tail rest.val) : Tail ts :=
  ⟨last.val, Nat.le_trans last.property rest.property⟩

/-- What is left of the tokens after a first one. -/
def behind {rest : List Token} (t : Token) (last : Tail rest) : Tail (t :: rest) :=
  ⟨last.val, Nat.le_succ_of_le last.property⟩

/-- What is left of the tokens after a first one is less than all. -/
theorem length_lt {rest : List Token} (last : Tail rest) :
    last.val.length < rest.length + 1 :=
  Nat.lt_succ_of_le last.property

end Tail

/-- A parser: from the name of the file and its tokens to a value and the
tokens left. -/
def Parse (α : Type) := (file : String) → (ts : List Token) → Except Error (α × Tail ts)

namespace Parse

instance : Monad Parse where
  pure a := fun _ ts => .ok (a, .all ts)
  bind p f := fun file ts =>
    match p file ts with
    | .error err => .error err
    | .ok (a, rest) =>
      match f a file rest.val with
      | .error err => .error err
      | .ok (b, last) => .ok (b, rest.within last)

/-- The lexeme in front.  Tokens end with an end of file, which is never
taken. -/
def front : List Token → Lexeme
  | [] => .endOfFile
  | t :: _ => t.lexeme

/-- The location of the token in front. -/
def placeOf (file : String) : List Token → Location
  | [] => ⟨file, 0⟩
  | t :: _ => ⟨file, t.line⟩

def failAt {α : Type} (loc : Location) (err : Error) : Parse α := fun _ _ =>
  .error (.inSource loc err)

def fail {α : Type} (err : Error) : Parse α := fun file ts =>
  .error (.inSource (placeOf file ts) err)

/-- The location of the token in front. -/
def here : Parse Location := fun file ts => .ok (placeOf file ts, .all ts)

/-- The lexeme in front, which stays. -/
def peek : Parse Lexeme := fun _ ts => .ok (front ts, .all ts)

/-- The lexeme after the one in front; both stay. -/
def peekSecond : Parse Lexeme := fun _ ts => .ok (front ts.tail, .all ts)

/-- Drop the token in front. -/
def next : Parse Unit := fun _ ts => .ok ((), .afterFirst ts)

/-- Take the token in front if it is the one given. -/
def accept (l : Lexeme) : Parse Bool := do
  if (← peek) = l then
    next
    pure true
  else pure false

/-- Take the token in front, which has to be the one given. -/
def expect (l : Lexeme) (missing : Error) : Parse Unit := do
  if (← peek) = l then next else fail missing

def identifier : Parse String := do
  match ← peek with
  | .word name =>
    next
    pure name
  | _ => fail .identifierExpected

def quoted : Parse String := do
  match ← peek with
  | .string text _ =>
    next
    pure text
  | _ => fail .stringExpected

/-- Items that each have a comma before them. -/
def afterCommas {α : Type} (item : Parse α) (file : String) (ts : List Token) :
    Except Error (List α × Tail ts) :=
  match ts with
  | ⟨.comma, line⟩ :: rest =>
    match item file rest with
    | .error err => .error err
    | .ok (a, more) =>
      match afterCommas item file more.val with
      | .error err => .error err
      | .ok (as, last) =>
        .ok (a :: as, (more.within last).behind ⟨.comma, line⟩)
  | ts => .ok ([], .all ts)
termination_by ts.length
decreasing_by exact more.length_lt

end Parse

end Mos6510
