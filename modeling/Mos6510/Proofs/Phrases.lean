import Mos6510.Proofs.Issue
import Mos6510.Proofs.Terms

/-!
# Written statements

A phrase is a statement as it is written, with the line of each token.
Statements have no separator: where one ends shows only in what its tokens and
the first two of the next one are (`Begins`).  This is enough to read every
list of phrases back (`readLines_phrases`), as long as the operand of an
instruction does not look like one of another form.
-/

namespace Mos6510

open Parse

/-! ## Parts of statements -/

/-- A name and its line. -/
structure WrittenName where
  line : Nat
  name : String
  deriving DecidableEq, Repr

def WrittenName.token (n : WrittenName) : Token := ⟨.word n.name, n.line⟩

/-- A string and its line. -/
structure WrittenString where
  line : Nat
  text : String
  bytes : List UInt8
  deriving DecidableEq, Repr

def WrittenString.token (s : WrittenString) : Token := ⟨.string s.text s.bytes, s.line⟩

/-- An item of data, or an argument of a message. -/
inductive Item where
  | text (s : WrittenString)
  | value (x : Term)
  deriving DecidableEq, Repr

/-- The line of the first token of a term. -/
def Term.line : Term → Nat
  | number line _ _ => line
  | symbol line _ => line
  | pc line => line
  | group opens _ _ => opens
  | unary line _ _ => line
  | binary x _ _ _ => x.line

namespace Item

def tokens : Item → List Token
  | text s => [s.token]
  | value x => x.tokens

/-- The item as a line of data. -/
def line (file : String) (word : Bool) : Item → Line
  | text s => ⟨⟨file, s.line⟩, .text word s.bytes⟩
  | value x => ⟨⟨file, x.line⟩, .data word (x.expr file).actions⟩

/-- The item as the argument of a message. -/
def argument (file : String) : Item → MessageArg
  | text s => .text s.text
  | value x => .expr (x.expr file).actions

/-- Is the expression of the item well-formed? -/
def fits : Item → Bool
  | text _ => true
  | value x => x.fits 0

end Item

/-- The tokens of things that each have a comma before them. -/
def behindCommas {α : Type} (tokens : α → List Token) (more : List (Nat × α)) : List Token :=
  more.flatMap fun m => ⟨.comma, m.1⟩ :: tokens m.2

theorem behindCommas_cons_append {α : Type} (tokens : α → List Token) (m : Nat × α)
    (more : List (Nat × α)) (rest : List Token) :
    behindCommas tokens (m :: more) ++ rest =
      ⟨.comma, m.1⟩ :: (tokens m.2 ++ (behindCommas tokens more ++ rest)) := by
  rw [behindCommas, List.flatMap_cons, List.cons_append, List.cons_append, List.append_assoc]
  rfl

/-- The operand of an instruction as it is written. -/
inductive OperandPhrase where
  | none
  | accumulator (line : Nat)
  | immediate (line : Nat) (x : Term)
  | direct (x : Term)
  | directX (x : Term) (comma register : Nat)
  | directY (x : Term) (comma register : Nat)
  | indirect (opens : Nat) (x : Term) (closes : Nat)
  | indirectX (opens : Nat) (x : Term) (comma register closes : Nat)
  | indirectY (opens : Nat) (x : Term) (closes comma register : Nat)
  deriving DecidableEq, Repr

namespace OperandPhrase

def tokens : OperandPhrase → List Token
  | none => []
  | accumulator line => [⟨.word "A", line⟩]
  | immediate line x => ⟨.immediate, line⟩ :: x.tokens
  | direct x => x.tokens
  | directX x comma register => x.tokens ++ [⟨.comma, comma⟩, ⟨.word "X", register⟩]
  | directY x comma register => x.tokens ++ [⟨.comma, comma⟩, ⟨.word "Y", register⟩]
  | indirect opens x closes => ⟨.openParen, opens⟩ :: (x.tokens ++ [⟨.closeParen, closes⟩])
  | indirectX opens x comma register closes => ⟨.openParen, opens⟩ :: (x.tokens ++
      [⟨.comma, comma⟩, ⟨.word "X", register⟩, ⟨.closeParen, closes⟩])
  | indirectY opens x closes comma register => ⟨.openParen, opens⟩ :: (x.tokens ++
      [⟨.closeParen, closes⟩, ⟨.comma, comma⟩, ⟨.word "Y", register⟩])

def operand (file : String) : OperandPhrase → Operand
  | none | accumulator _ => {}
  | immediate _ x => { form := .immediate, expr := (x.expr file).actions }
  | direct x => { form := .direct, expr := (x.expr file).actions }
  | directX x _ _ => { form := .direct, index := .x, expr := (x.expr file).actions }
  | directY x _ _ => { form := .direct, index := .y, expr := (x.expr file).actions }
  | indirect _ x _ => { form := .indirect, expr := (x.expr file).actions }
  | indirectX _ x _ _ _ => { form := .indirectX, expr := (x.expr file).actions }
  | indirectY _ x _ _ _ => { form := .indirectY, expr := (x.expr file).actions }

/-- The expression of a written operand. -/
def term? : OperandPhrase → Option Term
  | none | accumulator _ => Option.none
  | immediate _ x | direct x | directX x _ _ | directY x _ _ => some x
  | indirect _ x _ | indirectX _ x _ _ _ | indirectY _ x _ _ _ => some x

/-- The expression of a direct operand, which is all that the operand begins with. -/
def direct? : OperandPhrase → Option Term
  | direct x | directX x _ _ | directY x _ _ => some x
  | _ => Option.none

/-- Is the operand well-formed?  The accumulator is written only where there
is an encoding without operand. -/
def fits (m : Mnemonic) (o : OperandPhrase) : Bool :=
  o.term?.all (·.fits 0) &&
    match o with
    | accumulator _ => m.has .implied
    | _ => true

/-- Does a direct operand look like no other operand: not like an indirect one,
and not like the accumulator?  There are none of these after a branch. -/
def isClear (m : Mnemonic) (o : OperandPhrase) : Bool :=
  (o.direct?.all fun x => x.head != .openParen && !(x.head == .word "A" && m.has .implied)) ||
    m.isBranch

/-- Is the operand one that a branch takes: a destination, or an immediate value? -/
def isDestination : OperandPhrase → Bool
  | direct _ | immediate _ _ => true
  | _ => false

end OperandPhrase

/-! ## Phrases -/

/-- The directives with one expression. -/
inductive TestDirective where
  | openIf
  | elseIf
  | openRepeat
  | openWhile
  deriving DecidableEq, Repr

def TestDirective.name : TestDirective → String
  | openIf => "IF"
  | elseIf => "ELIF"
  | openRepeat => "REP"
  | openWhile => "WHILE"

/-- What a directive with one expression asks for. -/
def TestDirective.statement : TestDirective → List Action → Statement
  | openIf => .openIf
  | elseIf => .elseIf
  | openRepeat => .openRepeat
  | openWhile => .openWhile

/-- The directives that stand alone. -/
inductive BareDirective where
  | otherwise
  | closeIf
  | closeRepeat
  | closeWhile
  | closeMacro
  deriving DecidableEq, Repr

/-- The name of a directive that stands alone. -/
def BareDirective.name : BareDirective → String
  | otherwise => "ELSE"
  | closeIf => "ENDIF"
  | closeRepeat => "ENDREP"
  | closeWhile => "ENDWHILE"
  | closeMacro => "ENDMACRO"

/-- What a directive that stands alone asks for. -/
def BareDirective.statement : BareDirective → Statement
  | otherwise => .otherwise
  | closeIf => .closeIf
  | closeRepeat => .closeRepeat
  | closeWhile => .closeWhile
  | closeMacro => .closeMacro

def messageName : Level → Bool → String
  | .info, false => "INFO"
  | .info, true => "INFOF"
  | .warning, false => "WARN"
  | .warning, true => "WARNF"
  | .error, false => "ERROR"
  | .error, true => "ERRORF"

/-- The part of a binary file that is stored. -/
inductive WrittenPart where
  | whole
  | skipping (comma : Nat) (skip : Term)
  | between (comma : Nat) (skip : Term) (comma' : Nat) (length : Term)
  deriving DecidableEq, Repr

/-- A statement as it is written. -/
inductive Phrase where
  | label (line : Nat) (name : String)
  | assign (line : Nat) (name : String) (sign : Nat) (x : Term)
  | assignPc (line : Nat) (sign : Nat) (x : Term)
  | instruction (line : Nat) (m : Mnemonic) (operand : OperandPhrase)
  | data (line : Nat) (word : Bool) (first : Item) (more : List (Nat × Item))
  | repeated (line : Nat) (word : Bool) (count : Term) (comma : Nat) (first : Item)
      (more : List (Nat × Item))
  | test (line : Nat) (directive : TestDirective) (x : Term)
  | bare (line : Nat) (directive : BareDirective)
  | openMacro (line : Nat) (name : WrittenName) (params : List (Nat × WrittenName))
  | call (line : Nat) (name : WrittenName) (args : List (Nat × Term))
  | metaLabel (line : Nat) (name : WrittenName)
  | goto (line : Nat) (name : WrittenName)
  | includeSource (line : Nat) (name : WrittenString)
  | includeBinary (line : Nat) (name : WrittenString) (part : WrittenPart)
  | message (line : Nat) (level : Level) (formatted : Bool) (first : Item) (more : List (Nat × Item))
  deriving DecidableEq, Repr

/-- The tokens of the part of a binary file. -/
def WrittenPart.tokens : WrittenPart → List Token
  | whole => []
  | skipping comma skip => ⟨.comma, comma⟩ :: skip.tokens
  | between comma skip comma' length =>
    ⟨.comma, comma⟩ :: (skip.tokens ++ ⟨.comma, comma'⟩ :: length.tokens)

/-- The statement that stores a part of a binary file. -/
def WrittenPart.statement (file : String) (loc : Location) (name : String) :
    WrittenPart → Statement
  | whole => .includeBinary name [Action.load loc 0] [Action.load loc (-1)]
  | skipping _ skip => .includeBinary name (skip.expr file).actions [Action.load loc (-1)]
  | between _ skip _ length =>
    .includeBinary name (skip.expr file).actions (length.expr file).actions

/-- Are the expressions of the part well-formed? -/
def WrittenPart.fits : WrittenPart → Bool
  | whole => true
  | skipping _ skip => skip.fits 0
  | between _ skip _ length => skip.fits 0 && length.fits 0

namespace Phrase

def tokens : Phrase → List Token
  | label line name => [⟨.label name, line⟩]
  | assign line name sign x => ⟨.word name, line⟩ :: ⟨.assign, sign⟩ :: x.tokens
  | assignPc line sign x => ⟨.pc, line⟩ :: ⟨.assign, sign⟩ :: x.tokens
  | instruction line m operand => ⟨.mnemonic m, line⟩ :: operand.tokens
  | data line word first more =>
    ⟨.directive (if word then "DW" else "DB"), line⟩ ::
      (first.tokens ++ behindCommas Item.tokens more)
  | repeated line word count comma first more =>
    ⟨.directive (if word then "REPW" else "REPB"), line⟩ ::
      (count.tokens ++ ⟨.comma, comma⟩ :: (first.tokens ++ behindCommas Item.tokens more))
  | test line directive x => ⟨.directive directive.name, line⟩ :: x.tokens
  | bare line directive => [⟨.directive directive.name, line⟩]
  | openMacro line name params =>
    ⟨.directive "MACRO", line⟩ :: name.token :: behindCommas (fun n => [n.token]) params
  | call line name args =>
    ⟨.directive "CALL", line⟩ :: name.token :: behindCommas Term.tokens args
  | metaLabel line name => [⟨.directive "LABEL", line⟩, name.token]
  | goto line name => [⟨.directive "GOTO", line⟩, name.token]
  | includeSource line name => [⟨.directive "INCLUDE", line⟩, name.token]
  | includeBinary line name part => ⟨.directive "INCBIN", line⟩ :: name.token :: part.tokens
  | message line level formatted first more =>
    ⟨.directive (messageName level formatted), line⟩ ::
      (first.tokens ++ behindCommas Item.tokens more)

/-- The lines of data of some items. -/
def itemLines (file : String) (word : Bool) (first : Item) (more : List (Nat × Item)) : List Line :=
  first.line file word :: more.map fun m => m.2.line file word

/-- What a phrase of a file asks for. -/
def lines (file : String) : Phrase → List Line
  | label line name => [⟨⟨file, line⟩, .label name⟩]
  | assign line name _ x => [⟨⟨file, line⟩, .assign name (x.expr file).actions⟩]
  | assignPc line _ x => [⟨⟨file, line⟩, .assign pcName (x.expr file).actions⟩]
  | instruction line m operand => [⟨⟨file, line⟩, .instruction m.name (operand.operand file)⟩]
  | data _ word first more => itemLines file word first more
  | repeated line word count _ first more =>
    ⟨⟨file, line⟩, .openRepeat (count.expr file).actions⟩ :: itemLines file word first more ++
      [⟨⟨file, line⟩, .closeRepeat⟩]
  | test line directive x => [⟨⟨file, line⟩, directive.statement (x.expr file).actions⟩]
  | bare line directive => [⟨⟨file, line⟩, directive.statement⟩]
  | openMacro line name params =>
    [⟨⟨file, line⟩, .openMacro name.name (params.map fun m => m.2.name)⟩]
  | call line name args =>
    [⟨⟨file, line⟩, .call name.name (args.map fun m => (m.2.expr file).actions)⟩]
  | metaLabel line name => [⟨⟨file, line⟩, .metaLabel name.name⟩]
  | goto line name => [⟨⟨file, line⟩, .goto name.name⟩]
  | includeSource line name => [⟨⟨file, line⟩, .includeSource name.text⟩]
  | includeBinary line name part =>
    [⟨⟨file, line⟩, part.statement file ⟨file, line⟩ name.text⟩]
  | message line level formatted first more =>
    [⟨⟨file, line⟩, .message level formatted
      (first.argument file :: more.map fun m => m.2.argument file)⟩]

/-- Is the phrase well-formed?  All its expressions are, and so is the operand
of an instruction; the parameters of a macro are global names. -/
def fits : Phrase → Bool
  | assign _ _ _ x | assignPc _ _ x | test _ _ x => x.fits 0
  | instruction _ m operand => operand.fits m
  | data _ _ first more | message _ _ _ first more => first.fits && more.all (·.2.fits)
  | repeated _ _ count _ first more => count.fits 0 && first.fits && more.all (·.2.fits)
  | openMacro _ _ params => params.all fun m => !isLocalName m.2.name
  | call _ _ args => args.all (·.2.fits 0)
  | includeBinary _ _ part => part.fits
  | label _ _ | bare _ _ | metaLabel _ _ | goto _ _ | includeSource _ _ => true

/-- Does the direct operand of an instruction look like no other operand? -/
def isClear : Phrase → Bool
  | instruction _ m operand => operand.isClear m
  | _ => true

def branchesSomewhere : Phrase → Bool
  | instruction _ m operand => operand.isDestination || !m.isBranch
  | _ => true

end Phrase

/-! ## Where a statement begins -/

/-- A statement begins here, or the file ends: a name or `@` begins one only
before `=`. -/
def Begins (ts : List Token) : Prop :=
  match front ts with
  | .mnemonic _ | .label _ | .directive _ | .endOfFile => True
  | .word _ | .pc => front ts.tail = .assign
  | _ => False

theorem Begins.stops {ts : List Token} (h : Begins ts) : Stops ts := by
  intro sign hsign
  unfold Begins at h
  rw [hsign] at h
  exact h

/-- What no statement begins with is not in front. -/
theorem Begins.front_ne {ts : List Token} (h : Begins ts) {l : Lexeme}
    (hl : l = .comma ∨ l = .assign ∨ l = .immediate) : front ts ≠ l := by
  intro hfront
  unfold Begins at h
  rw [hfront] at h
  rcases hl with rfl | rfl | rfl <;> exact h

theorem stops_comma (line : Nat) (ts : List Token) : Stops (⟨.comma, line⟩ :: ts) := nofun

theorem stops_closeParen (line : Nat) (ts : List Token) : Stops (⟨.closeParen, line⟩ :: ts) := nofun

theorem Term.placeOf_tokens (file : String) (x : Term) (rest : List Token) :
    placeOf file (x.tokens ++ rest) = ⟨file, x.line⟩ := by
  induction x generalizing rest with
  | binary x line op y ihx _ =>
      rw [tokens, List.append_assoc]
      exact ihx _
  | _ => rfl

/-- The lexemes that an expression begins with. -/
def Lexeme.startsTerm : Lexeme → Bool
  | .number _ _ | .word _ | .pc | .openParen | .operator _ => true
  | _ => false

theorem Term.head_starts (x : Term) : x.head.startsTerm = true := by
  induction x with
  | binary x line op y ihx _ => exact ihx
  | _ => rfl

theorem Term.front_ne_immediate (x : Term) {rest : List Token} :
    front (x.tokens ++ rest) ≠ .immediate := by
  have hhead := x.head_starts
  rw [x.front_tokens]
  intro h
  rw [h] at hhead
  cases hhead

theorem begins_tokens (p : Phrase) (rest : List Token) : Begins (p.tokens ++ rest) := by
  cases p with
  | assign | assignPc => rfl
  | _ => trivial

theorem stops_behindCommas {α : Type} (tokens : α → List Token) (more : List (Nat × α))
    {rest : List Token}
    (hrest : Begins rest) : Stops (behindCommas tokens more ++ rest) := by
  cases more with
  | nil => exact hrest.stops
  | cons m more =>
      rw [behindCommas_cons_append]
      exact stops_comma _ _

/-! ## Reading parts of statements -/

namespace Parse

variable {α β : Type} {file : String} {ts rest : List Token} {line : Nat}

theorem reads_peek : Reads peek file ts (front ts) ts := ⟨.all ts, rfl, rfl⟩

theorem reads_peekSecond : Reads peekSecond file ts (front ts.tail) ts := ⟨.all ts, rfl, rfl⟩

theorem reads_here : Reads here file ts (placeOf file ts) ts := ⟨.all ts, rfl, rfl⟩

theorem reads_next (l : Lexeme) : Reads next file (⟨l, line⟩ :: ts) () ts :=
  ⟨.afterFirst _, rfl, rfl⟩

theorem reads_if_pos {c : Prop} [Decidable c] {p q : Parse α} {a : α} (hc : c)
    (h : Reads p file ts a rest) : Reads (if c then p else q : Parse α) file ts a rest := by
  rwa [if_pos hc]

theorem reads_if_neg {c : Prop} [Decidable c] {p q : Parse α} {a : α} (hc : ¬c)
    (h : Reads q file ts a rest) : Reads (if c then p else q : Parse α) file ts a rest := by
  rwa [if_neg hc]

theorem reads_accept_not {l : Lexeme} (h : front ts ≠ l) : Reads (accept l) file ts false ts := by
  refine Reads.bind reads_peek ?_
  rw [if_neg h]
  exact .pure false

theorem reads_identifier (n : WrittenName) : Reads identifier file (n.token :: ts) n.name ts :=
  Reads.bind reads_peek (Reads.bind (reads_next _) (.pure _))

/-- Things that each have a comma before them are read to the last. -/
theorem reads_behindCommas {item : Parse α} {tokens : β → List Token} (value : β → α)
    {more : List (Nat × β)} (hrest : Begins rest)
    (hitem : ∀ m ∈ more, ∀ ts, Stops ts → Reads item file (tokens m.2 ++ ts) (value m.2) ts) :
    Reads (afterCommas item) file (behindCommas tokens more ++ rest) (more.map fun m => value m.2)
      rest := by
  induction more with
  | nil =>
      refine ⟨.all rest, ?_, rfl⟩
      show afterCommas item file rest = _
      rw [afterCommas]
      · rfl
      · intro line more heq
        exact hrest.front_ne (.inl rfl) (by rw [heq]; rfl)
  | cons m more ih =>
      obtain ⟨hm, hmore⟩ := List.forall_mem_cons.mp hitem
      have hstops := stops_behindCommas tokens more hrest
      rw [behindCommas_cons_append]
      obtain ⟨⟨_, hle⟩, hfirst, rfl⟩ := hm _ hstops
      obtain ⟨⟨last, hle'⟩, hlast, hval⟩ := ih hmore
      refine ⟨⟨last, Nat.le_succ_of_le (Nat.le_trans hle' hle)⟩, ?_, hval⟩
      rw [afterCommas]
      simp only [hfirst, hlast]
      rfl

end Parse

namespace Statement

variable {file : String} {ts rest : List Token} {line : Nat}

theorem reads_startsNext (h : Begins ts) : Reads startsNext file ts true ts := by
  unfold Begins at h
  refine Reads.bind reads_peek ?_
  cases hfront : front ts with
  | mnemonic | label | directive | endOfFile => exact .pure true
  | word | pc =>
      rw [hfront] at h
      have hsecond : decide (front ts.tail = .assign) = true := decide_eq_true h
      exact Reads.bind reads_peekSecond (hsecond ▸ .pure _)
  | _ =>
      rw [hfront] at h
      cases h

/-- Where an expression is, no statement begins. -/
theorem reads_startsNext_not {x : Term} (hrest : front rest ≠ .assign) :
    Reads startsNext file (x.tokens ++ rest) false (x.tokens ++ rest) := by
  refine Reads.bind reads_peek ?_
  have hsecond := fun hword => decide_eq_false (x.front_tail_tokens hrest hword)
  have hhead := x.head_starts
  rw [x.front_tokens]
  cases hx : x.head with
  | word name => exact Reads.bind reads_peekSecond (hsecond (.inl ⟨name, hx⟩) ▸ .pure _)
  | pc => exact Reads.bind reads_peekSecond (hsecond (.inr hx) ▸ .pure _)
  | number | operator | openParen => exact .pure false
  | _ =>
      rw [hx] at hhead
      cases hhead

/-! ## Reading operands -/

theorem reads_indirectOperand {x : Term} (hx : x.fits 0 = true) (closes : Nat)
    (hrest : front rest ≠ .comma) :
    Reads indirectOperand file (x.tokens ++ ⟨.closeParen, closes⟩ :: rest)
      { form := .indirect, expr := (x.expr file).actions } rest := by
  refine (x.reads_expression hx (stops_closeParen _ _)).bind ?_
  refine (reads_accept_not (by exact nofun)).bind ?_
  exact (reads_expect _ _).bind ((reads_accept_not hrest).bind (.pure _))

theorem reads_indirectX {x : Term} (hx : x.fits 0 = true) (comma register closes : Nat) :
    Reads indirectOperand file
      (x.tokens ++ ⟨.comma, comma⟩ :: ⟨.word "X", register⟩ :: ⟨.closeParen, closes⟩ :: rest)
      { form := .indirectX, expr := (x.expr file).actions } rest := by
  refine (x.reads_expression hx (stops_comma _ _)).bind ?_
  exact (reads_accept _).bind ((reads_expect _ _).bind ((reads_expect _ _).bind (.pure _)))

theorem reads_indirectY {x : Term} (hx : x.fits 0 = true) (closes comma register : Nat) :
    Reads indirectOperand file
      (x.tokens ++ ⟨.closeParen, closes⟩ :: ⟨.comma, comma⟩ :: ⟨.word "Y", register⟩ :: rest)
      { form := .indirectY, expr := (x.expr file).actions } rest := by
  refine (x.reads_expression hx (stops_closeParen _ _)).bind ?_
  refine (reads_accept_not (by exact nofun)).bind ?_
  exact (reads_expect _ _).bind ((reads_accept _).bind ((reads_expect _ _).bind (.pure _)))

theorem reads_directOperand {x : Term} (hx : x.fits 0 = true) (hstops : Stops rest)
    (hrest : front rest ≠ .comma) :
    Reads directOperand file (x.tokens ++ rest)
      { form := .direct, expr := (x.expr file).actions } rest :=
  (x.reads_expression hx hstops).bind ((reads_accept_not hrest).bind (.pure _))

theorem reads_directX {x : Term} (hx : x.fits 0 = true) (comma register : Nat) :
    Reads directOperand file (x.tokens ++ ⟨.comma, comma⟩ :: ⟨.word "X", register⟩ :: rest)
      { form := .direct, index := .x, expr := (x.expr file).actions } rest := by
  refine (x.reads_expression hx (stops_comma _ _)).bind ?_
  exact (reads_accept _).bind ((reads_accept _).bind (.pure _))

theorem reads_directY {x : Term} (hx : x.fits 0 = true) (comma register : Nat) :
    Reads directOperand file (x.tokens ++ ⟨.comma, comma⟩ :: ⟨.word "Y", register⟩ :: rest)
      { form := .direct, index := .y, expr := (x.expr file).actions } rest := by
  refine (x.reads_expression hx (stops_comma _ _)).bind ?_
  refine (reads_accept _).bind ((reads_accept_not ?_).bind ((reads_accept _).bind (.pure _)))
  show Lexeme.word "Y" ≠ Lexeme.word "X"
  decide

/-- An expression is the operand of an instruction that is no branch, unless
it looks like another operand. -/
theorem reads_operand_of_direct {m : Mnemonic} {x : Term} {o : Operand} {ts : List Token}
    (hbranch : m.isBranch = false)
    (hclear : (x.head != .openParen && !(x.head == .word "A" && m.has .implied)) = true)
    (hassign : front ts ≠ .assign) (hx : Reads directOperand file (x.tokens ++ ts) o rest) :
    Reads (operand m) file (x.tokens ++ ts) o rest := by
  simp only [Bool.and_eq_true, bne_iff_ne, ne_eq, Bool.not_eq_true'] at hclear
  have hacc : ¬(m.has .implied && decide (front (x.tokens ++ ts) = .word "A")) = true := by
    rw [x.front_tokens]
    rw [Bool.and_comm]
    simpa [beq_eq_decide] using hclear.2
  refine (reads_accept_not x.front_ne_immediate).bind (reads_if_neg Bool.false_ne_true ?_)
  refine reads_if_neg (by rw [hbranch]; exact Bool.false_ne_true) ?_
  refine (reads_startsNext_not hassign).bind (reads_if_neg Bool.false_ne_true ?_)
  refine Reads.bind reads_peek (reads_if_neg hacc ?_)
  refine (reads_accept_not ?_).bind hx
  rw [x.front_tokens]
  exact hclear.1

/-- An operand in parentheses belongs to an instruction that is no branch. -/
theorem reads_operand_of_indirect {m : Mnemonic} {o : Operand} {ts : List Token}
    (hbranch : m.isBranch = false) (hx : Reads indirectOperand file ts o rest) :
    Reads (operand m) file (⟨.openParen, line⟩ :: ts) o rest := by
  have hnext : Reads startsNext file (⟨.openParen, line⟩ :: ts) false (⟨.openParen, line⟩ :: ts) :=
    Reads.bind reads_peek (.pure false)
  have hacc : ¬(m.has .implied && decide (Lexeme.openParen = .word "A")) = true := by simp
  have himmediate : front (⟨.openParen, line⟩ :: ts) ≠ .immediate := by exact nofun
  refine (reads_accept_not himmediate).bind (reads_if_neg Bool.false_ne_true ?_)
  refine reads_if_neg (by rw [hbranch]; exact Bool.false_ne_true) ?_
  refine hnext.bind (reads_if_neg Bool.false_ne_true ?_)
  exact Reads.bind reads_peek (reads_if_neg hacc ((reads_accept _).bind hx))

/-- An operand is read as one of its own form. -/
theorem reads_operand {m : Mnemonic} {o : OperandPhrase} (hfits : o.fits m = true)
    (hclear : o.isClear m = true) (hbranch : (o.isDestination || !m.isBranch) = true)
    (hrest : Begins rest) :
    Reads (operand m) file (o.tokens ++ rest) (o.operand file) rest := by
  have hcomma : front rest ≠ .comma := hrest.front_ne (.inl rfl)
  have hassign : front rest ≠ .assign := hrest.front_ne (.inr (.inl rfl))
  simp only [OperandPhrase.fits, Bool.and_eq_true] at hfits
  obtain ⟨hterm, hform⟩ := hfits
  have hno : o.isDestination = false → m.isBranch = false := by
    intro hdest
    rw [hdest, Bool.false_or, Bool.not_eq_true'] at hbranch
    exact hbranch
  -- without a destination only what follows can decide that the operand is over
  cases o with
  | none =>
      have himmediate : front rest ≠ .immediate := hrest.front_ne (.inr (.inr rfl))
      refine (reads_accept_not himmediate).bind (reads_if_neg Bool.false_ne_true ?_)
      refine reads_if_neg (by rw [hno rfl]; exact Bool.false_ne_true) ?_
      exact (reads_startsNext hrest).bind (.pure _)
  | accumulator line =>
      have hnext : Reads startsNext file (⟨.word "A", line⟩ :: rest) false
          (⟨.word "A", line⟩ :: rest) :=
        reads_startsNext_not (x := .symbol line "A") hassign
      have hacc : (m.has .implied && decide (Lexeme.word "A" = .word "A")) = true := by
        simpa using hform
      have himmediate : front (⟨.word "A", line⟩ :: rest) ≠ .immediate := by exact nofun
      refine (reads_accept_not himmediate).bind (reads_if_neg Bool.false_ne_true ?_)
      refine reads_if_neg (by rw [hno rfl]; exact Bool.false_ne_true) ?_
      refine hnext.bind (reads_if_neg Bool.false_ne_true ?_)
      exact Reads.bind reads_peek (reads_if_pos hacc ((reads_next _).bind (.pure _)))
  | immediate line x =>
      exact (reads_accept _).bind ((x.reads_expression hterm hrest.stops).bind (.pure _))
  | direct x =>
      cases hb : m.isBranch with
      | false =>
          rw [OperandPhrase.isClear, hb, Bool.or_false] at hclear
          exact reads_operand_of_direct hb hclear hassign (reads_directOperand hterm hrest.stops hcomma)
      | true =>
          refine (reads_accept_not x.front_ne_immediate).bind (reads_if_neg Bool.false_ne_true ?_)
          exact reads_if_pos hb ((x.reads_expression hterm hrest.stops).bind (.pure _))
  | directX x comma register =>
      rw [OperandPhrase.isClear, hno rfl, Bool.or_false] at hclear
      rw [OperandPhrase.tokens, List.append_assoc]
      exact reads_operand_of_direct (hno rfl) hclear nofun (reads_directX hterm comma register)
  | directY x comma register =>
      rw [OperandPhrase.isClear, hno rfl, Bool.or_false] at hclear
      rw [OperandPhrase.tokens, List.append_assoc]
      exact reads_operand_of_direct (hno rfl) hclear nofun (reads_directY hterm comma register)
  | indirect opens x closes =>
      rw [OperandPhrase.tokens, List.cons_append, List.append_assoc]
      exact reads_operand_of_indirect (hno rfl) (reads_indirectOperand hterm closes hcomma)
  | indirectX opens x comma register closes =>
      rw [OperandPhrase.tokens, List.cons_append, List.append_assoc]
      exact reads_operand_of_indirect (hno rfl) (reads_indirectX hterm comma register closes)
  | indirectY opens x closes comma register =>
      rw [OperandPhrase.tokens, List.cons_append, List.append_assoc]
      exact reads_operand_of_indirect (hno rfl) (reads_indirectY hterm closes comma register)

/-! ## Reading the rest of directives -/

theorem reads_dataItem (word : Bool) (file : String) {i : Item} (hi : i.fits = true) (hrest : Stops rest) :
    Reads (dataItem word) file (i.tokens ++ rest) (i.line file word) rest := by
  cases i with
  | text s => exact Reads.bind reads_here (Reads.bind reads_peek (Reads.bind (reads_next _) (.pure _)))
  | value x =>
      refine Reads.bind reads_here (Reads.bind reads_peek ?_)
      rw [Item.tokens, x.placeOf_tokens, x.front_tokens]
      have hread : Reads (do pure ⟨⟨file, x.line⟩, .data word (← expression)⟩ : Parse Line) file
          (x.tokens ++ rest) ⟨⟨file, x.line⟩, .data word (x.expr file).actions⟩ rest :=
        (x.reads_expression hi hrest).bind (.pure _)
      have hhead := x.head_starts
      cases hx : x.head with
      | string text bytes =>
          rw [hx] at hhead
          cases hhead
      | _ => exact hread

theorem reads_messageArg {i : Item} (hi : i.fits = true) (hrest : Stops rest) :
    Reads messageArg file (i.tokens ++ rest) (i.argument file) rest := by
  cases i with
  | text s => exact Reads.bind reads_peek (Reads.bind (reads_next _) (.pure _))
  | value x =>
      refine Reads.bind reads_peek ?_
      rw [Item.tokens, x.front_tokens]
      have hread : Reads (do pure (.expr (← expression)) : Parse MessageArg) file
          (x.tokens ++ rest) (.expr (x.expr file).actions) rest :=
        (x.reads_expression hi hrest).bind (.pure _)
      have hhead := x.head_starts
      cases hx : x.head with
      | string text bytes =>
          rw [hx] at hhead
          cases hhead
      | _ => exact hread

theorem reads_parameter {loc : Location} {n : WrittenName} (hn : (!isLocalName n.name) = true) :
    Reads (parameter loc) file (n.token :: ts) n.name ts :=
  (reads_identifier n).bind (reads_if_neg (by simpa using hn) (.pure _))

theorem reads_macroAfter {loc : Location} (name : WrittenName) {params : List (Nat × WrittenName)}
    (hparams : (params.all fun m => !isLocalName m.2.name) = true) (hrest : Begins rest) :
    Reads (macroAfter loc) file
      (name.token :: (behindCommas (fun n => [n.token]) params ++ rest))
      (.openMacro name.name (params.map fun m => m.2.name)) rest := by
  have hall := List.all_eq_true.mp hparams
  refine (reads_identifier name).bind
    (Reads.bind (reads_behindCommas WrittenName.name hrest ?_) (.pure _))
  exact fun m hm ts _ => reads_parameter (hall m hm)

theorem reads_callAfter (name : WrittenName) {args : List (Nat × Term)}
    (hargs : (args.all (·.2.fits 0)) = true) (hrest : Begins rest) :
    Reads callAfter file (name.token :: (behindCommas Term.tokens args ++ rest))
      (.call name.name (args.map fun m => (m.2.expr file).actions)) rest := by
  have hall := List.all_eq_true.mp hargs
  refine (reads_identifier name).bind
    (Reads.bind (reads_behindCommas (fun x => (Term.expr file x).actions) hrest ?_) (.pure _))
  exact fun m hm ts hts => m.2.reads_expression (hall m hm) hts

theorem reads_messageAfter (file : String) (loc : Location) (level : Level) (formatted : Bool)
    {first : Item} {more : List (Nat × Item)} (hfits : (first.fits && more.all (·.2.fits)) = true)
    (hrest : Begins rest) :
    Reads (messageAfter loc level formatted) file
      (first.tokens ++ (behindCommas Item.tokens more ++ rest))
      (.message level formatted (first.argument file :: more.map fun m => m.2.argument file))
      rest := by
  obtain ⟨hfirst, hmore⟩ := Bool.and_eq_true_iff.mp hfits
  have hall := List.all_eq_true.mp hmore
  have hends : ¬endsMessage (front (first.tokens ++ (behindCommas Item.tokens more ++ rest))) = true := by
    cases first with
    | text s => exact Bool.false_ne_true
    | value x =>
        have hhead := x.head_starts
        rw [Item.tokens, x.front_tokens]
        cases hx : x.head <;> rw [hx] at hhead <;> cases hhead <;> exact Bool.false_ne_true
  refine Reads.bind reads_peek (reads_if_neg hends ?_)
  refine (reads_messageArg hfirst (stops_behindCommas _ more hrest)).bind ?_
  refine Reads.bind (reads_behindCommas (Item.argument file) hrest ?_) (.pure _)
  exact fun m hm ts hts => reads_messageArg (hall m hm) hts

theorem reads_binaryAfter {loc : Location} (name : WrittenString) {part : WrittenPart}
    (hpart : part.fits = true) (hrest : Begins rest) :
    Reads (binaryAfter loc) file (name.token :: (part.tokens ++ rest))
      (part.statement file loc name.text) rest := by
  have hcomma : front rest ≠ .comma := hrest.front_ne (.inl rfl)
  refine (reads_quoted _ _).bind ?_
  cases part with
  | whole => exact (reads_accept_not hcomma).bind (.pure _)
  | skipping comma skip =>
      refine (reads_accept _).bind ((skip.reads_expression hpart hrest.stops).bind ?_)
      exact (reads_accept_not hcomma).bind (.pure _)
  | between comma skip comma' length =>
      obtain ⟨hskip, hlength⟩ := Bool.and_eq_true_iff.mp hpart
      rw [WrittenPart.tokens, List.cons_append, List.append_assoc]
      refine (reads_accept _).bind ((skip.reads_expression hskip (stops_comma _ _)).bind ?_)
      exact (reads_accept _).bind ((length.reads_expression hlength hrest.stops).bind (.pure _))

end Statement

end Mos6510
