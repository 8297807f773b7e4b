import Mos6510.Proofs.Parsing

/-!
# Written expressions

A term is an expression as it is written, with its parentheses and the line of
each token.  It is read back wherever no operator follows (`Term.reads`):
parentheses make up for what the priorities of operators would read otherwise,
and operators of one priority are read from left to right.
-/

namespace Mos6510

open Parse

/-! ## Signs -/

/-- The sign of a prefix operator. -/
def UnaryOp.sign : UnaryOp → Sign
  | logicalNot => .bang
  | complement => .tilde
  | negate => .minus
  | lowByte => .less
  | highByte => .greater

/-- The sign of an infix operator. -/
def BinaryOp.sign : BinaryOp → Sign
  | add => .plus
  | sub => .minus
  | mul => .times
  | div => .slash
  | and => .ampersand
  | or => .bar
  | xor => .caret
  | shiftLeft => .shiftLeft
  | shiftRight => .shiftRight
  | eq => .equal
  | ne => .unequal
  | lt => .less
  | le => .lessEqual
  | gt => .greater
  | ge => .greaterEqual

@[simp] theorem UnaryOp.unary?_sign (op : UnaryOp) : op.sign.unary? = some op := by
  cases op <;> rfl

@[simp] theorem BinaryOp.binary?_sign (op : BinaryOp) : op.sign.binary? = some op := by
  cases op <;> rfl

theorem BinaryOp.priority_lt (op : BinaryOp) : op.priority < UnaryOp.priority := by
  cases op <;> decide

/-! ## Terms -/

/-- An expression as it is written. -/
inductive Term where
  | number (line : Nat) (text : String) (value : Int64)
  | symbol (line : Nat) (name : String)
  | pc (line : Nat)
  /-- An expression in parentheses. -/
  | group (opens : Nat) (inner : Term) (closes : Nat)
  | unary (line : Nat) (op : UnaryOp) (x : Term)
  | binary (x : Term) (line : Nat) (op : BinaryOp) (y : Term)
  deriving DecidableEq, Repr

namespace Term

def tokens : Term → List Token
  | number line text value => [⟨.number text value, line⟩]
  | symbol line name => [⟨.word name, line⟩]
  | pc line => [⟨.pc, line⟩]
  | group opens inner closes => ⟨.openParen, opens⟩ :: (inner.tokens ++ [⟨.closeParen, closes⟩])
  | unary line op x => ⟨.operator op.sign, line⟩ :: x.tokens
  | binary x line op y => x.tokens ++ ⟨.operator op.sign, line⟩ :: y.tokens

/-- The expression that a term of a file stands for. -/
def expr (file : String) : Term → Expr
  | number line _ value => .number ⟨file, line⟩ value
  | symbol line name => .symbol ⟨file, line⟩ name
  | pc line => .symbol ⟨file, line⟩ pcName
  | group _ inner _ => inner.expr file
  | unary line op x => .unary ⟨file, line⟩ op (x.expr file)
  | binary x line op y => .binary ⟨file, line⟩ op (x.expr file) (y.expr file)

/-- Do all operators outside of parentheses bind at least as tight as asked,
and each tighter than those that it is an operand of?  An operator may be the
left operand of one of its own priority, but not the right one. -/
def fits : Nat → Term → Bool
  | _, number _ _ _ => true
  | _, symbol _ _ => true
  | _, pc _ => true
  | _, group _ inner _ => inner.fits 0
  | _, unary _ _ x => x.fits UnaryOp.priority
  | prio, binary x _ op y =>
    prio ≤ op.priority && x.fits op.priority && y.fits (op.priority + 1)

/-- The lexeme that a term begins with. -/
def head : Term → Lexeme
  | number _ text value => .number text value
  | symbol _ name => .word name
  | pc _ => .pc
  | group _ _ _ => .openParen
  | unary _ op _ => .operator op.sign
  | binary x _ _ _ => x.head

theorem front_tokens (x : Term) (rest : List Token) : front (x.tokens ++ rest) = x.head := by
  induction x generalizing rest with
  | binary x line op y ihx _ =>
      rw [tokens, List.append_assoc]
      exact ihx _
  | _ => rfl

/-- Where a term stands alone, or before an operator, no assignment begins. -/
theorem front_tail_tokens (x : Term) {rest : List Token} (h : front rest ≠ .assign)
    (hword : (∃ name, x.head = .word name) ∨ x.head = .pc) :
    front (x.tokens ++ rest).tail ≠ .assign := by
  induction x generalizing rest with
  | symbol | pc => exact h
  | binary x line op y ihx _ =>
      rw [tokens, List.append_assoc]
      exact ihx nofun hword
  | number | group | unary =>
      rcases hword with ⟨_, hword⟩ | hword <;> cases hword

end Term

/-! ## Reading terms -/

/-- No operator is in front, so that an expression ends here. -/
def Stops (ts : List Token) : Prop := ∀ sign, front ts ≠ .operator sign

namespace Expr

variable {file : String} {ts rest last : List Token} {line : Nat} {prio : Nat} {z : Expr}

theorem nextOperator?_of_stops (h : Stops ts) (prio : Nat) : nextOperator? prio ts = none := by
  unfold nextOperator?
  split
  · exact absurd rfl (h _)
  · rfl

theorem nextOperator?_sign (op : BinaryOp) :
    nextOperator? prio (⟨.operator op.sign, line⟩ :: ts) =
      if prio ≤ op.priority then some op else none := by
  simp [nextOperator?]

/-- What asks for tighter operators finds none where there is none already. -/
theorem nextOperator?_mono {p q : Nat} (hpq : p ≤ q) (h : nextOperator? p ts = none) :
    nextOperator? q ts = none := by
  unfold nextOperator? at h ⊢
  split
  · rename_i sign _ _
    cases hop : sign.binary? with
    | none => rfl
    | some op =>
        simp only [hop, ite_eq_right_iff, reduceCtorEq, imp_false] at h ⊢
        omega
  · rfl

theorem reads_word (name : String) :
    Reads operand file (⟨.word name, line⟩ :: ts) (.symbol ⟨file, line⟩ name) ts := by
  refine ⟨.afterFirst _, ?_, rfl⟩
  rw [operand]

theorem reads_unary {op : UnaryOp} {x : Expr} (hx : Reads operand file ts x rest) :
    Reads operand file (⟨.operator op.sign, line⟩ :: ts) (.unary ⟨file, line⟩ op x) rest := by
  obtain ⟨⟨_, hle⟩, hx, rfl⟩ := hx
  refine ⟨⟨_, Nat.le_succ_of_le hle⟩, ?_, rfl⟩
  rw [operand]
  simp only [UnaryOp.unary?_sign, hx]
  rfl

end Expr

namespace Term

open Mos6510.Expr

variable {file : String}

/-- A term that is an operand by itself is read as one; any other is read, and
then the operators that follow it. -/
theorem reads_both (file : String) (x : Term) :
    (x.fits UnaryOp.priority = true → ∀ rest,
        Reads operand file (x.tokens ++ rest) (x.expr file) rest) ∧
      ∀ p q rest last z, p ≤ q → x.fits q = true → nextOperator? (q + 1) rest = none →
        Reads (extend p (x.expr file)) file rest z last →
        Reads (climb p) file (x.tokens ++ rest) z last := by
  have hsingle : ∀ x : Term, (∀ rest, Reads operand file (x.tokens ++ rest) (x.expr file) rest) →
      ∀ p rest last z, Reads (extend p (x.expr file)) file rest z last →
        Reads (climb p) file (x.tokens ++ rest) z last :=
    fun _ hx p rest last z hz => reads_climb (hx rest) hz
  induction x with
  | number line text value =>
      have hx : ∀ rest, Reads operand file (⟨.number text value, line⟩ :: rest)
          (.number ⟨file, line⟩ value) rest := fun _ => reads_number text value
      exact ⟨fun _ => hx, fun p _ rest last z _ _ _ => hsingle (.number line text value) hx p rest last z⟩
  | symbol line name =>
      have hx : ∀ rest, Reads operand file (⟨.word name, line⟩ :: rest) (.symbol ⟨file, line⟩ name)
          rest := fun _ => reads_word name
      exact ⟨fun _ => hx, fun p _ rest last z _ _ _ => hsingle (.symbol line name) hx p rest last z⟩
  | pc line =>
      have hx : ∀ rest, Reads operand file (⟨.pc, line⟩ :: rest) (.symbol ⟨file, line⟩ pcName)
          rest := fun _ => reads_pc
      exact ⟨fun _ => hx, fun p _ rest last z _ _ _ => hsingle (.pc line) hx p rest last z⟩
  | group opens inner closes ih =>
      have hx : inner.fits 0 = true → ∀ rest,
          Reads operand file ((group opens inner closes).tokens ++ rest) (inner.expr file) rest := by
        intro hfits rest
        rw [tokens, List.cons_append, List.append_assoc]
        exact reads_paren (ih.2 0 0 _ _ _ (Nat.le_refl _) hfits rfl (reads_extend_none rfl))
      exact ⟨hx, fun p _ rest last z _ hfits _ => hsingle _ (hx hfits) p rest last z⟩
  | unary line op x ih =>
      have hx : x.fits UnaryOp.priority = true → ∀ rest,
          Reads operand file ((unary line op x).tokens ++ rest) ((unary line op x).expr file) rest :=
        fun hfits rest => reads_unary (ih.1 hfits rest)
      exact ⟨hx, fun p _ rest last z _ hfits _ => hsingle _ (hx hfits) p rest last z⟩
  | binary x line op y ihx ihy =>
      refine ⟨fun hfits => ?_, fun p q rest last z hpq hfits hrest hz => ?_⟩
      · have := op.priority_lt
        simp only [fits, Bool.and_eq_true, decide_eq_true_eq] at hfits
        omega
      · simp only [fits, Bool.and_eq_true, decide_eq_true_eq] at hfits
        obtain ⟨⟨hq, hx⟩, hy⟩ := hfits
        rw [tokens, List.append_assoc, List.cons_append]
        have hnext : nextOperator? p (⟨.operator op.sign, line⟩ :: (y.tokens ++ rest)) = some op := by
          rw [nextOperator?_sign, if_pos (Nat.le_trans hpq hq)]
        -- the right operand ends where the whole term does
        have hright : Reads (climb (op.priority + 1)) file (y.tokens ++ rest) (y.expr file) rest :=
          ihy.2 _ _ _ _ _ (Nat.le_refl _) hy (nextOperator?_mono (by omega) hrest)
            (reads_extend_none (nextOperator?_mono (by omega) hrest))
        refine ihx.2 p op.priority _ _ _ (Nat.le_trans hpq hq) hx ?_ (reads_extend hnext hright hz)
        rw [nextOperator?_sign, if_neg (by omega)]

/-- A term is read back where no operator follows. -/
theorem reads {x : Term} {rest : List Token} (hx : x.fits 0 = true) (hrest : Stops rest) :
    Reads (climb 0) file (x.tokens ++ rest) (x.expr file) rest :=
  (x.reads_both file).2 0 0 rest rest _ (Nat.le_refl _) hx (nextOperator?_of_stops hrest _)
    (reads_extend_none (nextOperator?_of_stops hrest _))

theorem reads_expression {x : Term} {rest : List Token} (hx : x.fits 0 = true)
    (hrest : Stops rest) :
    Reads expression file (x.tokens ++ rest) (x.expr file).actions rest :=
  Reads.bind (reads hx hrest) (.pure _)

end Term

end Mos6510
