import Mathlib.Logic.Relation
import Mos6510.Proofs.Pieces
import Mos6510.Proofs.Seams
import Mos6510.Source

/-!
# Reading makes progress

A step over source text takes a glyph or more (`Lexer.step_advances`), and never more than
there are (`Lexer.step_takes`), and the text behind it is what is left.  A
parser takes tokens from inside of a statement only, so that it never takes the end of
the file, and what it takes depends on what it takes and on two tokens after that.

`Parse.Takes k p` says so of the parser `p`, which takes at least `k` tokens; there is
one such lemma for each parser.  From them comes `reading_advances`: on whatever bytes,
and on whatever tokens that end with an end of file, no loop over them stands still or
goes past the last of them.
-/

namespace Mos6510

open Text (Glyph)

/-! ## Tokens inside of a statement -/

/-- Does the lexeme neither start a directive nor end the file?  Nothing else can go on
with a statement. -/
def Lexeme.isInside : Lexeme → Bool
  | .directive _ => false
  | .endOfFile => false
  | _ => true

/-- Tokens that look the same to a parser in front of them: the first is the same, and
where it goes on with a statement, so is the second. -/
def SameFront (ts ts' : List Token) : Prop :=
  ts'.head? = ts.head? ∧ ((Parse.front ts).isInside = true → ts'.tail.head? = ts.tail.head?)

namespace SameFront

variable {ts ts' : List Token}

theorem append (h : SameFront ts ts') (taken : List Token) :
    SameFront (taken ++ ts) (taken ++ ts') := by
  match taken with
  | [] => exact h
  | [t] => exact ⟨rfl, fun _ => h.1⟩
  | t :: t' :: taken => exact ⟨rfl, fun _ => rfl⟩

theorem front_eq (h : SameFront ts ts') : Parse.front ts' = Parse.front ts := by
  obtain ⟨hhead, -⟩ := h
  cases ts <;> cases ts' <;> cases hhead <;> rfl

theorem placeOf_eq (h : SameFront ts ts') (file : String) :
    Parse.placeOf file ts' = Parse.placeOf file ts := by
  obtain ⟨hhead, -⟩ := h
  cases ts <;> cases ts' <;> cases hhead <;> rfl

theorem front_tail_eq (h : SameFront ts ts') (hfront : (Parse.front ts).isInside = true) :
    Parse.front ts'.tail = Parse.front ts.tail := by
  have hhead := h.2 hfront
  generalize ts.tail = rest at hhead ⊢
  generalize ts'.tail = rest' at hhead ⊢
  cases rest <;> cases rest' <;> cases hhead <;> rfl

end SameFront

/-- A token in front that goes on with a statement is there. -/
theorem exists_cons_of_isInside {ts : List Token} (h : (Parse.front ts).isInside = true) :
    ∃ t rest, ts = t :: rest ∧ t.lexeme.isInside = true := by
  cases ts with
  | nil => cases h
  | cons t rest => exact ⟨t, rest, rfl, h⟩

/-! ## What a parser takes -/

namespace Parse

variable {α β : Type} {k : Nat} {file : String} {ts rest : List Token}

/-- If the parser reads these tokens, then it takes at least `k` of them, all from inside
of a statement, and it takes the same whatever comes behind, up to what is in front. -/
def TakesAt (k : Nat) (p : (file : String) → (ts : List Token) → Except Error (α × Tail ts))
    (file : String) (ts : List Token) : Prop :=
  ∀ ⦃a rest⦄, Reads p file ts a rest → ∃ taken, ts = taken ++ rest ∧ k ≤ taken.length ∧
    (∀ t ∈ taken, t.lexeme.isInside = true) ∧
      ∀ rest', SameFront rest rest' → Reads p file (taken ++ rest') a rest'

/-- The parser takes at least `k` of whatever tokens it reads. -/
def Takes (k : Nat) (p : (file : String) → (ts : List Token) → Except Error (α × Tail ts)) : Prop :=
  ∀ file ts, TakesAt k p file ts

theorem TakesAt.mono {p : (file : String) → (ts : List Token) → Except Error (α × Tail ts)} {j : Nat}
    (h : TakesAt k p file ts) (hle : j ≤ k) : TakesAt j p file ts := by
  intro a rest hread
  obtain ⟨taken, hts, hlength, hinside, hsame⟩ := h hread
  exact ⟨taken, hts, Nat.le_trans hle hlength, hinside, hsame⟩

theorem Takes.zero {p : (file : String) → (ts : List Token) → Except Error (α × Tail ts)}
    (h : Takes k p) : Takes 0 p := fun file ts => (h file ts).mono (Nat.zero_le k)

theorem TakesAt.pure {a : α} : TakesAt 0 (Pure.pure a : Parse α) file ts := by
  intro b rest hread
  obtain ⟨rfl, rfl⟩ := (Reads.pure a).unique hread
  exact ⟨[], rfl, Nat.le_refl 0, fun _ h => absurd h List.not_mem_nil, fun _ _ => .pure a⟩

theorem TakesAt.fail {err : Error} : TakesAt k (Parse.fail err : Parse α) file ts := by
  rintro a rest ⟨_, h, -⟩
  cases h

theorem TakesAt.failAt {loc : Location} {err : Error} :
    TakesAt k (Parse.failAt loc err : Parse α) file ts := by
  rintro a rest ⟨_, h, -⟩
  cases h

theorem TakesAt.ite {c : Prop} [Decidable c] {p q : Parse α} (hp : c → TakesAt k p file ts)
    (hq : ¬c → TakesAt k q file ts) : TakesAt k (if c then p else q : Parse α) file ts := by
  split
  · exact hp ‹_›
  · exact hq ‹_›

theorem TakesAt.bind {p : Parse α} {f : α → Parse β} (hp : TakesAt k p file ts)
    (hf : ∀ a rest, TakesAt 0 (f a) file rest) : TakesAt k (p >>= f) file ts := by
  intro b last hread
  obtain ⟨a, rest, ha, hb⟩ := hread.of_bind
  obtain ⟨taken, rfl, hlength, hinside, hsame⟩ := hp ha
  obtain ⟨taken', rfl, -, hinside', hsame'⟩ := hf a _ hb
  refine ⟨taken ++ taken', (List.append_assoc ..).symm, ?_, ?_, fun rest' hrest => ?_⟩
  · rw [List.length_append]
    omega
  · exact List.forall_mem_append.mpr ⟨hinside, hinside'⟩
  · rw [List.append_assoc]
    exact (hsame _ (hrest.append taken')).bind (hsame' _ hrest)

theorem Takes.bind {p : Parse α} {f : α → Parse β} (hp : Takes k p) (hf : ∀ a, Takes 0 (f a)) :
    Takes k (p >>= f) := fun file ts => (hp file ts).bind fun a => hf a file

theorem Takes.ite {c : Prop} [Decidable c] {p q : Parse α} (hp : Takes k p) (hq : Takes k q) :
    Takes k (if c then p else q : Parse α) := fun file ts => .ite (fun _ => hp file ts) fun _ => hq file ts

theorem Takes.pure {a : α} : Takes 0 (Pure.pure a : Parse α) := fun _ _ => .pure

/-! ### Looking ahead -/

/-- A parser that takes nothing by itself, and sees the same in front of the same tokens,
comes first. -/
theorem TakesAt.of_look {p : Parse α} {f : α → Parse β} (look : List Token → α)
    (hp : ∀ ts, Reads p file ts (look ts) ts) (hlook : ∀ ts', SameFront ts ts' → look ts' = look ts)
    (hf : TakesAt k (f (look ts)) file ts) : TakesAt k (p >>= f) file ts := by
  intro b last hread
  obtain ⟨a, _, ha, hb⟩ := hread.of_bind
  obtain ⟨rfl, rfl⟩ := (hp ts).unique ha
  obtain ⟨taken, rfl, hlength, hinside, hsame⟩ := hf hb
  refine ⟨taken, rfl, hlength, hinside, fun rest' hrest => ?_⟩
  refine (hp _).bind ?_
  rw [hlook _ (hrest.append taken)]
  exact hsame rest' hrest

theorem TakesAt.peek {f : Lexeme → Parse β} (hf : TakesAt k (f (front ts)) file ts) :
    TakesAt k (Parse.peek >>= f) file ts :=
  .of_look front (fun _ => reads_peek) (fun _ h => h.front_eq) hf

theorem TakesAt.peekSecond {f : Lexeme → Parse β} (hfront : (front ts).isInside = true)
    (hf : TakesAt k (f (front ts.tail)) file ts) : TakesAt k (Parse.peekSecond >>= f) file ts :=
  .of_look (fun ts => front ts.tail) (fun _ => reads_peekSecond)
    (fun _ h => h.front_tail_eq hfront) hf

theorem TakesAt.here {f : Location → Parse β} (hf : TakesAt k (f (placeOf file ts)) file ts) :
    TakesAt k (Parse.here >>= f) file ts :=
  .of_look (placeOf file) (fun _ => reads_here) (fun _ h => h.placeOf_eq file) hf

/-! ### Taking tokens -/

theorem TakesAt.next (hfront : (front ts).isInside = true) : TakesAt 1 Parse.next file ts := by
  intro u rest hread
  obtain ⟨t, ts, rfl, ht⟩ := exists_cons_of_isInside hfront
  obtain ⟨-, rfl⟩ := (reads_next t.lexeme).unique hread
  exact ⟨[t], rfl, Nat.le_refl 1, List.forall_mem_singleton.mpr ht, fun _ _ => reads_next t.lexeme⟩

theorem takes_expect {l : Lexeme} (hl : l.isInside = true) (missing : Error) :
    Takes 1 (expect l missing) := fun _ _ =>
  .peek (.ite (fun hfront => .next (hfront ▸ hl)) fun _ => .fail)

theorem takes_accept {l : Lexeme} (hl : l.isInside = true) : Takes 0 (accept l) := fun _ _ =>
  .peek (.ite (fun hfront => ((TakesAt.next (hfront ▸ hl)).bind fun _ _ => .pure).mono (Nat.zero_le 1))
    fun _ => .pure)

theorem takes_identifier : Takes 1 identifier := by
  intro file ts
  refine .peek ?_
  split
  · rename_i name hfront
    exact (TakesAt.next (by rw [hfront]; rfl)).bind fun _ _ => .pure
  · exact .fail

theorem takes_quoted : Takes 1 quoted := by
  intro file ts
  refine .peek ?_
  split
  · rename_i text bytes hfront
    exact (TakesAt.next (by rw [hfront]; rfl)).bind fun _ _ => .pure
  · exact .fail

/-- Each item after a comma takes what it takes. -/
theorem takes_afterCommas {item : Parse α} (hitem : Takes 0 item) : Takes 0 (afterCommas item) := by
  intro file ts as rest hread
  induction hn : ts.length using Nat.strongRecOn generalizing ts as with
  | ind n ih =>
  rcases reads_afterCommas_iff.mp hread with ⟨hfront, rfl, rfl⟩ |
    ⟨line, more, a, last, as', rfl, ha, has, rfl⟩
  · refine ⟨[], rfl, Nat.le_refl 0, fun _ h => absurd h List.not_mem_nil, fun rest' hrest => ?_⟩
    exact reads_afterCommas_iff.mpr (.inl ⟨hrest.front_eq ▸ hfront, rfl, rfl⟩)
  · have hlt : last.length < n := by
      have hle := ha.length_le
      rw [List.length_cons] at hn
      omega
    obtain ⟨taken, rfl, -, hinside, hsame⟩ := hitem file _ ha
    obtain ⟨taken', rfl, -, hinside', hsame'⟩ := ih _ hlt _ has rfl
    refine ⟨⟨.comma, line⟩ :: (taken ++ taken'), ?_, Nat.zero_le _, ?_, fun rest' hrest => ?_⟩
    · rw [List.cons_append, List.append_assoc]
    · exact List.forall_mem_cons.mpr ⟨rfl, List.forall_mem_append.mpr ⟨hinside, hinside'⟩⟩
    · rw [List.cons_append, List.append_assoc]
      exact reads_afterCommas_iff.mpr (.inr ⟨line, _, a, _, as', rfl, hsame _ (hrest.append taken'),
        hsame' _ hrest, rfl⟩)

end Parse

/-! ## Expressions -/

namespace Expr

open Parse

variable {file : String} {ts rest : List Token}

/-- An operator that binds tight enough is seen in the first token. -/
theorem nextOperator?_head (h : rest.head? = ts.head?) (prio : Nat) :
    nextOperator? prio rest = nextOperator? prio ts := by
  cases ts with
  | nil => rw [List.head?_eq_none_iff.mp h]
  | cons t ts =>
      obtain ⟨more, rfl⟩ := List.head?_eq_some_iff.mp h
      obtain ⟨lexeme, line⟩ := t
      cases lexeme <;> rfl

/-- An operand is behind a prefix operator, in parentheses, or a token by itself. -/
theorem reads_operand_cases {y : Expr} (h : Reads operand file ts y rest) :
    (∃ op line more x, ts = ⟨.operator (UnaryOp.sign op), line⟩ :: more ∧ Reads operand file more x rest ∧
        y = .unary ⟨file, line⟩ op x) ∨
      (∃ line more line', ts = ⟨.openParen, line⟩ :: more ∧
        Reads (climb 0) file more y (⟨.closeParen, line'⟩ :: rest)) ∨
      ∃ t, ts = t :: rest ∧ t.lexeme.isInside = true ∧ ∀ more, Reads operand file (t :: more) y more := by
  obtain ⟨last, h, rfl⟩ := h
  rw [operand.eq_def] at h
  split at h
  · split at h
    · cases h
    · rename_i op hop
      split at h
      · cases h
      · rename_i x last' hx
        cases h
        obtain rfl := Sign.eq_of_unary? hop
        exact .inl ⟨op, _, _, x, rfl, ⟨last', hx, rfl⟩, rfl⟩
  · cases h
    exact .inr (.inr ⟨_, rfl, rfl, fun _ => reads_number _ _⟩)
  · cases h
    exact .inr (.inr ⟨_, rfl, rfl, fun _ => reads_word _⟩)
  · cases h
    exact .inr (.inr ⟨_, rfl, rfl, fun _ => reads_pc⟩)
  · split at h
    · cases h
    · rename_i x closing hx
      split at h
      · cases h
      · rename_i last' hclose
        cases h
        obtain ⟨line', hclosing⟩ := Reads.of_expect ⟨last', hclose, rfl⟩ fun h => by cases h
        exact .inr (.inl ⟨_, _, line', rfl, closing, hx, hclosing⟩)
  · cases h

theorem reads_climb_cases {prio : Nat} {y : Expr} (h : Reads (climb prio) file ts y rest) :
    ∃ x more, Reads operand file ts x more ∧ Reads (extend prio x) file more y rest := by
  obtain ⟨last, h, rfl⟩ := h
  rw [climb.eq_def] at h
  split at h
  · cases h
  · rename_i x more hx
    split at h
    · cases h
    · rename_i y' last' hy
      cases h
      exact ⟨x, more.val, ⟨more, hx, rfl⟩, last', hy, rfl⟩

/-- There is no operator, or one with its right operand and what else there is. -/
theorem reads_extend_cases {prio : Nat} {x z : Expr} (h : Reads (extend prio x) file ts z rest) :
    (nextOperator? prio ts = none ∧ z = x ∧ rest = ts) ∨
      ∃ t more op y after, ts = t :: more ∧ nextOperator? prio ts = some op ∧
        Reads (climb (op.priority + 1)) file more y after ∧
          Reads (extend prio (.binary ⟨file, t.line⟩ op x y)) file after z rest := by
  obtain ⟨last, h, rfl⟩ := h
  rw [extend.eq_def] at h
  split at h
  · rename_i hnone
    cases h
    exact .inl ⟨hnone, rfl, rfl⟩
  · rename_i op hop
    split at h
    · cases hop
    · rename_i t more
      split at h
      · cases h
      · rename_i y after hy
        split at h
        · cases h
        · rename_i z' last' hz
          cases h
          exact .inr ⟨t, more, op, y, after.val, rfl, hop, ⟨after, hy, rfl⟩, last', hz, rfl⟩

/-- What reading tokens up to a size takes. -/
structure TakesExprs (file : String) (size : Nat) : Prop where
  operand : ∀ {ts : List Token}, 2 * ts.length < size → TakesAt 1 operand file ts
  climb : ∀ {prio : Nat} {ts : List Token}, 2 * ts.length + 1 < size → TakesAt 1 (climb prio) file ts
  extend : ∀ {prio : Nat} {x : Expr} {ts : List Token}, 2 * ts.length < size →
    TakesAt 0 (extend prio x) file ts

theorem takesExprs (file : String) (size : Nat) : TakesExprs file size := by
  induction size using Nat.strongRecOn with
  | ind size ih =>
  -- the three readers of expressions call each other on fewer tokens
  constructor
  · intro ts hsize y rest hread
    obtain ⟨op, line, more, x, rfl, hx, rfl⟩ | ⟨line, more, line', rfl, hy⟩ | ⟨t, rfl, ht, hall⟩ :=
      reads_operand_cases hread
    · rw [List.length_cons] at hsize
      obtain ⟨taken, rfl, -, hinside, hsame⟩ := (ih _ hsize).operand (by omega) hx
      exact ⟨_ :: taken, rfl, Nat.succ_le_succ (Nat.zero_le _), List.forall_mem_cons.mpr ⟨rfl, hinside⟩,
        fun rest' hrest => reads_unary (hsame rest' hrest)⟩
    · rw [List.length_cons] at hsize
      obtain ⟨taken, rfl, -, hinside, hsame⟩ := (ih _ hsize).climb (by omega) hy
      refine ⟨⟨.openParen, line⟩ :: (taken ++ [⟨.closeParen, line'⟩]), ?_,
        Nat.succ_le_succ (Nat.zero_le _), ?_, fun rest' hrest => ?_⟩
      · rw [List.cons_append, List.append_assoc]
        rfl
      · exact List.forall_mem_cons.mpr ⟨rfl, List.forall_mem_append.mpr
          ⟨hinside, List.forall_mem_singleton.mpr rfl⟩⟩
      · rw [List.cons_append, List.append_assoc]
        exact reads_paren (hsame _ (hrest.append [⟨.closeParen, line'⟩]))
    · exact ⟨[t], rfl, Nat.le_refl 1, List.forall_mem_singleton.mpr ht, fun rest' _ => hall rest'⟩
  · intro prio ts hsize y rest hread
    obtain ⟨x, more, hx, hy⟩ := reads_climb_cases hread
    -- what an operand leaves is no longer than the tokens it was read from: the bound still holds
    have hle := hx.length_le
    obtain ⟨taken, rfl, hlength, hinside, hsame⟩ := (ih _ hsize).operand (by omega) hx
    obtain ⟨taken', rfl, -, hinside', hsame'⟩ := (ih _ hsize).extend (by omega) hy
    refine ⟨taken ++ taken', (List.append_assoc ..).symm, ?_,
      List.forall_mem_append.mpr ⟨hinside, hinside'⟩, fun rest' hrest => ?_⟩
    · rw [List.length_append]
      omega
    · rw [List.append_assoc]
      exact reads_climb (hsame _ (hrest.append taken')) (hsame' _ hrest)
  · intro prio x ts hsize z rest hread
    obtain ⟨hnone, rfl, rfl⟩ | ⟨t, more, op, y, after, rfl, hop, hy, hz⟩ := reads_extend_cases hread
    · refine ⟨[], rfl, Nat.le_refl 0, fun _ h => absurd h List.not_mem_nil, fun rest' hrest => ?_⟩
      exact reads_extend_none ((nextOperator?_head hrest.1 prio).trans hnone)
    · have hle := hy.length_le
      rw [List.length_cons] at hsize
      obtain ⟨taken, rfl, -, hinside, hsame⟩ := (ih _ hsize).climb (by omega) hy
      obtain ⟨taken', rfl, -, hinside', hsame'⟩ := (ih _ hsize).extend (by omega) hz
      have ht : t.lexeme.isInside = true := by
        obtain ⟨sign, hsign⟩ := front_of_nextOperator? hop
        rw [show t.lexeme = .operator sign from hsign]
        rfl
      refine ⟨t :: (taken ++ taken'), by rw [List.cons_append, List.append_assoc], Nat.zero_le _,
        List.forall_mem_cons.mpr ⟨ht, List.forall_mem_append.mpr ⟨hinside, hinside'⟩⟩,
        fun rest' hrest => ?_⟩
      rw [List.cons_append, List.append_assoc]
      refine reads_extend ?_ (hsame _ (hrest.append taken')) (hsame' _ hrest)
      rw [← hop]
      exact nextOperator?_head (by rfl) prio

theorem takes_operand : Takes 1 operand := fun file ts =>
  (takesExprs file (2 * ts.length + 1)).operand (by omega)

theorem takes_climb (prio : Nat) : Takes 1 (climb prio) := fun file ts =>
  (takesExprs file (2 * ts.length + 2)).climb (by omega)

end Expr

namespace Parse

theorem takes_expression : Takes 1 expression :=
  Takes.bind (p := Expr.parse) (Expr.takes_climb 0) fun _ => .pure

end Parse

/-! ## Statements -/

namespace Statement

open Parse

theorem takes_startsNext : Takes 0 startsNext := by
  intro file ts
  refine .peek ?_
  split
  · exact .pure
  · exact .pure
  · exact .pure
  · exact .pure
  · exact .pure
  · rename_i name hfront
    exact .peekSecond (by rw [hfront]; rfl) .pure
  · rename_i hfront
    exact .peekSecond (by rw [hfront]; rfl) .pure
  · exact .pure

theorem takes_indirectOperand : Takes 0 indirectOperand := by
  refine takes_expression.zero.bind fun e => (takes_accept rfl).bind fun b => .ite ?_ ?_
  · exact (takes_expect rfl _).zero.bind fun _ => (takes_expect rfl _).zero.bind fun _ => .pure
  · refine (takes_expect rfl _).zero.bind fun _ => (takes_accept rfl).bind fun b => .ite ?_ .pure
    exact (takes_expect rfl _).zero.bind fun _ => .pure

theorem takes_directOperand : Takes 0 directOperand := by
  refine takes_expression.zero.bind fun e => (takes_accept rfl).bind fun b => .ite ?_ .pure
  refine (takes_accept rfl).bind fun b => .ite .pure ?_
  exact (takes_accept rfl).bind fun b => .ite .pure fun _ _ => .fail

theorem takes_operand (m : Mnemonic) : Takes 0 (operand m) := by
  have hexpr : ∀ form, Takes 0 (do pure { form := form, expr := ← expression } : Parse Operand) :=
    fun form => takes_expression.zero.bind fun e => .pure
  have haddress : Takes 0 (accept .openParen >>= fun b => if b then indirectOperand else directOperand) :=
    (takes_accept rfl).bind fun b => .ite takes_indirectOperand takes_directOperand
  refine (takes_accept rfl).bind fun b => .ite (hexpr _) ?_
  refine .ite (hexpr _) ?_
  refine takes_startsNext.bind fun b => .ite .pure fun file ts => .peek ?_
  refine .ite (fun hA => ?_) fun _ => ?_
  · have hfront : front ts = .word "A" := by simpa using (Bool.and_eq_true_iff.mp hA).2
    exact ((TakesAt.next (by rw [hfront]; rfl)).bind fun _ _ => .pure).mono (Nat.zero_le 1)
  · exact haddress file ts

theorem takes_instructionAfter (m : Mnemonic) : Takes 0 (instructionAfter m) :=
  (takes_operand m).bind fun _ => .pure

theorem takes_assignmentAfter (name : String) : Takes 0 (assignmentAfter name) :=
  (takes_expect rfl _).zero.bind fun _ => takes_expression.zero.bind fun _ => .pure

theorem takes_parameter (loc : Location) : Takes 1 (parameter loc) :=
  takes_identifier.bind fun _ => .ite (fun _ _ => .failAt) .pure

theorem takes_macroAfter (loc : Location) : Takes 1 (macroAfter loc) :=
  takes_identifier.bind fun _ =>
    Takes.bind (takes_afterCommas (takes_parameter loc).zero) fun _ => .pure

theorem takes_callAfter : Takes 1 callAfter :=
  takes_identifier.bind fun _ =>
    Takes.bind (takes_afterCommas takes_expression.zero) fun _ => .pure

theorem takes_binaryAfter (loc : Location) : Takes 0 (binaryAfter loc) := by
  refine takes_quoted.zero.bind fun name => (takes_accept rfl).bind fun b => .ite ?_ .pure
  refine takes_expression.zero.bind fun skip => (takes_accept rfl).bind fun b => .ite ?_ .pure
  exact takes_expression.zero.bind fun length => .pure

theorem takes_messageArg : Takes 1 messageArg := by
  intro file ts
  refine .peek ?_
  split
  · rename_i text bytes hfront
    exact (TakesAt.next (by rw [hfront]; rfl)).bind fun _ _ => .pure
  · exact (takes_expression file ts).bind fun _ _ => .pure

theorem takes_messageAfter (loc : Location) (level : Level) (formatted : Bool) :
    Takes 0 (messageAfter loc level formatted) := by
  refine fun file ts => .peek (.ite (fun _ => .failAt) fun _ => ?_)
  refine (takes_messageArg.zero.bind fun arg => ?_) file ts
  exact Takes.bind (takes_afterCommas takes_messageArg.zero) fun args => .pure

theorem takes_directiveAfter (loc : Location) (name : String) : Takes 0 (directiveAfter loc name) := by
  have hexpr : ∀ f : List Action → Statement, Takes 0 (do pure (f (← expression)) : Parse Statement) :=
    fun f => takes_expression.zero.bind fun _ => .pure
  have hname : ∀ f : String → Statement, Takes 0 (do pure (f (← identifier)) : Parse Statement) :=
    fun f => takes_identifier.zero.bind fun _ => .pure
  unfold directiveAfter
  split
  · exact hexpr .openIf
  · exact hexpr .elseIf
  · exact .pure
  · exact .pure
  · exact hexpr .openRepeat
  · exact .pure
  · exact hexpr .openWhile
  · exact .pure
  · exact (takes_macroAfter loc).zero
  · exact .pure
  · exact takes_callAfter.zero
  · exact hname .metaLabel
  · exact hname .goto
  · exact takes_quoted.zero.bind fun _ => .pure
  · exact takes_binaryAfter loc
  · exact takes_messageAfter loc _ _
  · exact takes_messageAfter loc _ _
  · exact takes_messageAfter loc _ _
  · exact takes_messageAfter loc _ _
  · exact takes_messageAfter loc _ _
  · exact takes_messageAfter loc _ _
  · exact fun _ _ => .failAt

theorem takes_dataItem (word : Bool) : Takes 1 (dataItem word) := by
  intro file ts
  refine .here (.peek ?_)
  split
  · rename_i text bytes hfront
    exact (TakesAt.next (by rw [hfront]; rfl)).bind fun _ _ => .pure
  · exact (takes_expression file ts).bind fun _ _ => .pure

theorem takes_dataCount : Takes 0 dataCount :=
  takes_expression.zero.bind fun _ => (takes_expect rfl _).zero.bind fun _ => .pure

/-! ### Lines -/

/-- If lines are read from tokens, then all that is taken is from inside of a statement,
and the same is taken whatever comes behind, up to what is in front. -/
def TakesLines (f : (ts : List Token) → Reading ts) : Prop :=
  ∀ ⦃ts lines rest⦄, (f ts).Is lines rest → ∃ taken, ts = taken ++ rest ∧
    (∀ t ∈ taken, t.lexeme.isInside = true) ∧
      ∀ rest', SameFront rest rest' → (f (taken ++ rest')).Is lines rest'

theorem takesLines_single {p : Parse Statement} (hp : Takes 0 p) (loc : Location) (file : String) :
    TakesLines fun ts => .single loc (p file ts) := by
  intro ts lines rest h
  obtain ⟨s, rfl, hread⟩ := single_is_iff.mp h
  obtain ⟨taken, rfl, -, hinside, hsame⟩ := hp file ts hread
  exact ⟨taken, rfl, hinside, fun rest' hrest => single_is (hsame rest' hrest) loc⟩

theorem takesLines_dataItems (word : Bool) (file : String) : TakesLines (dataItems word file) := by
  intro ts lines rest h
  induction hn : ts.length using Nat.strongRecOn generalizing ts lines with
  | ind n ih =>
  obtain ⟨item, more, hitem, ⟨hfront, rfl, rfl⟩ | ⟨line, more, lines, rfl, hlines, rfl⟩⟩ :=
    dataItems_is_iff.mp h
  · obtain ⟨taken, rfl, -, hinside, hsame⟩ := takes_dataItem word file ts hitem
    refine ⟨taken, rfl, hinside, fun rest' hrest => ?_⟩
    exact dataItems_is_iff.mpr ⟨item, rest', hsame rest' hrest,
      .inl ⟨hrest.front_eq ▸ hfront, rfl, rfl⟩⟩
  · obtain ⟨taken, rfl, -, hinside, hsame⟩ := takes_dataItem word file ts hitem
    have hlt : more.length < n := by
      rw [List.length_append, List.length_cons] at hn
      omega
    obtain ⟨taken', rfl, hinside', hsame'⟩ := ih _ hlt hlines rfl
    refine ⟨taken ++ ⟨.comma, line⟩ :: taken', by rw [List.append_assoc, List.cons_append],
      List.forall_mem_append.mpr ⟨hinside, List.forall_mem_cons.mpr ⟨rfl, hinside'⟩⟩,
      fun rest' hrest => ?_⟩
    rw [List.append_assoc, List.cons_append]
    exact dataItems_is_iff.mpr ⟨item, _, hsame _ (hrest.append (⟨.comma, line⟩ :: taken')),
      .inr ⟨line, _, lines, rfl, hsame' _ hrest, rfl⟩⟩

theorem takesLines_repeatedItems (word : Bool) (loc : Location) (file : String) :
    TakesLines (repeatedItems word loc file) := by
  intro ts lines rest h
  obtain ⟨count, more, items, hcount, hitems, rfl⟩ := repeatedItems_is_iff.mp h
  obtain ⟨taken, rfl, -, hinside, hsame⟩ := takes_dataCount file ts hcount
  obtain ⟨taken', rfl, hinside', hsame'⟩ := takesLines_dataItems word file hitems
  refine ⟨taken ++ taken', (List.append_assoc ..).symm,
    List.forall_mem_append.mpr ⟨hinside, hinside'⟩, fun rest' hrest => ?_⟩
  rw [List.append_assoc]
  exact repeatedItems_is_iff.mpr ⟨count, _, items, hsame _ (hrest.append taken'), hsame' _ hrest, rfl⟩

theorem takesLines_directiveLines (loc : Location) (name file : String) :
    TakesLines (directiveLines loc name file) := by
  intro ts lines rest h
  unfold directiveLines at h
  split at h
  · exact takesLines_dataItems false file h
  · exact takesLines_dataItems true file h
  · exact takesLines_repeatedItems false loc file h
  · exact takesLines_repeatedItems true loc file h
  · rename_i hdb hdw hrepb hrepw
    have hsingle : ∀ ts, directiveLines loc name file ts = .single loc (directiveAfter loc name file ts) := by
      intro ts
      unfold directiveLines
      split <;> first | rfl | contradiction
    obtain ⟨taken, rfl, hinside, hsame⟩ := takesLines_single (takes_directiveAfter loc name) loc file h
    refine ⟨taken, rfl, hinside, fun rest' hrest => ?_⟩
    rw [hsingle]
    exact hsame rest' hrest

/-- What a statement takes behind its first token. -/
theorem takesLines_linesAfter (t : Token) (file : String) : TakesLines (linesAfter t file) := by
  obtain ⟨l, line⟩ := t
  cases l with
  | directive name => exact takesLines_directiveLines _ name file
  | label name =>
      rintro ts lines rest ⟨rfl, last, hlast, rfl⟩
      cases hlast
      exact ⟨[], rfl, fun _ h => absurd h List.not_mem_nil, fun rest' _ => ⟨rfl, .all rest', rfl, rfl⟩⟩
  | word name => exact takesLines_single (takes_assignmentAfter name) _ file
  | pc => exact takesLines_single (takes_assignmentAfter pcName) _ file
  | mnemonic m => exact takesLines_single (takes_instructionAfter m) _ file
  | _ =>
      rintro ts lines rest ⟨-, last, hlast, -⟩
      cases hlast

end Statement

/-! ## Progress -/

def EndsFile (ts : List Token) : Prop := ∃ before line, ts = before ++ [⟨.endOfFile, line⟩]

/-- From some tokens on to the last of them: one or more are passed, but not all. -/
def Advances (ts rest : List Token) : Prop := ∃ n, 0 < n ∧ n < ts.length ∧ rest = ts.drop n

namespace EndsFile

variable {ts rest taken : List Token}

theorem ne_nil (h : EndsFile ts) : ts ≠ [] := by
  rintro rfl
  obtain ⟨before, line, h⟩ := h
  exact List.append_ne_nil_of_right_ne_nil before (List.cons_ne_nil _ _) h.symm

/-- The end of the file is not among tokens from inside of a statement, and so it is
behind them. -/
theorem of_taken (h : EndsFile (taken ++ rest)) (htaken : ∀ t ∈ taken, t.lexeme.isInside = true) :
    EndsFile rest := by
  obtain ⟨before, line, h⟩ := h
  rcases List.eq_nil_or_concat rest with rfl | ⟨init, t, rfl⟩
  · rw [List.append_nil] at h
    have hend := htaken ⟨.endOfFile, line⟩
      (by rw [h]; exact List.mem_append_right _ (List.mem_singleton_self _))
    cases hend
  · rw [List.concat_eq_append, ← List.append_assoc] at h
    obtain ⟨-, ht⟩ := List.append_inj' h rfl
    exact ⟨init, line, by rw [List.concat_eq_append, ht]⟩

theorem drop (h : EndsFile ts) {n : Nat} (hn : n < ts.length) : EndsFile (ts.drop n) := by
  obtain ⟨before, line, rfl⟩ := h
  rw [List.length_append, List.length_singleton] at hn
  exact ⟨before.drop n, line, List.drop_append_of_le_length (by omega)⟩

/-- What is taken from inside of a statement is passed, and there is more. -/
theorem advances (h : EndsFile (taken ++ rest)) (htaken : ∀ t ∈ taken, t.lexeme.isInside = true)
    (hlength : 0 < taken.length) : Advances (taken ++ rest) rest := by
  have hrest := List.length_pos_iff.mpr (h.of_taken htaken).ne_nil
  refine ⟨taken.length, hlength, ?_, List.drop_left.symm⟩
  rw [List.length_append]
  omega

end EndsFile

namespace Parse

variable {α : Type}

/-- Whatever the parser reads, where the tokens end with an end of file, it advances. -/
def Progresses (p : (file : String) → (ts : List Token) → Except Error (α × Tail ts)) : Prop :=
  ∀ ⦃file ts a rest⦄, EndsFile ts → Reads p file ts a rest → Advances ts rest

theorem Takes.progresses {p : (file : String) → (ts : List Token) → Except Error (α × Tail ts)}
    (h : Takes 1 p) : Progresses p := by
  intro file ts a rest hts hread
  obtain ⟨taken, rfl, hlength, hinside, -⟩ := h file ts hread
  exact hts.advances hinside hlength

/-- A token and what is read behind it are passed. -/
theorem Takes.advances_behind {p : (file : String) → (ts : List Token) → Except Error (α × Tail ts)}
    {k : Nat} (h : Takes k p) {file : String} {t : Token} {ts rest : List Token} {a : α}
    (ht : t.lexeme.isInside = true) (hts : EndsFile (t :: ts)) (hread : Reads p file ts a rest) :
    Advances (t :: ts) rest := by
  obtain ⟨taken, rfl, -, hinside, -⟩ := h file ts hread
  rw [← List.cons_append] at hts ⊢
  exact hts.advances (List.forall_mem_cons.mpr ⟨ht, hinside⟩) (Nat.succ_pos _)

/-- Whatever the items of a loop are, a round of it, which reads a comma and an item,
advances. -/
def RoundsProgress (item : Parse α) : Prop :=
  ∀ ⦃file line ts a rest⦄, EndsFile (⟨.comma, line⟩ :: ts) → Reads item file ts a rest →
    Advances (⟨.comma, line⟩ :: ts) rest

theorem Takes.roundsProgress {item : Parse α} {k : Nat} (h : Takes k item) : RoundsProgress item :=
  fun _ _ _ _ _ hts hread => h.advances_behind rfl hts hread

end Parse

namespace Statement

open Parse

variable {file : String} {ts rest : List Token}

/-- A statement is in front, and is read up to the rest. -/
def Leads (file : String) (ts rest : List Token) : Prop :=
  ∃ t more lines, ts = t :: more ∧ t.lexeme ≠ .endOfFile ∧ (linesAfter t file more).Is lines rest

theorem Leads.advances (h : Leads file ts rest) (hts : EndsFile ts) : Advances ts rest := by
  obtain ⟨t, more, lines, rfl, hend, his⟩ := h
  obtain ⟨taken, rfl, hinside, -⟩ := takesLines_linesAfter t file his
  obtain ⟨before, line, hlast⟩ := hts
  cases before with
  | nil => exact absurd (congrArg Token.lexeme (List.cons.inj hlast).1) hend
  | cons t' before =>
      obtain ⟨rfl, hmore⟩ := List.cons.inj hlast
      have hrest := List.length_pos_iff.mpr (EndsFile.of_taken ⟨before, line, hmore⟩ hinside).ne_nil
      refine ⟨taken.length + 1, Nat.succ_pos _, ?_, ?_⟩
      · rw [List.length_cons, List.length_append]
        omega
      · rw [List.drop_succ_cons, List.drop_left]

/-- Statement after statement, reading stays within the tokens. -/
theorem reaches_within (hts : EndsFile ts) (h : Relation.ReflTransGen (Leads file) ts rest) :
    ∃ n < ts.length, rest = ts.drop n := by
  induction h with
  | refl => exact ⟨0, List.length_pos_iff.mpr hts.ne_nil, rfl⟩
  | tail _ hlast ih =>
      obtain ⟨n, hn, rfl⟩ := ih
      obtain ⟨m, -, hm, rfl⟩ := hlast.advances (hts.drop hn)
      rw [List.length_drop] at hm
      exact ⟨n + m, by omega, List.drop_drop⟩

end Statement

/-- Where reading a file stops: in front of the end of the file, with nothing wrong, or of a
statement that is wrong. -/
def StopsAt (file : String) (reached : List Token) (err : Option Error) : Prop :=
  (Parse.front reached = .endOfFile ∧ err = none) ∨
    ∃ t more, reached = t :: more ∧ t.lexeme ≠ .endOfFile ∧
      ∃ e, (Statement.linesAfter t file more).rest = .error e ∧ err = some e

/-- Reading goes from statement to statement, to where it stops. -/
theorem readLines_stops (file : String) (done : List Line) (ts : List Token) :
    ∃ reached, Relation.ReflTransGen (Statement.Leads file) ts reached ∧
      StopsAt file reached (readLines file done ts).2 := by
  fun_induction readLines file done ts with
  | case1 done => exact ⟨[], .refl, .inl ⟨rfl, rfl⟩⟩
  | case2 done t rest hend => exact ⟨t :: rest, .refl, .inl ⟨hend, rfl⟩⟩
  | case3 done t rest hend reading done' err herr =>
      exact ⟨t :: rest, .refl, .inr ⟨t, rest, rfl, hend, err, herr, rfl⟩⟩
  | case4 done t rest hend reading done' last hlast ih =>
      obtain ⟨reached, hreached, hstops⟩ := ih
      exact ⟨reached, .head ⟨t, rest, _, rfl, hend, rfl, last, hlast, rfl⟩ hreached, hstops⟩

namespace Lexer

/-- A round of reading source text fails, or takes a glyph or more of the text, and no more
than there is, and goes on behind what it takes. -/
theorem scanFrom_round (defines : List (String × Int64)) (line : Nat) (done : List Token) (g : Glyph)
    (rest : List Glyph) :
    (∃ err last, step defines line g rest = .fail err last ∧
        scanFrom defines line done (g :: rest) = ⟨done.reverse, last, some err⟩) ∨
      (∃ n next, step defines line g rest = .skip n next ∧ 0 < n ∧ n ≤ (g :: rest).length ∧
        scanFrom defines line done (g :: rest) = scanFrom defines next done ((g :: rest).drop n)) ∨
      ∃ token n next, step defines line g rest = .emit token n next ∧ 0 < n ∧ n ≤ (g :: rest).length ∧
        scanFrom defines line done (g :: rest) =
          scanFrom defines next (token :: done) ((g :: rest).drop n) := by
  cases hstep : step defines line g rest with
  | fail err last => exact .inl ⟨err, last, rfl, scanFrom_fail hstep⟩
  | skip n next =>
      have htakes := congrArg Step.takes? hstep
      have hpos := step_advances defines line g rest htakes
      exact .inr (.inl ⟨n, next, rfl, hpos, (step_takes htakes).1, scanFrom_skip hstep⟩)
  | emit token n next =>
      have htakes := congrArg Step.takes? hstep
      have hpos := step_advances defines line g rest htakes
      exact .inr (.inr ⟨token, n, next, rfl, hpos, (step_takes htakes).1, scanFrom_emit hstep⟩)

/-- The tokens of source text without fault end with one end of file. -/
theorem scan_endsFile {defines : List (String × Int64)} {text : List Glyph}
    (h : (scan defines text).error = none) :
    ∃ ts last, (scan defines text).tokens = ts ++ [⟨.endOfFile, last⟩] ∧
      ∀ t ∈ ts, t.lexeme ≠ .endOfFile := by
  obtain ⟨ls, hmakes⟩ := Makes.of_scan h
  obtain ⟨ts, last, rfl, hscan⟩ := hmakes.scan_eq
  refine ⟨ts, last, by rw [hscan], fun t ht => ?_⟩
  exact hmakes.ne_endOfFile _ (List.mem_map_of_mem ht)

end Lexer

open Lexer Parse Statement in
/-- Reading comes to an end on every input.  On whatever bytes, each round over the text fails,
or its step takes a glyph or more of the text and reading goes on behind exactly those; and
without fault there is one end of file, which is the last token.  On whatever tokens that end
so, operands, expressions, rounds over operators, the items of every loop and its rounds, and
statements fail or advance.  So reading a file goes on within the tokens to where it stops. -/
theorem reading_advances (defines : List (String × Int64)) (bytes : List UInt8) :
    (∀ line done g rest,
      (∃ err last, step defines line g rest = .fail err last ∧
          scanFrom defines line done (g :: rest) = ⟨done.reverse, last, some err⟩) ∨
        (∃ n next, step defines line g rest = .skip n next ∧ 0 < n ∧ n ≤ (g :: rest).length ∧
          scanFrom defines line done (g :: rest) = scanFrom defines next done ((g :: rest).drop n)) ∨
        ∃ token n next, step defines line g rest = .emit token n next ∧ 0 < n ∧
          n ≤ (g :: rest).length ∧
          scanFrom defines line done (g :: rest) =
            scanFrom defines next (token :: done) ((g :: rest).drop n)) ∧
    ((scan defines (Glyph.ofBytes bytes)).error = none →
      ∃ ts last, (scan defines (Glyph.ofBytes bytes)).tokens = ts ++ [⟨.endOfFile, last⟩] ∧
        ∀ t ∈ ts, t.lexeme ≠ .endOfFile) ∧
    Progresses Expr.operand ∧
    (∀ prio, Progresses (Expr.climb prio)) ∧
    (∀ file prio t ts op y rest, Expr.nextOperator? prio (t :: ts) = some op → EndsFile (t :: ts) →
      Reads (Expr.climb (op.priority + 1)) file ts y rest → Advances (t :: ts) rest) ∧
    (∀ word, Progresses (dataItem word) ∧ RoundsProgress (dataItem word)) ∧
    (Progresses messageArg ∧ RoundsProgress messageArg) ∧
    (∀ loc, Progresses (parameter loc) ∧ RoundsProgress (parameter loc)) ∧
    (Progresses expression ∧ RoundsProgress expression) ∧
    (∀ file ts rest, EndsFile ts → Leads file ts rest → Advances ts rest) ∧
    ∀ file ts, EndsFile ts →
      (∀ reached, Relation.ReflTransGen (Leads file) ts reached →
        ∃ n < ts.length, reached = ts.drop n) ∧
      ∃ reached, Relation.ReflTransGen (Leads file) ts reached ∧
        StopsAt file reached (linesOf file ts).2 := by
  refine ⟨scanFrom_round defines, scan_endsFile, Expr.takes_operand.progresses,
    fun prio => (Expr.takes_climb prio).progresses, ?_, ?_, ?_, ?_, ?_, ?_, ?_⟩
  · intro file prio t ts op y rest hop hts hread
    obtain ⟨sign, hsign⟩ := Expr.front_of_nextOperator? hop
    -- an infix operator is no end of the file, so the token behind it is
    have ht : t.lexeme.isInside = true := by
      rw [show t.lexeme = .operator sign from hsign]
      rfl
    exact (Expr.takes_climb _).advances_behind ht hts hread
  · exact fun word => ⟨(takes_dataItem word).progresses, (takes_dataItem word).roundsProgress⟩
  · exact ⟨takes_messageArg.progresses, takes_messageArg.roundsProgress⟩
  · exact fun loc => ⟨(takes_parameter loc).progresses, (takes_parameter loc).roundsProgress⟩
  · exact ⟨takes_expression.progresses, takes_expression.roundsProgress⟩
  · exact fun file ts rest hts hleads => hleads.advances hts
  · exact fun file ts hts =>
      ⟨fun reached hreached => reaches_within hts hreached, readLines_stops file [] ts⟩

/-- The program counter in parentheses is read up to the end of the file. -/
theorem reading_advances_group :
    (∃ ts last, (Lexer.scan [] (Glyph.ofBytes [0x28, 0x40, 0x29])).tokens = ts ++ [⟨.endOfFile, last⟩] ∧
      ∀ t ∈ ts, t.lexeme ≠ .endOfFile) ∧
    Advances [⟨.openParen, 1⟩, ⟨.pc, 1⟩, ⟨.closeParen, 1⟩, ⟨.endOfFile, 1⟩] [⟨.endOfFile, 1⟩] := by
  obtain ⟨-, hscan, hoperand, -⟩ := reading_advances [] [0x28, 0x40, 0x29]
  have hread : Parse.Reads Expr.operand "a.s"
      [⟨.openParen, 1⟩, ⟨.pc, 1⟩, ⟨.closeParen, 1⟩, ⟨.endOfFile, 1⟩]
      (.symbol ⟨"a.s", 1⟩ pcName) [⟨.endOfFile, 1⟩] :=
    Expr.reads_paren (Expr.reads_alone Expr.reads_pc rfl)
  exact ⟨hscan (by decide +kernel), hoperand ⟨[_, _, _], 1, rfl⟩ hread⟩

end Mos6510
