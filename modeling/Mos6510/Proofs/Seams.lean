import Mos6510.Proofs.Readback
import Mos6510.Proofs.Rebuild

/-!
# Tokens cut between statements

Statements are read in the same way in front of any other statement.  The tokens of
a file are cut at a seam, behind which a directive starts or the file ends; the same
tokens, on other lines and of another file, are then read as the same statements where
any other statement begins behind them.

* `Seam`: the two places, and what is behind each;
* `Seam.Joined`: tokens up to the seam, which are the same but for their lines and the
  names of binary files;
* `Seam.Carries`: what a parser reads from the one tokens is read from the other, with
  one lemma for each parser;
* `Seam.readLines_joined`: so lines up to the seam are alike.
-/

namespace Mos6510

open Parse

/-! ## Seams -/

/-- A directive starts here, or the file ends. -/
def Ends (ts : List Token) : Prop := front ts = .endOfFile ∨ ∃ name, front ts = .directive name

theorem Ends.begins {ts : List Token} (h : Ends ts) : Begins ts := by
  unfold Begins
  rcases h with h | ⟨name, h⟩ <;> rw [h] <;> trivial

/-- Does the lexeme include a file? -/
def Lexeme.includes (l : Lexeme) : Prop := l = .directive "INCLUDE" ∨ l = .directive "INCBIN"

/-- Lexemes that stay inside of a statement: none begins with it. -/
def Lexeme.IsInner (l : Lexeme) : Prop := ∀ ts, Begins ts → front ts ≠ l

theorem isInner_comma : Lexeme.IsInner .comma := fun _ h => h.front_ne (.inl rfl)

theorem isInner_immediate : Lexeme.IsInner .immediate := fun _ h => h.front_ne (.inr (.inr rfl))

theorem isInner_assign : Lexeme.IsInner .assign := fun _ h => h.front_ne (.inr (.inl rfl))

theorem isInner_openParen : Lexeme.IsInner .openParen := by
  intro ts h hfront
  unfold Begins at h
  rw [hfront] at h
  exact h

theorem isInner_string (text : String) (bytes : List UInt8) : Lexeme.IsInner (.string text bytes) := by
  intro ts h hfront
  unfold Begins at h
  rw [hfront] at h
  exact h

/-- Where the tokens of two files are cut. -/
structure Seam where
  file : String
  file' : String
  /-- The names of binary files that stand for each other in the two files. -/
  names : String → String → Prop
  tokens : List Token
  tokens' : List Token
  ends : Ends tokens
  begins : Begins tokens'

namespace Seam

/-- Tokens up to the seam, which are the same but for their lines and the names of binary
files. -/
inductive Joined (J : Seam) : List Token → List Token → Prop
  | seam : Joined J J.tokens J.tokens'
  | token {l : Lexeme} {line line' : Nat} {ts ts' : List Token} :
      l ≠ .endOfFile → ¬l.includes → Joined J ts ts' → Joined J (⟨l, line⟩ :: ts) (⟨l, line'⟩ :: ts')
  | binary {name name' : String} {bytes bytes' : List UInt8} {line line' nameLine nameLine' : Nat}
      {ts ts' : List Token} :
      J.names name name' → Joined J ts ts' →
        Joined J (⟨.directive "INCBIN", line⟩ :: ⟨.string name bytes, nameLine⟩ :: ts)
          (⟨.directive "INCBIN", line'⟩ :: ⟨.string name' bytes', nameLine'⟩ :: ts')

/-! ## Parsers -/

variable {J : Seam} {α β : Type} {R : α → α → Prop} {ts ts' : List Token}

/-- What the parser reads from the one tokens, the other reads from the other tokens,
and both leave tokens that are joined. -/
def Carries (J : Seam) (R : α → α → Prop) (p p' : Parse α) (ts ts' : List Token) : Prop :=
  ∀ ⦃a rest⦄, Reads p J.file ts a rest →
    ∃ a' rest', Reads p' J.file' ts' a' rest' ∧ R a a' ∧ J.Joined rest rest'

end Seam

namespace Parse

variable {α β : Type} {file : String} {ts rest last : List Token}

theorem Reads.of_bind {p : Parse α} {f : α → Parse β} {b : β} (h : Reads (p >>= f) file ts b last) :
    ∃ a rest, Reads p file ts a rest ∧ Reads (f a) file rest b last := by
  obtain ⟨_, h, rfl⟩ := h
  obtain ⟨a, more, last, hp, hf, hlast⟩ := bind_eq_ok h
  exact ⟨a, more.val, ⟨more, hp, rfl⟩, last, hf, hlast.symm⟩

theorem Reads.length_le {p : (file : String) → (ts : List Token) → Except Error (α × Tail ts)} {a : α}
    (h : Reads p file ts a rest) : rest.length ≤ ts.length := by
  obtain ⟨last, -, rfl⟩ := h
  exact last.property

/-- A parser reads at most one thing. -/
theorem Reads.unique {p : (file : String) → (ts : List Token) → Except Error (α × Tail ts)} {a a' : α}
    {rest' : List Token} (h : Reads p file ts a rest) (h' : Reads p file ts a' rest') :
    a = a' ∧ rest = rest' := by
  obtain ⟨_, h, rfl⟩ := h
  obtain ⟨_, h', rfl⟩ := h'
  cases h.symm.trans h'
  exact ⟨rfl, rfl⟩

end Parse

namespace Seam

variable {J : Seam} {α β : Type} {R : α → α → Prop} {ts ts' : List Token}

namespace Carries

theorem pure {a a' : α} (h : R a a') (hts : J.Joined ts ts') :
    J.Carries R (Pure.pure a) (Pure.pure a') ts ts' := by
  rintro _ _ ⟨_, hp, rfl⟩
  cases hp
  exact ⟨a', ts', .pure a', h, hts⟩

theorem bind {Q : β → β → Prop} {p p' : Parse β} {f f' : β → Parse α} (hp : J.Carries Q p p' ts ts')
    (hf : ∀ ⦃b b' rest rest'⦄, Q b b' → J.Joined rest rest' → J.Carries R (f b) (f' b') rest rest') :
    J.Carries R (p >>= f) (p' >>= f') ts ts' := by
  intro a last h
  obtain ⟨b, rest, hb, ha⟩ := h.of_bind
  obtain ⟨b', rest', hb', hq, hrest⟩ := hp hb
  obtain ⟨a', last', ha', hr, hlast⟩ := hf hq hrest ha
  exact ⟨a', last', hb'.bind ha', hr, hlast⟩

theorem fail {err : Error} {p' : Parse α} : J.Carries R (Parse.fail err) p' ts ts' := by
  rintro _ _ ⟨_, hp, -⟩
  cases hp

theorem failAt {loc : Location} {err : Error} {p' : Parse α} :
    J.Carries R (Parse.failAt loc err) p' ts ts' := by
  rintro _ _ ⟨_, hp, -⟩
  cases hp

/-- What is known to be read comes first. -/
theorem bind_reads {p p' : Parse β} {f f' : β → Parse α} {b b' : β} {rest rest' : List Token}
    (hp : Reads p J.file ts b rest) (hp' : Reads p' J.file' ts' b' rest')
    (h : J.Carries R (f b) (f' b') rest rest') : J.Carries R (p >>= f) (p' >>= f') ts ts' := by
  intro a last hread
  obtain ⟨b₁, rest₁, hb, hread⟩ := hread.of_bind
  obtain ⟨rfl, rfl⟩ := hp.unique hb
  obtain ⟨a', last', hread', hr, hlast⟩ := h hread
  exact ⟨a', last', hp'.bind hread', hr, hlast⟩

/-- What is in front is looked at. -/
theorem peek {f f' : Lexeme → Parse α} (h : J.Carries R (f (front ts)) (f' (front ts')) ts ts') :
    J.Carries R (Parse.peek >>= f) (Parse.peek >>= f') ts ts' :=
  .bind_reads reads_peek reads_peek h

/-- A token that is in front of both is dropped. -/
theorem next {l : Lexeme} {line line' : Nat} {f f' : Unit → Parse α}
    (h : J.Carries R (f ()) (f' ()) ts ts') :
    J.Carries R (Parse.next >>= f) (Parse.next >>= f') (⟨l, line⟩ :: ts) (⟨l, line'⟩ :: ts') :=
  .bind_reads (reads_next l) (reads_next l) h

end Carries

namespace Joined

/-- What is inside of a statement is in front of both or of neither. -/
theorem front_eq_iff (h : J.Joined ts ts') {l : Lexeme} (hl : l.IsInner) :
    front ts = l ↔ front ts' = l := by
  cases h with
  | seam => exact iff_of_false (hl _ J.ends.begins) (hl _ J.begins)
  | token | binary => exact Iff.rfl

/-- Where no directive starts and the file does not end, a token is in front of both. -/
theorem eq_cons (h : J.Joined ts ts') {l : Lexeme} (hfront : front ts = l) (hend : l ≠ .endOfFile)
    (hdirective : ∀ name, l ≠ .directive name) :
    ∃ line line' rest rest', ts = ⟨l, line⟩ :: rest ∧ ts' = ⟨l, line'⟩ :: rest' ∧ J.Joined rest rest' := by
  subst hfront
  cases h with
  | seam =>
      rcases J.ends with hends | ⟨name, hends⟩
      · exact absurd hends hend
      · exact absurd hends (hdirective name)
  | token _ _ h => exact ⟨_, _, _, _, rfl, rfl, h⟩
  | binary => exact absurd rfl (hdirective _)

theorem of_cons {l : Lexeme} {line : Nat} {rest : List Token} (h : J.Joined (⟨l, line⟩ :: rest) ts')
    (hend : l ≠ .endOfFile) (hdirective : ∀ name, l ≠ .directive name) :
    ∃ line' rest', ts' = ⟨l, line'⟩ :: rest' ∧ J.Joined rest rest' := by
  obtain ⟨_, line', _, rest', hcons, hcons', hrest⟩ := h.eq_cons rfl hend hdirective
  cases hcons
  exact ⟨line', rest', hcons', hrest⟩

end Joined

/-! ### Single tokens -/

/-- What goes on if a token is in front and taken, and if another is. -/
theorem Carries.ifAccept {l : Lexeme} {p q p' q' : Parse α} (h : J.Joined ts ts')
    (hfront : front ts = l ↔ front ts' = l) (hend : l ≠ .endOfFile)
    (hdirective : ∀ name, l ≠ .directive name)
    (hyes : ∀ ⦃rest rest'⦄, J.Joined rest rest' → J.Carries R p p' rest rest')
    (hno : J.Carries R q q' ts ts') :
    J.Carries R (accept l >>= fun b => if b = true then p else q)
      (accept l >>= fun b => if b = true then p' else q') ts ts' := by
  intro a last hread
  obtain ⟨b, rest, haccept, hread⟩ := hread.of_bind
  by_cases hl : front ts = l
  · obtain ⟨line, line', more, more', rfl, rfl, hmore⟩ := h.eq_cons hl hend hdirective
    obtain ⟨rfl, rfl⟩ := (reads_accept l).unique haccept
    obtain ⟨a', last', hread', hr, hlast⟩ := hyes hmore hread
    exact ⟨a', last', (reads_accept l).bind hread', hr, hlast⟩
  · obtain ⟨rfl, rfl⟩ := (reads_accept_not hl).unique haccept
    obtain ⟨a', last', hread', hr, hlast⟩ := hno hread
    exact ⟨a', last', (reads_accept_not fun h' => hl (hfront.mpr h')).bind hread', hr, hlast⟩

/-- A comma or a parenthesis can be asked for anywhere. -/
theorem Carries.ifInner {l : Lexeme} {p q p' q' : Parse α} (h : J.Joined ts ts') (hl : l.IsInner)
    (hyes : ∀ ⦃rest rest'⦄, J.Joined rest rest' → J.Carries R p p' rest rest')
    (hno : J.Carries R q q' ts ts') :
    J.Carries R (accept l >>= fun b => if b = true then p else q)
      (accept l >>= fun b => if b = true then p' else q') ts ts' := by
  refine .ifAccept h (h.front_eq_iff hl) ?_ ?_ hyes hno
  · rintro rfl
    exact hl [] trivial rfl
  · rintro name rfl
    exact hl [⟨.directive name, 0⟩] trivial rfl

/-- A token that has to be there. -/
theorem carries_expect (h : J.Joined ts ts') {l : Lexeme} (missing : Error) (hend : l ≠ .endOfFile)
    (hdirective : ∀ name, l ≠ .directive name) :
    J.Carries (fun _ _ => True) (expect l missing) (expect l missing) ts ts' := by
  refine .peek ?_
  by_cases hfront : front ts = l
  · obtain ⟨line, line', rest, rest', rfl, rfl, hrest⟩ := h.eq_cons hfront hend hdirective
    rw [if_pos hfront, if_pos (by exact rfl)]
    intro a last hread
    obtain ⟨-, rfl⟩ := (reads_next l).unique hread
    exact ⟨(), rest', reads_next l, trivial, hrest⟩
  · rw [if_neg hfront]
    exact .fail

theorem carries_identifier (h : J.Joined ts ts') : J.Carries Eq identifier identifier ts ts' := by
  refine .peek ?_
  split
  · rename_i name hfront
    obtain ⟨line, line', rest, rest', rfl, rfl, hrest⟩ := h.eq_cons hfront nofun nofun
    exact .next (.pure rfl hrest)
  · exact .fail

/-! ### Items with commas between them -/

end Seam

namespace Parse

variable {α : Type} {item : Parse α} {file : String} {ts rest : List Token} {as : List α}

/-- The items after commas end where there is no comma, or start with one. -/
theorem reads_afterCommas_iff :
    Reads (afterCommas item) file ts as rest ↔
      (front ts ≠ .comma ∧ as = [] ∧ rest = ts) ∨
        ∃ line more a last as', ts = ⟨.comma, line⟩ :: more ∧ Reads item file more a last ∧
          Reads (afterCommas item) file last as' rest ∧ as = a :: as' := by
  constructor
  · rintro ⟨final, h, rfl⟩
    -- one step is enough: the items after the first are read by the same function
    rw [afterCommas.eq_def] at h
    split at h
    · split at h
      · cases h
      · rename_i a more hitem
        split at h
        · cases h
        · rename_i as' last hmore
          cases h
          exact .inr ⟨_, _, a, more.val, as', rfl, ⟨more, hitem, rfl⟩, ⟨last, hmore, rfl⟩, rfl⟩
    · rename_i hne
      cases h
      refine .inl ⟨fun hfront => ?_, rfl, rfl⟩
      cases ts with
      | nil => cases hfront
      | cons t more => exact hne t.line more (congrArg (⟨·, t.line⟩ :: more) hfront)
  · rintro (⟨hfront, rfl, rfl⟩ | ⟨line, more, a, last, as', rfl, ⟨⟨_, hle⟩, hitem, rfl⟩,
      ⟨⟨_, hle'⟩, hmore, rfl⟩, rfl⟩)
    · refine ⟨.all rest, ?_, rfl⟩
      rw [afterCommas.eq_def]
      split
      · exact absurd rfl hfront
      · rfl
    · refine ⟨⟨_, Nat.le_succ_of_le (Nat.le_trans hle' hle)⟩, ?_, rfl⟩
      rw [afterCommas]
      simp only [hitem, hmore]
      rfl

end Parse

namespace Seam

variable {J : Seam} {α β : Type} {R : α → α → Prop} {ts ts' : List Token}

theorem carries_afterCommas {item item' : Parse α}
    (hitem : ∀ ⦃ts ts'⦄, J.Joined ts ts' → J.Carries R item item' ts ts') (h : J.Joined ts ts') :
    J.Carries (List.Forall₂ R) (afterCommas item) (afterCommas item') ts ts' := by
  intro as rest hread
  induction hn : ts.length using Nat.strongRecOn generalizing ts ts' as with
  | ind n ih =>
  rcases reads_afterCommas_iff.mp hread with ⟨hfront, rfl, rfl⟩ |
    ⟨line, more, a, last, as', rfl, ha, has, rfl⟩
  · have hfront' : front ts' ≠ .comma := fun h' => hfront ((h.front_eq_iff isInner_comma).mpr h')
    exact ⟨[], ts', reads_afterCommas_iff.mpr (.inl ⟨hfront', rfl, rfl⟩), .nil, h⟩
  · obtain ⟨line', more', rfl, hmore⟩ := h.of_cons nofun nofun
    obtain ⟨a', last', ha', hr, hlast⟩ := hitem hmore ha
    have hlt : last.length < n := by
      have hle := ha.length_le
      rw [List.length_cons] at hn
      omega
    obtain ⟨bs, rest', hbs, hrs, hrest⟩ := ih _ hlt hlast has rfl
    exact ⟨a' :: bs, rest', reads_afterCommas_iff.mpr (.inr ⟨_, _, a', last', bs, rfl, ha', hbs, rfl⟩),
      .cons hr hrs, hrest⟩

/-! ### Expressions -/

theorem Joined.nextOperator?_eq (h : J.Joined ts ts') (prio : Nat) :
    Expr.nextOperator? prio ts = Expr.nextOperator? prio ts' := by
  cases h with
  | seam =>
      rw [Expr.nextOperator?_of_stops J.ends.begins.stops, Expr.nextOperator?_of_stops J.begins.stops]
  | @token l => cases l <;> rfl
  | binary => rfl

/-- Two expressions are the same but for locations. -/
def SameExpr (x x' : Expr) : Prop := opsOf x.actions = opsOf x'.actions

theorem SameExpr.unary {x x' : Expr} (h : SameExpr x x') (loc loc' : Location) (op : UnaryOp) :
    SameExpr (.unary loc op x) (.unary loc' op x') := by
  unfold SameExpr at h ⊢
  rw [Expr.actions, Expr.actions, opsOf_append, opsOf_append, h]
  rfl

theorem SameExpr.binary {x x' y y' : Expr} (hx : SameExpr x x') (hy : SameExpr y y')
    (loc loc' : Location) (op : BinaryOp) : SameExpr (.binary loc op x y) (.binary loc' op x' y') := by
  unfold SameExpr at hx hy ⊢
  simp only [Expr.actions, opsOf_append, hx, hy]
  rfl

/-- What reading expressions of a limited size comes to: from tokens that are joined,
expressions that are the same but for locations. -/
structure CarriesExprs (J : Seam) (size : Nat) : Prop where
  operand : ∀ {ts ts' : List Token}, 2 * ts.length < size → J.Joined ts ts' →
    J.Carries SameExpr Expr.operand Expr.operand ts ts'
  climb : ∀ {prio : Nat} {ts ts' : List Token}, 2 * ts.length + 1 < size → J.Joined ts ts' →
    J.Carries SameExpr (Expr.climb prio) (Expr.climb prio) ts ts'
  extend : ∀ {prio : Nat} {x x' : Expr} {ts ts' : List Token}, 2 * ts.length < size →
    SameExpr x x' → J.Joined ts ts' →
      J.Carries SameExpr (Expr.extend prio x) (Expr.extend prio x') ts ts'

end Seam

theorem Sign.eq_of_unary? {sign : Sign} {op : UnaryOp} (h : sign.unary? = some op) :
    sign = op.sign := by
  cases sign <;> cases h <;> rfl

theorem Expr.front_of_nextOperator? {prio : Nat} {ts : List Token} {op : BinaryOp}
    (h : nextOperator? prio ts = some op) : ∃ sign, front ts = .operator sign := by
  unfold nextOperator? at h
  split at h
  · exact ⟨_, rfl⟩
  · cases h

theorem Parse.Reads.of_expect {file : String} {ts rest : List Token} {l : Lexeme} {missing : Error}
    {u : Unit} (h : Reads (expect l missing) file ts u rest) (hend : l ≠ .endOfFile) :
    ∃ line, ts = ⟨l, line⟩ :: rest := by
  obtain ⟨_, _, hpeek, h⟩ := h.of_bind
  obtain ⟨rfl, rfl⟩ := reads_peek.unique hpeek
  by_cases hfront : front ts = l
  · rw [if_pos hfront] at h
    cases ts with
    | nil => exact absurd hfront.symm hend
    | cons t ts =>
        obtain ⟨-, rfl⟩ := (reads_next t.lexeme).unique h
        exact ⟨t.line, congrArg (⟨·, t.line⟩ :: ts) hfront⟩
  · rw [if_neg hfront] at h
    obtain ⟨_, h, -⟩ := h
    cases h

namespace Seam

variable {J : Seam} {ts ts' : List Token}

theorem carriesExprs (J : Seam) (size : Nat) : J.CarriesExprs size := by
  induction size using Nat.strongRecOn with
  | ind size ih =>
  -- the three readers of expressions call each other on fewer tokens
  constructor
  · rintro ts ts' hsize hts x rest ⟨last, h, rfl⟩
    rw [Expr.operand.eq_def] at h
    split at h
    · split at h
      · cases h
      · rename_i op hop
        obtain rfl := Sign.eq_of_unary? hop
        split at h
        · cases h
        · rename_i y last' hy
          cases h
          rw [List.length_cons] at hsize
          obtain ⟨line', more', rfl, hmore⟩ := hts.of_cons (by simp) (by simp)
          obtain ⟨y', rest', hy', hsame, hrest⟩ := (ih _ hsize).operand (by omega) hmore ⟨last', hy, rfl⟩
          exact ⟨_, rest', Expr.reads_unary hy', hsame.unary _ _ _, hrest⟩
    · cases h
      obtain ⟨line', more', rfl, hmore⟩ := hts.of_cons (by simp) (by simp)
      exact ⟨_, more', Expr.reads_number _ _, rfl, hmore⟩
    · cases h
      obtain ⟨line', more', rfl, hmore⟩ := hts.of_cons (by simp) (by simp)
      exact ⟨_, more', Expr.reads_word _, rfl, hmore⟩
    · cases h
      obtain ⟨line', more', rfl, hmore⟩ := hts.of_cons (by simp) (by simp)
      exact ⟨_, more', Expr.reads_pc, rfl, hmore⟩
    · split at h
      · cases h
      · rename_i y more hy
        split at h
        · cases h
        · rename_i last' hclose
          cases h
          rw [List.length_cons] at hsize
          obtain ⟨line', more', rfl, hmore⟩ := hts.of_cons (by simp) (by simp)
          obtain ⟨y', rest', hy', hsame, hrest⟩ := (ih _ hsize).climb (by omega) hmore ⟨more, hy, rfl⟩
          -- no seam is before a closing parenthesis, so the second text goes on with it too
          obtain ⟨close, hcons⟩ := Reads.of_expect ⟨last', hclose, rfl⟩ (by simp)
          rw [hcons] at hrest
          obtain ⟨close', last'', rfl, hlast⟩ := hrest.of_cons (by simp) (by simp)
          exact ⟨y', last'', Expr.reads_paren hy', hsame, hlast⟩
    · cases h
  · rintro prio ts ts' hsize hts x rest ⟨last, h, rfl⟩
    rw [Expr.climb.eq_def] at h
    split at h
    · cases h
    · rename_i y more hy
      split at h
      · cases h
      · rename_i z last' hz
        cases h
        have := more.property
        obtain ⟨y', more', hy', hsame, hmore⟩ := (ih _ hsize).operand (by omega) hts ⟨more, hy, rfl⟩
        obtain ⟨z', rest', hz', hsame', hrest⟩ :=
          (ih _ hsize).extend (by omega) hsame hmore ⟨last', hz, rfl⟩
        exact ⟨z', rest', Expr.reads_climb hy' hz', hsame', hrest⟩
  · rintro prio x x' ts ts' hsize hx hts z rest ⟨last, h, rfl⟩
    have hnext := hts.nextOperator?_eq prio
    rw [Expr.extend.eq_def] at h
    split at h
    · rename_i hnone
      cases h
      exact ⟨x', ts', Expr.reads_extend_none (hnext ▸ hnone), hx, hts⟩
    · rename_i op hop
      split at h
      · cases hop
      · rename_i t more
        split at h
        · cases h
        · rename_i y after hy
          split at h
          · cases h
          · rename_i w last' hw
            cases h
            have := after.property
            rw [List.length_cons] at hsize
            obtain ⟨sign, hsign⟩ := Expr.front_of_nextOperator? hop
            obtain ⟨line, line', _, more', hcons, rfl, hmore⟩ := hts.eq_cons hsign (by simp) (by simp)
            cases hcons
            obtain ⟨y', after', hy', hsame, hafter⟩ := (ih _ hsize).climb (by omega) hmore ⟨after, hy, rfl⟩
            obtain ⟨w', rest', hw', hsame', hrest⟩ :=
              (ih _ hsize).extend (by omega) (hx.binary hsame _ _ op) hafter ⟨last', hw, rfl⟩
            exact ⟨w', rest', Expr.reads_extend (hnext ▸ hop) hy' hw', hsame', hrest⟩

/-- The actions of expressions that are read are the same but for locations. -/
theorem carries_expression (h : J.Joined ts ts') :
    J.Carries (fun e e' => opsOf e = opsOf e') expression expression ts ts' :=
  .bind ((carriesExprs J (2 * ts.length + 2)).climb (by omega) h) fun _ _ _ _ hsame hrest =>
    .pure hsame hrest

/-! ## Statements -/

open Statement

/-- What goes on if a statement begins, and if none does. -/
theorem Carries.ifStartsNext {α : Type} {R : α → α → Prop} {p q p' q' : Parse α}
    (h : J.Joined ts ts') (hyes : J.Carries R p p' ts ts')
    (hno : front ts = front ts' → J.Carries R q q' ts ts') :
    J.Carries R (startsNext >>= fun b => if b = true then p else q)
      (startsNext >>= fun b => if b = true then p' else q') ts ts' := by
  -- both texts decide alike, and where nothing new starts they have the same front
  have hboth : ∃ b, Reads startsNext J.file ts b ts ∧ Reads startsNext J.file' ts' b ts' ∧
      (b = false → front ts = front ts') := by
    cases h with
    | seam => exact ⟨true, reads_startsNext J.ends.begins, reads_startsNext J.begins, nofun⟩
    | binary => exact ⟨true, reads_startsNext trivial, reads_startsNext trivial, nofun⟩
    | @token l line line' rest rest' _ _ h =>
        cases l with
        | word | pc =>
            have hsecond : decide (front rest' = .assign) = decide (front rest = .assign) :=
              decide_eq_decide.mpr (h.front_eq_iff isInner_assign).symm
            refine ⟨decide (front rest = .assign), Reads.bind reads_peek ?_, Reads.bind reads_peek ?_,
              fun _ => rfl⟩
            · exact Reads.bind reads_peekSecond (.pure _)
            · rw [← hsecond]
              exact Reads.bind reads_peekSecond (.pure _)
        | _ => exact ⟨_, Reads.bind reads_peek (.pure _), Reads.bind reads_peek (.pure _), fun _ => rfl⟩
  intro a last hread
  obtain ⟨b, rest, hb, hread⟩ := hread.of_bind
  obtain ⟨b', hstarts, hstarts', hfront⟩ := hboth
  obtain ⟨rfl, rfl⟩ := hstarts.unique hb
  cases b' with
  | true =>
      obtain ⟨a', last', hread', hr, hlast⟩ := hyes hread
      exact ⟨a', last', hstarts'.bind hread', hr, hlast⟩
  | false =>
      obtain ⟨a', last', hread', hr, hlast⟩ := hno (hfront rfl) hread
      exact ⟨a', last', hstarts'.bind hread', hr, hlast⟩

theorem carries_indirectOperand (h : J.Joined ts ts') :
    J.Carries Operand.Alike indirectOperand indirectOperand ts ts' := by
  refine .bind (carries_expression h) fun e e' _ _ he h => .ifInner h isInner_comma (fun _ _ h => ?_) ?_
  · refine .bind (carries_expect h _ nofun nofun) fun _ _ _ _ _ h => ?_
    exact .bind (carries_expect h _ nofun nofun) fun _ _ _ _ _ h => .pure ⟨rfl, rfl, he⟩ h
  · refine .bind (carries_expect h _ nofun nofun) fun _ _ _ _ _ h => ?_
    refine .ifInner h isInner_comma (fun _ _ h => ?_) (.pure ⟨rfl, rfl, he⟩ h)
    exact .bind (carries_expect h _ nofun nofun) fun _ _ _ _ _ h => .pure ⟨rfl, rfl, he⟩ h

theorem carries_directOperand (h : J.Joined ts ts') :
    J.Carries Operand.Alike directOperand directOperand ts ts' := by
  refine .bind (carries_expression h) fun e e' _ _ he h =>
    .ifInner h isInner_comma (fun ts ts' h => ?_) (.pure ⟨rfl, rfl, he⟩ h)
  cases h with
  | seam =>
      -- what is behind the seam is no register
      have hword : ∀ name, front J.tokens ≠ .word name := by
        intro name hfront
        rcases J.ends with hends | ⟨_, hends⟩ <;> cases hfront.symm.trans hends
      intro a last hread
      obtain ⟨_, _, haccept, hread⟩ := hread.of_bind
      obtain ⟨rfl, rfl⟩ := (reads_accept_not (hword "X")).unique haccept
      obtain ⟨_, _, haccept, hread⟩ := hread.of_bind
      obtain ⟨rfl, rfl⟩ := (reads_accept_not (hword "Y")).unique haccept
      obtain ⟨_, hfail, -⟩ := hread
      cases hfail
  | binary hname h =>
      refine .ifAccept (.binary hname h) Iff.rfl nofun nofun (fun _ _ h => .pure ⟨rfl, rfl, he⟩ h) ?_
      exact .ifAccept (.binary hname h) Iff.rfl nofun nofun (fun _ _ h => .pure ⟨rfl, rfl, he⟩ h) .fail
  | token hend hplain h =>
      refine .ifAccept (.token hend hplain h) Iff.rfl nofun nofun (fun _ _ h => .pure ⟨rfl, rfl, he⟩ h) ?_
      exact .ifAccept (.token hend hplain h) Iff.rfl nofun nofun (fun _ _ h => .pure ⟨rfl, rfl, he⟩ h)
        .fail

theorem carries_operand (m : Mnemonic) (h : J.Joined ts ts') :
    J.Carries Operand.Alike (operand m) (operand m) ts ts' := by
  refine .ifInner h isInner_immediate (fun _ _ h => ?_) ?_
  · exact .bind (carries_expression h) fun _ _ _ _ he h => .pure ⟨rfl, rfl, he⟩ h
  split
  · exact .bind (carries_expression h) fun _ _ _ _ he h => .pure ⟨rfl, rfl, he⟩ h
  refine .ifStartsNext h (.pure ⟨rfl, rfl, rfl⟩ h) fun hfront => .peek ?_
  rw [hfront]
  split
  · rename_i hacc
    have hword : front ts = .word "A" := hfront.trans (of_decide_eq_true (Bool.and_eq_true_iff.mp hacc).2)
    obtain ⟨_, _, _, _, rfl, rfl, hrest⟩ := h.eq_cons hword nofun nofun
    exact .next (.pure ⟨rfl, rfl, rfl⟩ hrest)
  · exact .ifInner h isInner_openParen (fun _ _ h => carries_indirectOperand h) (carries_directOperand h)

theorem carries_instructionAfter (m : Mnemonic) (h : J.Joined ts ts') :
    J.Carries (Statement.Alike J.names) (instructionAfter m) (instructionAfter m) ts ts' :=
  .bind (carries_operand m h) fun _ _ _ _ ho h => .pure (.instruction ho) h

theorem carries_assignmentAfter (name : String) (h : J.Joined ts ts') :
    J.Carries (Statement.Alike J.names) (assignmentAfter name) (assignmentAfter name) ts ts' :=
  .bind (carries_expect h _ nofun nofun) fun _ _ _ _ _ h =>
    .bind (carries_expression h) fun _ _ _ _ he h => .pure (.assign he) h

theorem carries_parameter (loc loc' : Location) (h : J.Joined ts ts') :
    J.Carries Eq (parameter loc) (parameter loc') ts ts' := by
  refine .bind (carries_identifier h) ?_
  rintro name _ _ _ rfl h
  split
  · exact .failAt
  · exact .pure rfl h

theorem carries_macroAfter (loc loc' : Location) (h : J.Joined ts ts') :
    J.Carries (Statement.Alike J.names) (macroAfter loc) (macroAfter loc') ts ts' := by
  refine .bind (carries_identifier h) ?_
  rintro name _ _ _ rfl h
  refine .bind (carries_afterCommas (fun _ _ h => carries_parameter loc loc' h) h) ?_
  rintro params params' _ _ hparams h
  rw [List.forall₂_eq_eq_eq] at hparams
  subst hparams
  exact .pure .openMacro h

theorem carries_callAfter (h : J.Joined ts ts') :
    J.Carries (Statement.Alike J.names) callAfter callAfter ts ts' := by
  refine .bind (carries_identifier h) ?_
  rintro name _ _ _ rfl h
  refine .bind (carries_afterCommas (fun _ _ h => carries_expression h) h) fun args args' _ _ hargs h => ?_
  have hops : List.Forall₂ Eq (args.map opsOf) (args'.map opsOf) :=
    List.forall₂_map_left_iff.mpr (List.forall₂_map_right_iff.mpr hargs)
  rw [List.forall₂_eq_eq_eq] at hops
  exact .pure (.call hops) h

/-- The names of a binary file may differ. -/
theorem carries_binaryAfter {name name' : String} {bytes bytes' : List UInt8} {line line' : Nat}
    (loc loc' : Location) (hname : J.names name name') (h : J.Joined ts ts') :
    J.Carries (Statement.Alike J.names) (binaryAfter loc) (binaryAfter loc')
      (⟨.string name bytes, line⟩ :: ts) (⟨.string name' bytes', line'⟩ :: ts') := by
  refine .bind_reads (reads_quoted _ _) (reads_quoted _ _) ?_
  refine .ifInner h isInner_comma (fun _ _ h => ?_) (.pure (.includeBinary hname rfl rfl) h)
  refine .bind (carries_expression h) fun skip skip' _ _ hskip h => ?_
  refine .ifInner h isInner_comma (fun _ _ h => ?_) (.pure (.includeBinary hname hskip rfl) h)
  exact .bind (carries_expression h) fun _ _ _ _ hlength h => .pure (.includeBinary hname hskip hlength) h

theorem carries_messageArg (h : J.Joined ts ts') :
    J.Carries MessageArg.Alike messageArg messageArg ts ts' := by
  refine .peek ?_
  split
  · rename_i value bytes hfront
    obtain ⟨_, _, _, _, rfl, rfl, hrest⟩ := h.eq_cons hfront nofun nofun
    exact .next (.pure (.text value) hrest)
  · rename_i hnot
    split
    · rename_i value bytes hfront
      exact absurd ((h.front_eq_iff (isInner_string value bytes)).mpr hfront) (hnot value bytes)
    · exact .bind (carries_expression h) fun _ _ _ _ he h => .pure (.expr he) h

theorem carries_messageAfter (loc loc' : Location) (level : Level) (formatted : Bool)
    (h : J.Joined ts ts') :
    J.Carries (Statement.Alike J.names) (messageAfter loc level formatted)
      (messageAfter loc' level formatted) ts ts' := by
  refine .peek ?_
  by_cases hends : endsMessage (front ts) = true
  · rw [if_pos hends]
    exact .failAt
  · have hfront : front ts = front ts' := by
      cases h with
      | seam => rcases J.ends with h | ⟨name, h⟩ <;> exact absurd (by rw [h]; rfl) hends
      | token | binary => rfl
    rw [if_neg hends, if_neg (hfront ▸ hends)]
    refine .bind (carries_messageArg h) fun arg arg' _ _ harg h => ?_
    refine .bind (carries_afterCommas (fun _ _ h => carries_messageArg h) h) fun _ _ _ _ hargs h => ?_
    exact .pure (.message (.cons harg hargs)) h

/-- The rest of a directive that includes no file. -/
theorem carries_directiveAfter (loc loc' : Location) {name : String}
    (hname : ¬(Lexeme.directive name).includes) (h : J.Joined ts ts') :
    J.Carries (Statement.Alike J.names) (directiveAfter loc name) (directiveAfter loc' name) ts ts' := by
  have hexpr : ∀ {f : List Action → Statement},
      (∀ e e', opsOf e = opsOf e' → (f e).Alike J.names (f e')) →
        J.Carries (Statement.Alike J.names) (do pure (f (← expression))) (do pure (f (← expression)))
          ts ts' :=
    fun hf => .bind (carries_expression h) fun _ _ _ _ he h => .pure (hf _ _ he) h
  have hident : ∀ {f : String → Statement}, (∀ n, (f n).Alike J.names (f n)) →
      J.Carries (Statement.Alike J.names) (do pure (f (← identifier))) (do pure (f (← identifier)))
        ts ts' :=
    fun hf => .bind (carries_identifier h) fun _ _ _ _ hn h => .pure (hn ▸ hf _) h
  unfold directiveAfter
  split
  · exact hexpr fun _ _ => .openIf
  · exact hexpr fun _ _ => .elseIf
  · exact .pure .otherwise h
  · exact .pure .closeIf h
  · exact hexpr fun _ _ => .openRepeat
  · exact .pure .closeRepeat h
  · exact hexpr fun _ _ => .openWhile
  · exact .pure .closeWhile h
  · exact carries_macroAfter loc loc' h
  · exact .pure .closeMacro h
  · exact carries_callAfter h
  · exact hident fun _ => .metaLabel
  · exact hident fun _ => .goto
  · exact absurd (.inl rfl) hname
  · exact absurd (.inr rfl) hname
  · exact carries_messageAfter loc loc' _ _ h
  · exact carries_messageAfter loc loc' _ _ h
  · exact carries_messageAfter loc loc' _ _ h
  · exact carries_messageAfter loc loc' _ _ h
  · exact carries_messageAfter loc loc' _ _ h
  · exact carries_messageAfter loc loc' _ _ h
  · exact .failAt

theorem carries_dataItem (word : Bool) (h : J.Joined ts ts') :
    J.Carries (Line.Alike fun _ _ => J.names) (dataItem word) (dataItem word) ts ts' := by
  refine .bind_reads reads_here reads_here (.peek ?_)
  split
  · rename_i value bytes hfront
    obtain ⟨_, _, _, _, rfl, rfl, hrest⟩ := h.eq_cons hfront nofun nofun
    exact .next (.pure .text hrest)
  · rename_i hnot
    split
    · rename_i value bytes hfront
      exact absurd ((h.front_eq_iff (isInner_string value bytes)).mpr hfront) (hnot value bytes)
    · exact .bind (carries_expression h) fun _ _ _ _ he h => .pure (.data he) h

theorem carries_dataCount (h : J.Joined ts ts') :
    J.Carries (fun e e' => opsOf e = opsOf e') dataCount dataCount ts ts' :=
  .bind (carries_expression h) fun _ _ _ _ he h =>
    .bind (carries_expect h _ nofun nofun) fun _ _ _ _ _ h => .pure he h

end Seam

/-! ## Lines -/

namespace Statement

variable {file : String} {ts rest : List Token} {lines : List Line}

theorem single_is_iff {p : Parse Statement} {loc : Location} :
    (Reading.single loc (p file ts)).Is lines rest ↔ ∃ s, lines = [⟨loc, s⟩] ∧ Reads p file ts s rest := by
  constructor
  · rintro ⟨hlines, last, hlast, rfl⟩
    unfold Reading.single at hlines hlast
    split at hlines
    · rename_i s last' hp
      rw [hp] at hlast
      cases hlast
      exact ⟨s, hlines.symm, last, hp, rfl⟩
    · rename_i err hp
      rw [hp] at hlast
      cases hlast
  · rintro ⟨s, rfl, hread⟩
    exact single_is hread loc

/-- Items of data are one item, or one before a comma and more of them. -/
theorem dataItems_is_iff {word : Bool} :
    (dataItems word file ts).Is lines rest ↔ ∃ item more, Reads (dataItem word) file ts item more ∧
      ((front more ≠ .comma ∧ lines = [item] ∧ rest = more) ∨
        ∃ line more' lines', more = ⟨.comma, line⟩ :: more' ∧
          (dataItems word file more').Is lines' rest ∧ lines = item :: lines') := by
  constructor
  · intro h
    rw [dataItems] at h
    -- items of data end in an error, or go on behind a comma, or are over
    split at h
    · obtain ⟨-, last, hlast, -⟩ := h
      cases hlast
    · rename_i item line more hle hitem
      obtain ⟨hlines, last, hlast, rfl⟩ := h
      dsimp only at hlines hlast
      split at hlast
      · rename_i last' hmore
        cases hlast
        exact ⟨item, _, ⟨_, hitem, rfl⟩, .inr ⟨line, more, _, rfl, ⟨rfl, last', hmore, rfl⟩, hlines.symm⟩⟩
      · cases hlast
    · rename_i item more hne hitem
      obtain ⟨hlines, last, hlast, rfl⟩ := h
      cases hlast
      refine ⟨item, _, ⟨_, hitem, rfl⟩, .inl ⟨fun hfront => ?_, hlines.symm, rfl⟩⟩
      obtain ⟨_ | ⟨t, ts'⟩, hle⟩ := more
      · cases hfront
      · exact hne t.line ts' hle (Subtype.ext (congrArg (⟨·, t.line⟩ :: ts') hfront))
  · rintro ⟨item, more, ⟨⟨_, hle⟩, hitem, rfl⟩, ⟨hfront, rfl, rfl⟩ |
      ⟨line, more', lines', rfl, ⟨rfl, last, hlast, rfl⟩, rfl⟩⟩
    · rw [dataItems, hitem]
      split
      · rename_i heq
        cases heq
      · rename_i heq
        cases heq
        exact absurd rfl hfront
      · rename_i heq
        cases heq
        exact ⟨rfl, _, rfl, rfl⟩
    · rw [dataItems, hitem]
      simp only [hlast]
      exact ⟨rfl, _, rfl, rfl⟩

/-- Repeated data is a count and items. -/
theorem repeatedItems_is_iff {word : Bool} {loc : Location} :
    (repeatedItems word loc file ts).Is lines rest ↔ ∃ count more items,
      Reads dataCount file ts count more ∧ (dataItems word file more).Is items rest ∧
        lines = ⟨loc, .openRepeat count⟩ :: items ++ [⟨loc, .closeRepeat⟩] := by
  constructor
  · intro h
    unfold repeatedItems at h
    split at h
    · obtain ⟨-, last, hlast, -⟩ := h
      cases hlast
    · rename_i count more hcount
      dsimp only at h
      split at h
      · obtain ⟨-, last, hlast, -⟩ := h
        cases hlast
      · rename_i last' hitems
        obtain ⟨hlines, last, hlast, rfl⟩ := h
        cases hlast
        exact ⟨count, _, _, ⟨more, hcount, rfl⟩, ⟨rfl, last', hitems, rfl⟩, hlines.symm⟩
  · rintro ⟨count, _, items, ⟨⟨_, hle⟩, hcount, rfl⟩, ⟨rfl, last, hlast, rfl⟩, rfl⟩
    rw [repeatedItems, hcount]
    simp only [hlast]
    exact ⟨rfl, _, rfl, rfl⟩

end Statement

namespace Seam

open Statement

variable {J : Seam} {ts ts' : List Token}

/-- What the reading comes to, the other comes to as well: lines that are alike, and
tokens that are joined. -/
def CarriesLines (J : Seam) (r : Reading ts) (r' : Reading ts') : Prop :=
  ∀ ⦃lines rest⦄, r.Is lines rest → ∃ lines' rest', r'.Is lines' rest' ∧
    List.Forall₂ (Line.Alike fun _ _ => J.names) lines lines' ∧ J.Joined rest rest'

theorem carriesLines_single {p p' : Parse Statement} (loc loc' : Location)
    (h : J.Carries (Statement.Alike J.names) p p' ts ts') :
    J.CarriesLines (.single loc (p J.file ts)) (.single loc' (p' J.file' ts')) := by
  intro lines rest hread
  obtain ⟨s, rfl, hs⟩ := single_is_iff.mp hread
  obtain ⟨s', rest', hread', halike, hrest⟩ := h hs
  exact ⟨_, rest', single_is hread' loc', .cons halike .nil, hrest⟩

theorem carriesLines_dataItems (word : Bool) (h : J.Joined ts ts') :
    J.CarriesLines (dataItems word J.file ts) (dataItems word J.file' ts') := by
  intro lines rest hread
  induction hn : ts.length using Nat.strongRecOn generalizing ts ts' lines with
  | ind n ih =>
  obtain ⟨item, more, hitem, hend | hmore⟩ := dataItems_is_iff.mp hread
  · obtain ⟨hfront, rfl, rfl⟩ := hend
    obtain ⟨item', more', hitem', halike, hmore⟩ := carries_dataItem word h hitem
    have hfront' : front more' ≠ .comma :=
      fun h' => hfront ((hmore.front_eq_iff isInner_comma).mpr h')
    exact ⟨[item'], more', dataItems_is_iff.mpr ⟨item', more', hitem', .inl ⟨hfront', rfl, rfl⟩⟩,
      .cons halike .nil, hmore⟩
  · obtain ⟨line, more, lines, rfl, hlines, rfl⟩ := hmore
    obtain ⟨item', _, hitem', halike, hcomma⟩ := carries_dataItem word h hitem
    obtain ⟨line', more', rfl, hmore⟩ := hcomma.of_cons nofun nofun
    -- an item and the comma behind it are taken, so the list ahead is shorter
    have hlt : more.length < n := by
      have hle := hitem.length_le
      rw [List.length_cons] at hle
      omega
    obtain ⟨lines', rest', hlines', hall, hrest⟩ := ih _ hlt hmore hlines rfl
    exact ⟨item' :: lines', rest',
      dataItems_is_iff.mpr ⟨item', _, hitem', .inr ⟨line', more', lines', rfl, hlines', rfl⟩⟩,
      .cons halike hall, hrest⟩

theorem carriesLines_repeatedItems (word : Bool) (loc loc' : Location) (h : J.Joined ts ts') :
    J.CarriesLines (repeatedItems word loc J.file ts) (repeatedItems word loc' J.file' ts') := by
  intro lines rest hread
  obtain ⟨count, more, items, hcount, hitems, rfl⟩ := repeatedItems_is_iff.mp hread
  obtain ⟨count', more', hcount', hops, hmore⟩ := carries_dataCount h hcount
  obtain ⟨items', rest', hitems', hall, hrest⟩ := carriesLines_dataItems word hmore hitems
  refine ⟨_, rest', repeatedItems_is_iff.mpr ⟨count', more', items', hcount', hitems', rfl⟩, ?_, hrest⟩
  exact List.rel_append (.cons (.openRepeat hops) hall) (.cons .closeRepeat .nil)

theorem carriesLines_directiveLines (loc loc' : Location) {name : String}
    (hname : ¬(Lexeme.directive name).includes) (h : J.Joined ts ts') :
    J.CarriesLines (directiveLines loc name J.file ts) (directiveLines loc' name J.file' ts') := by
  unfold directiveLines
  split
  · exact carriesLines_dataItems false h
  · exact carriesLines_dataItems true h
  · exact carriesLines_repeatedItems false loc loc' h
  · exact carriesLines_repeatedItems true loc loc' h
  · exact carriesLines_single loc loc' (carries_directiveAfter loc loc' hname h)

/-- The lines of a statement, from its first token on. -/
theorem carriesLines_linesAfter {l : Lexeme} (hl : ¬l.includes) (line line' : Nat)
    (h : J.Joined ts ts') :
    J.CarriesLines (linesAfter ⟨l, line⟩ J.file ts) (linesAfter ⟨l, line'⟩ J.file' ts') := by
  cases l with
  | directive name => exact carriesLines_directiveLines _ _ hl h
  | label name =>
      rintro lines rest ⟨rfl, last, hlast, rfl⟩
      cases hlast
      exact ⟨_, ts', ⟨rfl, .all ts', rfl, rfl⟩, .cons .label .nil, h⟩
  | word name => exact carriesLines_single _ _ (carries_assignmentAfter name h)
  | pc => exact carriesLines_single _ _ (carries_assignmentAfter pcName h)
  | mnemonic m => exact carriesLines_single _ _ (carries_instructionAfter m h)
  | _ =>
      rintro lines rest ⟨-, last, hlast, -⟩
      cases hlast

/-- The line that includes a binary file. -/
theorem carriesLines_binary {name name' : String} {bytes bytes' : List UInt8}
    {line line' nameLine nameLine' : Nat} (hname : J.names name name') (h : J.Joined ts ts') :
    J.CarriesLines
      (linesAfter ⟨.directive "INCBIN", line⟩ J.file (⟨.string name bytes, nameLine⟩ :: ts))
      (linesAfter ⟨.directive "INCBIN", line'⟩ J.file' (⟨.string name' bytes', nameLine'⟩ :: ts')) :=
  carriesLines_single _ _ (carries_binaryAfter _ _ hname h)

end Seam

/-! ## Files -/

/-- A statement is read, and the lines after it. -/
theorem readLines_of_is {file : String} {done : List Line} {t : Token} {ts rest : List Token}
    {lines : List Line} (hend : t.lexeme ≠ .endOfFile) (h : (Statement.linesAfter t file ts).Is lines rest) :
    readLines file done (t :: ts) = readLines file (lines.reverse ++ done) rest := by
  obtain ⟨rfl, last, hlast, rfl⟩ := h
  rw [readLines, if_neg hend]
  simp only [hlast]

/-- What is read without fault starts with a statement. -/
theorem exists_is_of_readLines {file : String} {done all : List Line} {t : Token} {ts : List Token}
    (hend : t.lexeme ≠ .endOfFile) (h : readLines file done (t :: ts) = (all, none)) :
    ∃ lines rest, (Statement.linesAfter t file ts).Is lines rest := by
  rw [readLines, if_neg hend] at h
  dsimp only at h
  split at h
  · cases h
  · rename_i last hlast
    exact ⟨_, _, rfl, last, hlast, rfl⟩

namespace Seam

variable {J : Seam} {ts ts' : List Token}

/-- The first statement up to the seam. -/
theorem Joined.cases_statement (h : J.Joined ts ts') {done all : List Line}
    (hread : readLines J.file done ts = (all, none)) :
    (ts = J.tokens ∧ ts' = J.tokens') ∨ ∃ t more t' more', ts = t :: more ∧ ts' = t' :: more' ∧
      t.lexeme = t'.lexeme ∧ t.lexeme ≠ .endOfFile ∧
      J.CarriesLines (Statement.linesAfter t J.file more) (Statement.linesAfter t' J.file' more') := by
  cases h with
  | seam => exact .inl ⟨rfl, rfl⟩
  | token hend hplain h =>
      exact .inr ⟨_, _, _, _, rfl, rfl, rfl, hend, carriesLines_linesAfter hplain _ _ h⟩
  | binary hname h => exact .inr ⟨_, _, _, _, rfl, rfl, rfl, nofun, carriesLines_binary hname h⟩

/-- Statements up to the seam are read alike on both sides. -/
theorem readLines_joined (h : J.Joined ts ts') {done all : List Line}
    (hread : readLines J.file done ts = (all, none)) :
    ∃ lines lines', readLines J.file done ts = readLines J.file (lines.reverse ++ done) J.tokens ∧
      (∀ done', readLines J.file' done' ts' = readLines J.file' (lines'.reverse ++ done') J.tokens') ∧
      List.Forall₂ (Line.Alike fun _ _ => J.names) lines lines' := by
  induction hn : ts.length using Nat.strongRecOn generalizing ts ts' done with
  | ind n ih =>
  obtain ⟨rfl, rfl⟩ | ⟨t, more, t', more', rfl, rfl, hsame, hend, hcarries⟩ := h.cases_statement hread
  · exact ⟨[], [], rfl, fun _ => rfl, .nil⟩
  · obtain ⟨lines, rest, his⟩ := exists_is_of_readLines hend hread
    obtain ⟨lines', rest', his', halike, hrest⟩ := hcarries his
    rw [readLines_of_is hend his] at hread ⊢
    have hlt : rest.length < n := by
      obtain ⟨-, last, -, rfl⟩ := his
      have hle := last.property
      rw [List.length_cons] at hn
      omega
    obtain ⟨later, later', hlater, hlater', hall⟩ := ih _ hlt hrest hread rfl
    refine ⟨lines ++ later, lines' ++ later', ?_, fun done' => ?_, List.rel_append halike hall⟩
    · rw [hlater, List.reverse_append, List.append_assoc]
    · rw [readLines_of_is (hsame ▸ hend) his', hlater', List.reverse_append, List.append_assoc]

/-- A statement begins on the other side as well. -/
theorem Joined.begins (h : J.Joined ts ts') {done all : List Line}
    (hread : readLines J.file done ts = (all, none)) : Begins ts' := by
  cases h with
  | seam => exact J.begins
  | binary => trivial
  | @token l line line' more more' hend _ h =>
      obtain ⟨lines, rest, his⟩ := exists_is_of_readLines hend hread
      -- a name is read as what is assigned to
      have hassign : ∀ {name : String}, (∃ s, lines = [⟨⟨J.file, line⟩, s⟩] ∧
          Reads (Statement.assignmentAfter name) J.file more s rest) → front more' = .assign := by
        rintro name ⟨s, -, hs⟩
        obtain ⟨_, _, hexpect, -⟩ := hs.of_bind
        obtain ⟨_, rfl⟩ := hexpect.of_expect nofun
        exact (h.front_eq_iff isInner_assign).mp rfl
      cases l with
      | word name => exact hassign (Statement.single_is_iff.mp his)
      | pc => exact hassign (Statement.single_is_iff.mp his)
      | label | mnemonic | directive | endOfFile => trivial
      | _ =>
          obtain ⟨-, last, hlast, -⟩ := his
          cases hlast

end Seam

end Mos6510
