import Mos6510.Proofs.Message
import Mos6510.Statement.Parser

/-!
# What parsing yields

Every expression of a statement that was read is in postfix order: its
actions are those of an expression tree.  And all names of a statement are
names of the tokens that it was read from.

`Parse.Gives N p Q` says that from tokens whose names satisfy `N` the parser
`p` yields what satisfies `Q`, and leaves such tokens.  The main facts are
`linesOf_over` and, with nothing asked of names, `linesOf_sound`.

The other way round, `Parse.Reads` says what a parser makes of tokens that are
written out.
-/

namespace Mos6510

/-! ## Sound statements -/

/-- The argument of a message is a text, or an expression in postfix order. -/
def MessageArg.Sound : MessageArg → Prop
  | .text _ => True
  | .expr acts => IsExpr acts

/-- An operand has an expression in postfix order, or none. -/
def Operand.Sound (o : Operand) : Prop := o.expr = [] ∨ IsExpr o.expr

/-- All expressions of a statement are in postfix order. -/
def Statement.Sound : Statement → Prop
  | .assign _ expr => IsExpr expr
  | .instruction _ operand => operand.Sound
  | .data _ expr => IsExpr expr
  | .openIf cond => IsExpr cond
  | .elseIf cond => IsExpr cond
  | .openRepeat count => IsExpr count
  | .openWhile cond => IsExpr cond
  | .call _ args => ∀ arg ∈ args, IsExpr arg
  | .message _ _ args => ∀ arg ∈ args, arg.Sound
  | .includeBinary _ skip length => IsExpr skip ∧ IsExpr length
  | _ => True

def Line.Sound (l : Line) : Prop := l.statement.Sound

/-! ## Names -/

/-- The names of an expression, from left to right. -/
def Expr.names : Expr → List String
  | number _ _ => []
  | symbol _ name => [name]
  | unary _ _ x => x.names
  | binary _ _ x y => x.names ++ y.names

section

variable (N : String → Prop)

/-- The actions are those of an expression over certain names. -/
def IsExprOver (acts : List Action) : Prop := ∃ x : Expr, acts = x.actions ∧ ∀ n ∈ x.names, N n

/-- A text, or an expression over certain names. -/
def MessageArg.Over : MessageArg → Prop
  | .text _ => True
  | .expr acts => IsExprOver N acts

/-- An operand over certain names.  Only an implied one has no expression. -/
def Operand.Over (o : Operand) : Prop :=
  (o.form = .implied ∧ o.expr = []) ∨ (o.form ≠ .implied ∧ IsExprOver N o.expr)

/-- A statement over certain names. -/
def Statement.Over : Statement → Prop
  | .assign name expr => N name ∧ IsExprOver N expr
  | .label name => N name
  | .instruction _ operand => operand.Over N
  | .data _ expr => IsExprOver N expr
  | .openIf cond => IsExprOver N cond
  | .elseIf cond => IsExprOver N cond
  | .openRepeat count => IsExprOver N count
  | .openWhile cond => IsExprOver N cond
  | .openMacro name params => N name ∧ ∀ p ∈ params, N p
  | .call name args => N name ∧ ∀ arg ∈ args, IsExprOver N arg
  | .metaLabel name => N name
  | .goto name => N name
  | .message _ _ args => ∀ arg ∈ args, arg.Over N
  | .includeBinary _ skip length => IsExprOver N skip ∧ IsExprOver N length
  | _ => True

/-- The statement of the line is over certain names. -/
def Line.Over (l : Line) : Prop := l.statement.Over N

/-- If the lexeme is or places a name, then one of certain names. -/
def Lexeme.Over : Lexeme → Prop
  | .word name => N name
  | .label name => N name
  | _ => True

/-- All names of the tokens are among certain names. -/
def TokensOver (ts : List Token) : Prop := ∀ t ∈ ts, t.lexeme.Over N

end

section

variable {N : String → Prop}

theorem IsExprOver.isExpr {acts : List Action} (h : IsExprOver N acts) : IsExpr acts := by
  obtain ⟨x, rfl, -⟩ := h
  exact ⟨x, rfl⟩

theorem Operand.Over.sound {o : Operand} (h : o.Over N) : o.Sound := by
  rcases h with ⟨-, hnone⟩ | ⟨-, hexpr⟩
  · exact .inl hnone
  · exact .inr hexpr.isExpr

theorem Statement.Over.sound {s : Statement} (h : s.Over N) : s.Sound := by
  cases s with
  | assign name expr => exact h.2.isExpr
  | instruction mnemonic operand => exact Operand.Over.sound h
  | call name args => exact fun arg harg => (h.2 arg harg).isExpr
  | message level formatted args =>
      intro arg harg
      have hover := h arg harg
      cases arg with
      | text s => trivial
      | expr acts => exact IsExprOver.isExpr hover
  | includeBinary name skip length => exact ⟨h.1.isExpr, h.2.isExpr⟩
  | data | openIf | elseIf | openRepeat | openWhile => exact IsExprOver.isExpr h
  | _ => trivial

theorem TokensOver.nil : TokensOver N [] := fun _ h => absurd h List.not_mem_nil

theorem TokensOver.tail {ts : List Token} (h : TokensOver N ts) : TokensOver N ts.tail :=
  fun t ht => h t (List.mem_of_mem_tail ht)

theorem tokensOver_cons {t : Token} {ts : List Token} :
    TokensOver N (t :: ts) ↔ t.lexeme.Over N ∧ TokensOver N ts :=
  List.forall_mem_cons

end

/-! ## Parsers -/

namespace Parse

variable {N : String → Prop} {α β : Type}

/-- From tokens over certain names the parser yields what has a property, and
leaves such tokens. -/
def Gives (N : String → Prop) (p : Parse α) (Q : α → Prop) : Prop :=
  ∀ ⦃file ts a rest⦄, TokensOver N ts → p file ts = .ok (a, rest) → Q a ∧ TokensOver N rest.val

theorem gives_pure {Q : α → Prop} {a : α} (h : Q a) : Gives N (pure a) Q := by
  intro file ts b rest hts hp
  cases hp
  exact ⟨h, hts⟩

theorem gives_failAt {Q : α → Prop} (loc : Location) (err : Error) :
    Gives N (failAt loc err) Q := by
  intro file ts a rest hts hp
  cases hp

theorem gives_fail {Q : α → Prop} (err : Error) : Gives N (fail err) Q := by
  intro file ts a rest hts hp
  cases hp

theorem bind_eq_ok {p : Parse α} {f : α → Parse β} {file : String} {ts : List Token} {b : β}
    {rest : Tail ts} (h : (p >>= f) file ts = .ok (b, rest)) :
    ∃ a more last, p file ts = .ok (a, more) ∧ f a file more.val = .ok (b, last) ∧
      rest.val = last.val := by
  simp only [Bind.bind] at h
  split at h
  · cases h
  · rename_i a more ha
    split at h
    · cases h
    · rename_i b' last hb
      cases h
      exact ⟨a, more, last, ha, hb, rfl⟩

theorem Gives.bind {Q : α → Prop} {Q' : β → Prop} {p : Parse α} {f : α → Parse β}
    (hp : Gives N p Q) (hf : ∀ a, Q a → Gives N (f a) Q') : Gives N (p >>= f) Q' := by
  intro file ts b rest hts h
  obtain ⟨a, more, last, ha, hb, hrest⟩ := bind_eq_ok h
  obtain ⟨hqa, hmore⟩ := hp hts ha
  rw [hrest]
  exact hf a hqa hmore hb

/-- What comes first matters for the tokens that it leaves only. -/
theorem Gives.next {Q : α → Prop} {Q' : β → Prop} {p : Parse α} {f : α → Parse β}
    (hp : Gives N p Q) (hf : ∀ a, Gives N (f a) Q') : Gives N (p >>= f) Q' :=
  hp.bind fun a _ => hf a

theorem gives_ite {Q : α → Prop} {c : Prop} [Decidable c] {p q : Parse α} (hp : Gives N p Q)
    (hq : Gives N q Q) : Gives N (if c then p else q) Q := by
  split
  · exact hp
  · exact hq

theorem gives_peek : Gives N peek (·.Over N) := by
  intro file ts l rest hts hp
  cases hp
  refine ⟨?_, hts⟩
  cases ts with
  | nil => trivial
  | cons t rest => exact hts t List.mem_cons_self

theorem gives_peekSecond : Gives N peekSecond fun _ => True := by
  intro file ts l rest hts hp
  cases hp
  exact ⟨trivial, hts⟩

theorem gives_here : Gives N here fun _ => True := by
  intro file ts l rest hts hp
  cases hp
  exact ⟨trivial, hts⟩

theorem gives_next : Gives N next fun _ => True := by
  intro file ts u rest hts hp
  cases hp
  cases ts with
  | nil => exact ⟨trivial, hts⟩
  | cons t rest => exact ⟨trivial, hts.tail⟩

theorem gives_accept (l : Lexeme) : Gives N (accept l) fun _ => True :=
  gives_peek.next fun _ =>
    gives_ite (gives_next.next fun _ => gives_pure trivial) (gives_pure trivial)

theorem gives_expect (l : Lexeme) (missing : Error) : Gives N (expect l missing) fun _ => True :=
  gives_peek.next fun _ => gives_ite gives_next (gives_fail _)

theorem gives_identifier : Gives N identifier N := by
  refine gives_peek.bind fun l hl => ?_
  split
  · exact gives_next.next fun _ => gives_pure hl
  · exact gives_fail _

theorem gives_quoted : Gives N quoted fun _ => True := by
  refine gives_peek.bind fun l hl => ?_
  split
  · exact gives_next.next fun _ => gives_pure trivial
  · exact gives_fail _

/-- Items after commas have what each item has. -/
theorem gives_afterCommas {Q : α → Prop} {item : Parse α} (hitem : Gives N item Q) :
    Gives N (afterCommas item) fun as => ∀ a ∈ as, Q a := by
  intro file ts as rest hts h
  fun_induction afterCommas item file ts generalizing as with
  | case1 line rest' err herr => cases h
  | case2 line rest' a more ha err herr => cases h
  | case3 line rest' a more ha as' last hlast ih =>
      cases h
      obtain ⟨hqa, hmore⟩ := hitem hts.tail ha
      obtain ⟨hqas, hlast⟩ := ih hmore hlast
      exact ⟨List.forall_mem_cons.mpr ⟨hqa, hqas⟩, hlast⟩
  | case4 ts hne =>
      cases h
      exact ⟨fun a ha => absurd ha List.not_mem_nil, hts⟩

end Parse

/-! ## Expressions -/

namespace Expr

open Parse

variable {N : String → Prop}

/-- What reading tokens up to a size comes to: an expression over their names,
and tokens left over such names. -/
structure ReadsOver (N : String → Prop) (file : String) (size : Nat) : Prop where
  operand : ∀ {ts : List Token} {x : Expr} {rest : Tail ts}, 2 * ts.length < size →
    TokensOver N ts → operand file ts = .ok (x, rest) → (∀ n ∈ x.names, N n) ∧ TokensOver N rest.val
  climb : ∀ {prio : Nat} {ts : List Token} {x : Expr} {rest : Tail ts}, 2 * ts.length + 1 < size →
    TokensOver N ts → climb prio file ts = .ok (x, rest) →
      (∀ n ∈ x.names, N n) ∧ TokensOver N rest.val
  extend : ∀ {prio : Nat} {x y : Expr} {ts : List Token} {rest : Tail ts}, 2 * ts.length < size →
    (∀ n ∈ x.names, N n) → TokensOver N ts → extend prio x file ts = .ok (y, rest) →
      (∀ n ∈ y.names, N n) ∧ TokensOver N rest.val

/-- Expressions have their names from the tokens that they are read from. -/
theorem readsOver (hpc : N pcName) (file : String) (size : Nat) : ReadsOver N file size := by
  induction size using Nat.strongRecOn with
  | ind size ih =>
  -- `operand`, `climb` and `extend` call each other on fewer tokens, so all three at once
  constructor
  · intro ts x rest hsize hts h
    rw [Expr.operand.eq_def] at h
    split at h
    · split at h
      · cases h
      · split at h
        · cases h
        · rename_i y last hy
          cases h
          rw [List.length_cons] at hsize
          have hover := (ih _ hsize).operand (by omega) (tokensOver_cons.mp hts).2 hy
          exact hover
    · cases h
      exact ⟨fun _ h => absurd h List.not_mem_nil, hts.tail⟩
    · cases h
      exact ⟨fun n hn => by rw [List.mem_singleton.mp hn]; exact (tokensOver_cons.mp hts).1, hts.tail⟩
    · cases h
      exact ⟨fun n hn => by rw [List.mem_singleton.mp hn]; exact hpc, hts.tail⟩
    · split at h
      · cases h
      · rename_i y more hy
        split at h
        · cases h
        · rename_i last hclose
          cases h
          rw [List.length_cons] at hsize
          obtain ⟨hnames, hmore⟩ := (ih _ hsize).climb (by omega) (tokensOver_cons.mp hts).2 hy
          exact ⟨hnames, (gives_expect _ _ hmore hclose).2⟩
    · cases h
  · intro prio ts x rest hsize hts h
    rw [Expr.climb.eq_def] at h
    split at h
    · cases h
    · rename_i y more hy
      split at h
      · cases h
      · rename_i z last hz
        cases h
        have := more.property
        obtain ⟨hnames, hmore⟩ := (ih _ hsize).operand (by omega) hts hy
        have hover := (ih _ hsize).extend (by omega) hnames hmore hz
        exact hover
  · intro prio x y ts rest hsize hx hts h
    rw [Expr.extend.eq_def] at h
    split at h
    · cases h
      exact ⟨hx, hts⟩
    · split at h
      · cases h
        exact ⟨hx, hts⟩
      · split at h
        · cases h
        · rename_i z after hz
          split at h
          · cases h
          · rename_i w last hw
            cases h
            have := after.property
            rw [List.length_cons] at hsize
            obtain ⟨hnames, hafter⟩ := (ih _ hsize).climb (by omega) (tokensOver_cons.mp hts).2 hz
            have hover := fun hboth => (ih _ hsize).extend (by omega) hboth hafter hw
            exact hover (List.forall_mem_append.mpr ⟨hx, hnames⟩)

end Expr

namespace Parse

variable {N : String → Prop}

theorem gives_expression (hpc : N pcName) : Gives N expression (IsExprOver N) := by
  refine Gives.bind (Q := fun x => ∀ n ∈ x.names, N n) ?_ fun x hx => gives_pure ⟨x, rfl, hx⟩
  intro file ts x rest hts h
  exact (Expr.readsOver hpc file (2 * ts.length + 2)).climb (by omega) hts h

end Parse

/-! ## Statements -/

namespace Statement

open Parse

variable {N : String → Prop} (hpc : N pcName)

theorem gives_startsNext : Gives N startsNext fun _ => True := by
  refine gives_peek.next fun l => ?_
  split
  · exact gives_pure trivial
  · exact gives_pure trivial
  · exact gives_pure trivial
  · exact gives_pure trivial
  · exact gives_pure trivial
  · exact gives_peekSecond.next fun _ => gives_pure trivial
  · exact gives_peekSecond.next fun _ => gives_pure trivial
  · exact gives_pure trivial

include hpc

theorem gives_indirectOperand : Gives N indirectOperand (Operand.Over N) := by
  refine (gives_expression hpc).bind fun e he => (gives_accept _).next fun b => gives_ite ?_ ?_
  · refine (gives_expect _ _).next fun _ => (gives_expect _ _).next fun _ => ?_
    exact gives_pure (.inr ⟨nofun, he⟩)
  · refine (gives_expect _ _).next fun _ => (gives_accept _).next fun b => gives_ite ?_ ?_
    · exact (gives_expect _ _).next fun _ => gives_pure (.inr ⟨nofun, he⟩)
    · exact gives_pure (.inr ⟨nofun, he⟩)

theorem gives_directOperand : Gives N directOperand (Operand.Over N) := by
  refine (gives_expression hpc).bind fun e he => (gives_accept _).next fun b => gives_ite ?_ ?_
  · refine (gives_accept _).next fun b => gives_ite (gives_pure (.inr ⟨nofun, he⟩)) ?_
    exact (gives_accept _).next fun b => gives_ite (gives_pure (.inr ⟨nofun, he⟩)) (gives_fail _)
  · exact gives_pure (.inr ⟨nofun, he⟩)

theorem gives_operand (m : Mnemonic) : Gives N (operand m) (Operand.Over N) := by
  have hexpr : ∀ form, form ≠ .implied →
      Gives N (do pure { form := form, expr := ← expression }) (Operand.Over N) :=
    fun form hform => (gives_expression hpc).bind fun e he => gives_pure (.inr ⟨hform, he⟩)
  have hnone : Gives N (pure {}) (Operand.Over N) := gives_pure (.inl ⟨rfl, rfl⟩)
  refine (gives_accept _).next fun b => gives_ite (hexpr _ nofun) (gives_ite (hexpr _ nofun) ?_)
  refine gives_startsNext.next fun b => gives_ite hnone ?_
  refine gives_peek.next fun l => gives_ite (gives_next.next fun _ => hnone) ?_
  exact (gives_accept _).next fun b =>
    gives_ite (gives_indirectOperand hpc) (gives_directOperand hpc)

theorem gives_instructionAfter (m : Mnemonic) : Gives N (instructionAfter m) (Statement.Over N) :=
  (gives_operand hpc m).bind fun _ h => gives_pure h

theorem gives_assignmentAfter {name : String} (hname : N name) :
    Gives N (assignmentAfter name) (Statement.Over N) :=
  (gives_expect _ _).next fun _ => (gives_expression hpc).bind fun _ h => gives_pure ⟨hname, h⟩

omit hpc in
theorem gives_parameter (loc : Location) : Gives N (parameter loc) N :=
  gives_identifier.bind fun _ h => gives_ite (gives_failAt _ _) (gives_pure h)

omit hpc in
theorem gives_macroAfter (loc : Location) : Gives N (macroAfter loc) (Statement.Over N) :=
  gives_identifier.bind fun _ hname =>
    Gives.bind (gives_afterCommas (gives_parameter loc)) fun _ h => gives_pure ⟨hname, h⟩

theorem gives_callAfter : Gives N callAfter (Statement.Over N) :=
  gives_identifier.bind fun _ hname =>
    Gives.bind (gives_afterCommas (gives_expression hpc)) fun _ h => gives_pure ⟨hname, h⟩

theorem gives_binaryAfter (loc : Location) : Gives N (binaryAfter loc) (Statement.Over N) := by
  have hnumber : ∀ v, IsExprOver N [Action.load loc v] :=
    fun v => ⟨.number loc v, rfl, fun _ h => absurd h List.not_mem_nil⟩
  refine gives_quoted.next fun name => (gives_accept _).next fun b => gives_ite ?_ ?_
  · refine (gives_expression hpc).bind fun skip hskip => (gives_accept _).next fun b =>
      gives_ite ?_ ?_
    · exact (gives_expression hpc).bind fun length hlength => gives_pure ⟨hskip, hlength⟩
    · exact gives_pure ⟨hskip, hnumber _⟩
  · exact gives_pure ⟨hnumber _, hnumber _⟩

theorem gives_messageArg : Gives N messageArg (MessageArg.Over N) := by
  refine gives_peek.next fun l => ?_
  split
  · exact gives_next.next fun _ => gives_pure trivial
  · exact (gives_expression hpc).bind fun _ h => gives_pure h

theorem gives_messageAfter (loc : Location) (level : Level) (formatted : Bool) :
    Gives N (messageAfter loc level formatted) (Statement.Over N) := by
  refine gives_peek.next fun l => gives_ite (gives_failAt _ _) ?_
  refine (gives_messageArg hpc).bind fun arg harg => ?_
  refine Gives.bind (gives_afterCommas (gives_messageArg hpc)) fun args hargs => gives_pure ?_
  exact List.forall_mem_cons.mpr ⟨harg, hargs⟩

theorem gives_directiveAfter (loc : Location) (name : String) :
    Gives N (directiveAfter loc name) (Statement.Over N) := by
  have hexpr : ∀ {f : List Action → Statement}, (∀ acts, IsExprOver N acts → (f acts).Over N) →
      Gives N (do pure (f (← expression))) (Statement.Over N) :=
    fun h => (gives_expression hpc).bind fun acts hacts => gives_pure (h acts hacts)
  unfold directiveAfter
  split
  · exact hexpr fun _ h => h
  · exact hexpr fun _ h => h
  · exact gives_pure trivial
  · exact gives_pure trivial
  · exact hexpr fun _ h => h
  · exact gives_pure trivial
  · exact hexpr fun _ h => h
  · exact gives_pure trivial
  · exact gives_macroAfter loc
  · exact gives_pure trivial
  · exact gives_callAfter hpc
  · exact gives_identifier.bind fun _ h => gives_pure h
  · exact gives_identifier.bind fun _ h => gives_pure h
  · exact gives_quoted.next fun _ => gives_pure trivial
  · exact gives_binaryAfter hpc loc
  · exact gives_messageAfter hpc loc _ _
  · exact gives_messageAfter hpc loc _ _
  · exact gives_messageAfter hpc loc _ _
  · exact gives_messageAfter hpc loc _ _
  · exact gives_messageAfter hpc loc _ _
  · exact gives_messageAfter hpc loc _ _
  · exact gives_failAt _ _

/-! ## Lines -/

omit hpc

/-- All lines of a reading are over certain names, and so are the tokens left. -/
structure Reading.Over (N : String → Prop) {ts : List Token} (r : Reading ts) : Prop where
  lines : ∀ l ∈ r.lines, l.Over N
  rest : ∀ last, r.rest = .ok last → TokensOver N last.val

theorem single_over {p : Parse Statement} (h : Gives N p (Statement.Over N)) (loc : Location)
    (file : String) {ts : List Token} (hts : TokensOver N ts) :
    (Reading.single loc (p file ts)).Over N := by
  unfold Reading.single
  split
  · rename_i s rest hp
    obtain ⟨hs, hrest⟩ := h hts hp
    constructor
    · intro l hl
      obtain rfl := List.mem_singleton.mp hl
      exact hs
    · rintro last hlast
      cases hlast
      exact hrest
  · exact ⟨fun l hl => absurd hl List.not_mem_nil, nofun⟩

include hpc

theorem gives_dataItem (word : Bool) : Gives N (dataItem word) (Line.Over N) := by
  refine gives_here.next fun loc => gives_peek.next fun l => ?_
  split
  · exact gives_next.next fun _ => gives_pure trivial
  · exact (gives_expression hpc).bind fun _ h => gives_pure h

theorem dataItems_over (word : Bool) (file : String) {ts : List Token} (hts : TokensOver N ts) :
    (dataItems word file ts).Over N := by
  fun_induction dataItems word file ts with
  | case1 ts err herr => exact ⟨fun l hl => absurd hl List.not_mem_nil, nofun⟩
  | case2 ts item line rest h hitem _ more ih =>
      obtain ⟨hover, hrest⟩ := gives_dataItem hpc word hts hitem
      obtain ⟨hlines, hmore⟩ := ih (tokensOver_cons.mp hrest).2
      refine ⟨List.forall_mem_cons.mpr ⟨hover, hlines⟩, fun last hlast => ?_⟩
      dsimp only at hlast
      split at hlast
      · rename_i inner hinner
        cases hlast
        exact hmore inner hinner
      · cases hlast
  | case3 ts item rest hne hitem =>
      obtain ⟨hover, hrest⟩ := gives_dataItem hpc word hts hitem
      refine ⟨List.forall_mem_cons.mpr ⟨hover, fun l hl => absurd hl List.not_mem_nil⟩, ?_⟩
      rintro last hlast
      cases hlast
      exact hrest

theorem repeatedItems_over (word : Bool) (loc : Location) (file : String) {ts : List Token}
    (hts : TokensOver N ts) : (repeatedItems word loc file ts).Over N := by
  have hcount : Gives N dataCount (IsExprOver N) :=
    (gives_expression hpc).bind fun _ h => (gives_expect _ _).next fun _ => gives_pure h
  unfold repeatedItems
  split
  · exact ⟨fun l hl => absurd hl List.not_mem_nil, nofun⟩
  · rename_i count more hp
    obtain ⟨hover, hmore⟩ := hcount hts hp
    obtain ⟨hlines, hrest⟩ := dataItems_over hpc word file hmore
    -- the count opens the repetition, which only a whole list of items closes
    have hopened : ∀ l ∈ (⟨loc, .openRepeat count⟩ :: (dataItems word file more.val).lines : List Line),
        l.Over N :=
      List.forall_mem_cons.mpr ⟨hover, hlines⟩
    dsimp only
    split
    · exact ⟨hopened, nofun⟩
    · rename_i last hlast
      refine ⟨fun l hl => ?_, ?_⟩
      · rcases List.mem_append.mp hl with hl | hl
        · exact hopened l hl
        · obtain rfl := List.mem_singleton.mp hl
          trivial
      · rintro final hfinal
        cases hfinal
        exact hrest last hlast

theorem directiveLines_over (loc : Location) (name file : String) {ts : List Token}
    (hts : TokensOver N ts) : (directiveLines loc name file ts).Over N := by
  unfold directiveLines
  split
  · exact dataItems_over hpc false file hts
  · exact dataItems_over hpc true file hts
  · exact repeatedItems_over hpc false loc file hts
  · exact repeatedItems_over hpc true loc file hts
  · exact single_over (gives_directiveAfter hpc loc _) loc file hts

theorem linesAfter_over {t : Token} (file : String) {rest : List Token} (ht : t.lexeme.Over N)
    (hrest : TokensOver N rest) : (linesAfter t file rest).Over N := by
  unfold linesAfter
  dsimp only
  split
  · exact directiveLines_over hpc _ _ file hrest
  · rename_i name hlabel
    rw [hlabel] at ht
    refine ⟨fun l hl => ?_, ?_⟩
    · obtain rfl := List.mem_singleton.mp hl
      exact ht
    · rintro last hlast
      cases hlast
      exact hrest
  · rename_i name hword
    rw [hword] at ht
    exact single_over (gives_assignmentAfter hpc ht) _ file hrest
  · exact single_over (gives_assignmentAfter hpc hpc) _ file hrest
  · exact single_over (gives_instructionAfter hpc _) _ file hrest
  · exact ⟨fun l hl => absurd hl List.not_mem_nil, nofun⟩

end Statement

theorem readLines_over {N : String → Prop} (hpc : N pcName) {file : String} {done : List Line}
    {ts : List Token} (hdone : ∀ l ∈ done, l.Over N) (hts : TokensOver N ts) :
    ∀ l ∈ (readLines file done ts).1, l.Over N := by
  have hjoin : ∀ {done : List Line} {t : Token} {rest : List Token}, (∀ l ∈ done, l.Over N) →
      TokensOver N (t :: rest) →
      ∀ l ∈ (Statement.linesAfter t file rest).lines.reverse ++ done, l.Over N := by
    intro done t rest hdone hts l hl
    rcases List.mem_append.mp hl with hl | hl
    · obtain ⟨ht, hrest⟩ := tokensOver_cons.mp hts
      exact (Statement.linesAfter_over hpc file ht hrest).lines l (List.mem_reverse.mp hl)
    · exact hdone l hl
  fun_induction readLines file done ts with
  | case1 done => exact hdone
  | case2 done t rest hend => exact hdone
  | case3 done t rest hend reading done' err herr => exact hjoin hdone hts
  | case4 done t rest hend reading done' last hlast ih =>
      obtain ⟨ht, hrest⟩ := tokensOver_cons.mp hts
      exact ih (hjoin hdone hts) ((Statement.linesAfter_over hpc file ht hrest).rest last hlast)

/-- All lines that are read from a file are over the names of its tokens. -/
theorem linesOf_over {N : String → Prop} (hpc : N pcName) (file : String) {ts : List Token}
    (hts : TokensOver N ts) : ∀ l ∈ (linesOf file ts).1, l.Over N := by
  intro l hl
  exact readLines_over hpc (fun l hl => absurd hl List.not_mem_nil) hts l (List.mem_reverse.mp hl)

/-- All lines that are read from a file are sound. -/
theorem linesOf_sound (file : String) (ts : List Token) : ∀ l ∈ (linesOf file ts).1, l.Sound := by
  intro l hl
  have hts : TokensOver (fun _ => True) ts := by
    rintro ⟨lexeme, line⟩ -
    cases lexeme <;> trivial
  exact Statement.Over.sound (linesOf_over trivial file hts l hl)

/-! ## Reading what is written -/

namespace Parse

variable {α β : Type} {file : String} {ts rest last : List Token} {line : Nat}

/-- From the tokens the parser reads a value, and leaves the rest of them. -/
def Reads (p : (file : String) → (ts : List Token) → Except Error (α × Tail ts)) (file : String)
    (ts : List Token) (a : α) (rest : List Token) : Prop :=
  ∃ last, p file ts = .ok (a, last) ∧ last.val = rest

theorem Reads.pure (a : α) : Reads (Pure.pure a : Parse α) file ts a ts := ⟨.all ts, rfl, rfl⟩

theorem Reads.bind {p : Parse α} {f : α → Parse β} {a : α} {b : β} (hp : Reads p file ts a rest)
    (hf : Reads (f a) file rest b last) : Reads (p >>= f) file ts b last := by
  obtain ⟨⟨_, hle⟩, hp, rfl⟩ := hp
  obtain ⟨⟨_, hle'⟩, hf, rfl⟩ := hf
  refine ⟨⟨_, Nat.le_trans hle' hle⟩, ?_, rfl⟩
  simp only [Bind.bind, hp, hf]
  rfl

theorem reads_accept (l : Lexeme) : Reads (accept l) file (⟨l, line⟩ :: ts) true ts := by
  refine ⟨.afterFirst _, ?_, rfl⟩
  simp [accept, peek, front, next, Bind.bind, Pure.pure, Tail.all, Tail.within]

theorem reads_expect (l : Lexeme) (missing : Error) :
    Reads (expect l missing) file (⟨l, line⟩ :: ts) () ts := by
  refine ⟨.afterFirst _, ?_, rfl⟩
  simp [expect, peek, front, next, Bind.bind, Tail.all, Tail.within]

theorem reads_quoted (text : String) (bytes : List UInt8) :
    Reads quoted file (⟨.string text bytes, line⟩ :: ts) text ts := by
  refine ⟨.afterFirst _, ?_, rfl⟩
  simp [quoted, peek, front, next, Bind.bind, Pure.pure, Tail.all, Tail.within]

end Parse

namespace Expr

open Parse

variable {file : String} {ts rest last : List Token} {line : Nat} {prio : Nat} {x y z : Expr}

theorem reads_number (text : String) (v : Int64) :
    Reads operand file (⟨.number text v, line⟩ :: ts) (.number ⟨file, line⟩ v) ts := by
  refine ⟨.afterFirst _, ?_, rfl⟩
  rw [operand]

theorem reads_pc : Reads operand file (⟨.pc, line⟩ :: ts) (.symbol ⟨file, line⟩ pcName) ts := by
  refine ⟨.afterFirst _, ?_, rfl⟩
  rw [operand]

theorem reads_paren {line' : Nat} (hx : Reads (climb 0) file ts x (⟨.closeParen, line'⟩ :: rest)) :
    Reads operand file (⟨.openParen, line⟩ :: ts) x rest := by
  obtain ⟨⟨_, hle⟩, hx, rfl⟩ := hx
  refine ⟨⟨rest, Nat.le_succ_of_le (Nat.le_of_succ_le hle)⟩, ?_, rfl⟩
  rw [operand, hx]
  rfl

theorem reads_extend_none (h : nextOperator? prio ts = none) :
    Reads (extend prio x) file ts x ts := by
  refine ⟨.all ts, ?_, rfl⟩
  rw [extend, h]

theorem reads_extend {t : Token} {op : BinaryOp} (h : nextOperator? prio (t :: ts) = some op)
    (hy : Reads (climb (op.priority + 1)) file ts y rest)
    (hz : Reads (extend prio (.binary ⟨file, t.line⟩ op x y)) file rest z last) :
    Reads (extend prio x) file (t :: ts) z last := by
  obtain ⟨⟨_, hle⟩, hy, rfl⟩ := hy
  obtain ⟨⟨_, hle'⟩, hz, rfl⟩ := hz
  refine ⟨⟨_, Nat.le_succ_of_le (Nat.le_trans hle' hle)⟩, ?_, rfl⟩
  rw [extend, h]
  simp only [hy, hz]
  rfl

theorem reads_climb (hx : Reads operand file ts x rest)
    (hy : Reads (extend prio x) file rest y last) : Reads (climb prio) file ts y last := by
  obtain ⟨⟨_, hle⟩, hx, rfl⟩ := hx
  obtain ⟨⟨_, hle'⟩, hy, rfl⟩ := hy
  refine ⟨⟨_, Nat.le_trans hle' hle⟩, ?_, rfl⟩
  rw [climb, hx]
  simp only [hy]
  rfl

/-- An operand by itself, where no operator follows. -/
theorem reads_alone (hx : Reads operand file ts x rest) (h : nextOperator? prio rest = none) :
    Reads (climb prio) file ts x rest :=
  reads_climb hx (reads_extend_none h)

end Expr

namespace Statement

open Parse

variable {file : String} {ts rest last : List Token} {line : Nat} {x y : Expr}

theorem reads_assignment (name : String) (hx : Reads (Expr.climb 0) file ts x rest) :
    Reads (assignmentAfter name) file (⟨.assign, line⟩ :: ts) (.assign name x.actions) rest :=
  (reads_expect _ _).bind (Reads.bind (Reads.bind hx (.pure _)) (.pure _))

/-- A part of a binary file. -/
theorem reads_binary {loc : Location} {line' line'' : Nat} (name : String) (bytes : List UInt8)
    (hx : Reads (Expr.climb 0) file ts x (⟨.comma, line''⟩ :: rest))
    (hy : Reads (Expr.climb 0) file rest y last) :
    Reads (binaryAfter loc) file (⟨.string name bytes, line⟩ :: ⟨.comma, line'⟩ :: ts)
      (.includeBinary name x.actions y.actions) last := by
  refine (reads_quoted _ _).bind ((reads_accept _).bind (Reads.bind (Reads.bind hx (.pure _)) ?_))
  exact (reads_accept _).bind (Reads.bind (Reads.bind hy (.pure _)) (.pure _))

end Statement

/-- A statement is read, and the lines after it. -/
theorem readLines_single {file : String} {done : List Line} {t : Token} {ts rest : List Token}
    {p : Parse Statement} {s : Statement} (hend : t.lexeme ≠ .endOfFile)
    (hline : Statement.linesAfter t file ts = .single ⟨file, t.line⟩ (p file ts))
    (hp : Parse.Reads p file ts s rest) :
    readLines file done (t :: ts) = readLines file (⟨⟨file, t.line⟩, s⟩ :: done) rest := by
  obtain ⟨last, hp, rfl⟩ := hp
  rw [readLines, if_neg hend]
  simp only [hline, hp]
  rfl

end Mos6510
