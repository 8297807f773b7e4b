import Mos6510.Proofs.Issue
import Mos6510.Proofs.Parsing

/-!
# Errors of a source file

Whatever is wrong with a source file, the error says where: it comes with the
line that it was found on (`Reader.actions_placed`).  None of the causes of an
error is reported as it is.
-/

namespace Mos6510

open Outcome

/-- Does the error say where it came up? -/
def Error.isPlaced (err : Error) : Bool := err.inner?.isSome

theorem Error.isPlaced_atLocation (loc : Location) (err : Error) :
    (err.atLocation loc).isPlaced = true := by
  unfold atLocation
  split
  · rename_i hlocated
    cases err with
    | located | expanding | inSource | inScript | running | inFile | onPath | inDefine | inNumeral => rfl
    | _ => cases hlocated
  · rfl

/-! ## Parsers -/

namespace Parse

variable {α β : Type}

/-- The parser fails only with errors that say where they came up. -/
def Places (p : (file : String) → (ts : List Token) → Except Error (α × Tail ts)) : Prop :=
  ∀ file ts err, p file ts = .error err → err.isPlaced = true

theorem places_pure (a : α) : Places (pure a : Parse α) := fun _ _ _ h => by cases h

theorem places_failAt (loc : Location) (err : Error) : Places (failAt loc err : Parse α) := by
  rintro file ts _ ⟨⟩
  rfl

theorem places_fail (err : Error) : Places (fail err : Parse α) := by
  rintro file ts _ ⟨⟩
  rfl

theorem Places.bind {p : Parse α} {f : α → Parse β} (hp : Places p) (hf : ∀ a, Places (f a)) :
    Places (p >>= f) := by
  intro file ts err h
  simp only [Bind.bind] at h
  split at h
  · rename_i e he
    cases h
    exact hp _ _ _ he
  · split at h
    · rename_i e he
      cases h
      exact hf _ _ _ _ he
    · cases h

theorem places_ite {c : Prop} [Decidable c] {p q : Parse α} (hp : Places p) (hq : Places q) :
    Places (if c then p else q : Parse α) := by
  by_cases hc : c
  · rwa [if_pos hc]
  · rwa [if_neg hc]

theorem places_here : Places here := fun _ _ _ h => by cases h

theorem places_peek : Places peek := fun _ _ _ h => by cases h

theorem places_peekSecond : Places peekSecond := fun _ _ _ h => by cases h

theorem places_next : Places next := fun _ _ _ h => by cases h

theorem places_accept (l : Lexeme) : Places (accept l) :=
  places_peek.bind fun _ => places_ite (places_next.bind fun _ => places_pure _) (places_pure _)

theorem places_expect (l : Lexeme) (missing : Error) : Places (expect l missing) :=
  places_peek.bind fun _ => places_ite places_next (places_fail _)

theorem places_identifier : Places identifier := by
  refine places_peek.bind fun l => ?_
  split
  · exact places_next.bind fun _ => places_pure _
  · exact places_fail _

theorem places_quoted : Places quoted := by
  refine places_peek.bind fun l => ?_
  split
  · exact places_next.bind fun _ => places_pure _
  · exact places_fail _

theorem places_afterCommas {item : Parse α} (hitem : Places item) : Places (afterCommas item) := by
  intro file ts
  fun_induction afterCommas item file ts with
  | case1 line rest err herr =>
      intro e he
      cases he
      exact hitem _ _ _ herr
  | case2 line rest a more hitem' err herr ih =>
      intro e he
      cases he
      exact ih _ herr
  | case3 => exact fun _ h => by cases h
  | case4 => exact fun _ h => by cases h

end Parse

/-! ## Expressions -/

namespace Expr

open Parse

/-- Reading tokens up to a size fails only with errors that say where. -/
structure PlacesBelow (file : String) (size : Nat) : Prop where
  operand : ∀ {ts : List Token} {err : Error}, 2 * ts.length < size →
    operand file ts = .error err → err.isPlaced = true
  climb : ∀ {prio : Nat} {ts : List Token} {err : Error}, 2 * ts.length + 1 < size →
    climb prio file ts = .error err → err.isPlaced = true
  extend : ∀ {prio : Nat} {x : Expr} {ts : List Token} {err : Error}, 2 * ts.length < size →
    extend prio x file ts = .error err → err.isPlaced = true

theorem placesBelow (file : String) (size : Nat) : PlacesBelow file size := by
  induction size using Nat.strongRecOn with
  | ind size ih =>
  -- `operand`, `climb` and `extend` call each other on fewer tokens, so all three at once
  constructor
  · intro ts err hsize h
    rw [Expr.operand.eq_def] at h
    split at h
    · rw [List.length_cons] at hsize
      split at h
      · cases h
        rfl
      · split at h
        · rename_i herr
          cases h
          exact (ih _ hsize).operand (by omega) herr
        · cases h
    · cases h
    · cases h
    · cases h
    · rw [List.length_cons] at hsize
      split at h
      · rename_i herr
        cases h
        exact (ih _ hsize).climb (by omega) herr
      · split at h
        · rename_i herr
          cases h
          exact places_expect _ _ _ _ _ herr
        · cases h
    · cases h
      rfl
  · intro prio ts err hsize h
    rw [Expr.climb.eq_def] at h
    split at h
    · rename_i herr
      cases h
      exact (ih _ hsize).operand (by omega) herr
    · rename_i more _
      have := more.property
      split at h
      · rename_i herr
        cases h
        exact (ih _ hsize).extend (by omega) herr
      · cases h
  · intro prio x ts err hsize h
    rw [Expr.extend.eq_def] at h
    split at h
    · cases h
    · split at h
      · cases h
      · rw [List.length_cons] at hsize
        split at h
        · rename_i herr
          cases h
          exact (ih _ hsize).climb (by omega) herr
        · rename_i more _
          have := more.property
          split at h
          · rename_i herr
            cases h
            exact (ih _ hsize).extend (by omega) herr
          · cases h

end Expr

/-! ## Statements -/

namespace Statement

open Parse

theorem places_expression : Places expression := by
  refine Places.bind (fun file ts err h => ?_) fun _ => places_pure _
  exact (Expr.placesBelow file (2 * ts.length + 2)).climb (by omega) h

theorem places_startsNext : Places startsNext := by
  refine places_peek.bind fun l => ?_
  split
  · exact places_pure _
  · exact places_pure _
  · exact places_pure _
  · exact places_pure _
  · exact places_pure _
  · exact places_peekSecond.bind fun _ => places_pure _
  · exact places_peekSecond.bind fun _ => places_pure _
  · exact places_pure _

theorem places_indirectOperand : Places indirectOperand := by
  refine places_expression.bind fun e => (places_accept _).bind fun b => places_ite ?_ ?_
  · exact (places_expect _ _).bind fun _ => (places_expect _ _).bind fun _ => places_pure _
  · refine (places_expect _ _).bind fun _ => (places_accept _).bind fun b => places_ite ?_ ?_
    · exact (places_expect _ _).bind fun _ => places_pure _
    · exact places_pure _

theorem places_directOperand : Places directOperand := by
  refine places_expression.bind fun e => (places_accept _).bind fun b => places_ite ?_ ?_
  · refine (places_accept _).bind fun b => places_ite (places_pure _) ?_
    exact (places_accept _).bind fun b => places_ite (places_pure _) (places_fail _)
  · exact places_pure _

theorem places_operand (m : Mnemonic) : Places (operand m) := by
  refine (places_accept _).bind fun b => places_ite (places_expression.bind fun _ => places_pure _) ?_
  refine places_ite (places_expression.bind fun _ => places_pure _) ?_
  refine places_startsNext.bind fun b => places_ite (places_pure _) ?_
  refine places_peek.bind fun l => places_ite (places_next.bind fun _ => places_pure _) ?_
  exact (places_accept _).bind fun b => places_ite places_indirectOperand places_directOperand

theorem places_assignmentAfter (name : String) : Places (assignmentAfter name) :=
  (places_expect _ _).bind fun _ => places_expression.bind fun _ => places_pure _

theorem places_parameter (loc : Location) : Places (parameter loc) :=
  places_identifier.bind fun _ => places_ite (places_failAt _ _) (places_pure _)

theorem places_binaryAfter (loc : Location) : Places (binaryAfter loc) := by
  refine places_quoted.bind fun name => (places_accept _).bind fun b => places_ite ?_ (places_pure _)
  refine places_expression.bind fun skip => (places_accept _).bind fun b => places_ite ?_ ?_
  · exact places_expression.bind fun _ => places_pure _
  · exact places_pure _

theorem places_messageArg : Places messageArg := by
  refine places_peek.bind fun l => ?_
  split
  · exact places_next.bind fun _ => places_pure _
  · exact places_expression.bind fun _ => places_pure _

theorem places_messageAfter (loc : Location) (level : Level) (formatted : Bool) :
    Places (messageAfter loc level formatted) := by
  refine places_peek.bind fun l => places_ite (places_failAt _ _) ?_
  refine places_messageArg.bind fun arg => ?_
  exact Places.bind (places_afterCommas places_messageArg) fun _ => places_pure _

theorem places_directiveAfter (loc : Location) (name : String) : Places (directiveAfter loc name) := by
  have hexpr : ∀ f : List Action → Statement, Places (do pure (f (← expression)) : Parse Statement) :=
    fun f => places_expression.bind fun _ => places_pure _
  have hname : ∀ f : String → Statement, Places (do pure (f (← identifier)) : Parse Statement) :=
    fun f => places_identifier.bind fun _ => places_pure _
  unfold directiveAfter
  split
  · exact hexpr _
  · exact hexpr _
  · exact places_pure _
  · exact places_pure _
  · exact hexpr _
  · exact places_pure _
  · exact hexpr _
  · exact places_pure _
  · exact places_identifier.bind fun _ =>
      Places.bind (places_afterCommas (places_parameter loc)) fun _ => places_pure _
  · exact places_pure _
  · exact places_identifier.bind fun _ =>
      Places.bind (places_afterCommas places_expression) fun _ => places_pure _
  · exact hname _
  · exact hname _
  · exact places_quoted.bind fun _ => places_pure _
  · exact places_binaryAfter loc
  · exact places_messageAfter loc _ _
  · exact places_messageAfter loc _ _
  · exact places_messageAfter loc _ _
  · exact places_messageAfter loc _ _
  · exact places_messageAfter loc _ _
  · exact places_messageAfter loc _ _
  · exact places_failAt _ _

theorem places_dataItem (word : Bool) : Places (dataItem word) := by
  refine places_here.bind fun loc => places_peek.bind fun l => ?_
  split
  · exact places_next.bind fun _ => places_pure _
  · exact places_expression.bind fun _ => places_pure _

/-- What ends the reading of lines says where. -/
def Reading.Places {ts : List Token} (r : Reading ts) : Prop :=
  ∀ err, r.rest = .error err → err.isPlaced = true

theorem single_places {p : Parse Statement} (hp : Parse.Places p) (loc : Location) (file : String)
    (ts : List Token) : (Reading.single loc (p file ts)).Places := by
  intro err h
  unfold Reading.single at h
  split at h
  · cases h
  · rename_i herr
    cases h
    exact hp _ _ _ herr

theorem dataItems_places (word : Bool) (file : String) (ts : List Token) :
    (dataItems word file ts).Places := by
  fun_induction dataItems word file ts with
  | case1 ts err herr =>
      rintro _ ⟨⟩
      exact places_dataItem word _ _ _ herr
  | case2 ts item line rest h hitem _ more ih =>
      intro err herr
      dsimp only at herr
      split at herr
      · cases herr
      · rename_i hmore
        cases herr
        exact ih _ hmore
  | case3 ts item rest hne hitem => exact fun _ h => by cases h

theorem repeatedItems_places (word : Bool) (loc : Location) (file : String) (ts : List Token) :
    (repeatedItems word loc file ts).Places := by
  have hcount : Parse.Places dataCount :=
    places_expression.bind fun _ => (places_expect _ _).bind fun _ => places_pure _
  unfold repeatedItems
  split
  · rename_i herr
    rintro _ ⟨⟩
    exact hcount _ _ _ herr
  · rename_i count more _
    dsimp only
    split
    · rename_i herr
      rintro _ ⟨⟩
      exact dataItems_places word file more.val _ herr
    · exact fun _ h => by cases h

theorem linesAfter_places (t : Token) (file : String) (rest : List Token) :
    (linesAfter t file rest).Places := by
  unfold linesAfter
  dsimp only
  split
  · unfold directiveLines
    split
    · exact dataItems_places false file rest
    · exact dataItems_places true file rest
    · exact repeatedItems_places false _ file rest
    · exact repeatedItems_places true _ file rest
    · exact single_places (places_directiveAfter _ _) _ file rest
  · exact fun _ h => by cases h
  · exact single_places (places_assignmentAfter _) _ file rest
  · exact single_places (places_assignmentAfter _) _ file rest
  · exact single_places ((places_operand _).bind fun _ => places_pure _) _ file rest
  · rintro _ ⟨⟩
    rfl

end Statement

theorem linesOf_places {file : String} {ts : List Token} {err : Error}
    (h : (linesOf file ts).2 = some err) : err.isPlaced = true := by
  have hread : ∀ (done : List Line) (ts : List Token),
      (readLines file done ts).2 = some err → err.isPlaced = true := by
    intro done ts
    fun_induction readLines file done ts with
    | case1 => exact fun h => by cases h
    | case2 => exact fun h => by cases h
    | case3 done t rest hend reading done' e he =>
        rintro ⟨⟩
        exact Statement.linesAfter_places t file rest _ he
    | case4 done t rest hend reading done' last hlast ih => exact ih
  exact hread [] ts h

/-! ## The builder -/

namespace Builder

variable {α : Type} {loc : Location}

/-- Lowering fails only with errors that say where they came up. -/
def Places (m : BuilderM α) : Prop := ∀ b err b', m b = .error err b' → err.isPlaced = true

theorem foldAt_places {acts : List Action} {err : Error} (h : foldAt loc acts = .error err) :
    err.isPlaced = true := by
  unfold foldAt at h
  split at h
  · cases h
  · cases h
    exact Error.isPlaced_atLocation loc _

theorem except_bind_eq_error {α β : Type} {x : Except Error α} {f : α → Except Error β}
    {err : Error} (h : (x >>= f) = .error err) :
    x = .error err ∨ ∃ a, x = .ok a ∧ f a = .error err := by
  cases x with
  | error e =>
      cases h
      exact .inl rfl
  | ok a => exact .inr ⟨a, rfl, h⟩

theorem foldAllAt_places {args : List (List Action)} {err : Error}
    (h : foldAllAt loc args = .error err) : err.isPlaced = true := by
  induction args generalizing err with
  | nil => cases h
  | cons arg rest ih =>
      rcases except_bind_eq_error h with h | ⟨a, -, h⟩
      · exact foldAt_places h
      · rcases except_bind_eq_error h with h | ⟨as, -, h⟩
        · exact ih h
        · cases h

theorem messageArgs_places {args : List MessageArg} {err : Error}
    (h : messageArgs loc args = .error err) : err.isPlaced = true := by
  induction args generalizing err with
  | nil => cases h
  | cons arg rest ih =>
      rcases except_bind_eq_error h with h | ⟨a, -, h⟩
      · cases arg with
        | text => cases h
        | expr e => exact foldAt_places h
      · rcases except_bind_eq_error h with h | ⟨as, -, h⟩
        · exact ih h
        · cases h

theorem addOp_places (op : Op) : Places (addOp loc op) := fun _ _ _ h => by cases h

theorem addResult_places {acts : Except Error (List Action)}
    (h : ∀ err, acts = .error err → err.isPlaced = true) : Places (addResult acts) := by
  intro b err b' hadd
  unfold addResult at hadd
  split at hadd
  · cases hadd
  · cases hadd
    exact h _ rfl

theorem addFold_places (acts : List Action) (f : List Action → List Action) :
    Places (addResult (do let acts ← foldAt loc acts; pure (f acts))) := by
  refine addResult_places fun err h => ?_
  rcases except_bind_eq_error h with h | ⟨a, -, h⟩
  · exact foldAt_places h
  · cases h

theorem failClose_places (directive : String) : Places (failClose loc directive) := by
  rintro b _ b' ⟨⟩
  exact Error.isPlaced_atLocation loc _

theorem issue_places (loc : Location) (stmt : Statement) : Places (issue loc stmt) := by
  have hplaced := Error.isPlaced_atLocation loc
  cases stmt with
  | assign name expr => exact addFold_places expr _
  | label name => exact addOp_places _
  | instruction mnemonic operand =>
      refine addResult_places fun err h => ?_
      split at h
      · cases h
      · cases h
        exact hplaced _
  | data word expr => exact addFold_places expr _
  | text word bytes => exact addOp_places _
  | openIf cond | openRepeat count | openWhile cond =>
      intro b err b' h
      simp only [issue, openIf, openRepeat, openWhile] at h
      split at h
      · rename_i herr
        cases h
        exact foldAt_places herr
      · cases h
  -- an open block that does not fit is refused at the location of the statement
  | elseIf cond =>
      intro b err b' h
      simp only [issue, elseIf] at h
      split at h
      · split at h
        · rename_i herr
          cases h
          exact foldAt_places herr
        · cases h
      · cases h
        exact hplaced _
      · cases h
        exact hplaced _
  | otherwise =>
      intro b err b' h
      simp only [issue, otherwise] at h
      split at h
      · cases h
      · cases h
        exact hplaced _
      · cases h
        exact hplaced _
  | closeIf | closeRepeat | closeWhile | closeMacro =>
      intro b err b' h
      simp only [issue, closeIf, closeRepeat, closeWhile, closeMacro] at h
      split at h
      · cases h
      · exact failClose_places _ _ _ _ h
  | openMacro name params =>
      intro b err b' h
      simp only [issue, openMacro] at h
      split at h
      · cases h
      · cases h
        exact hplaced _
  | call name args =>
      intro b err b' h
      simp only [issue, call] at h
      split at h
      · cases h
        exact hplaced _
      · refine addResult_places (fun err h => ?_) _ _ _ h
        rcases except_bind_eq_error h with h | ⟨a, -, h⟩
        · exact foldAllAt_places h
        · cases h
  | metaLabel name => exact addOp_places _
  | goto name => exact addOp_places _
  | message level formatted args =>
      refine addResult_places fun err h => ?_
      rcases except_bind_eq_error h with h | ⟨a, -, h⟩
      · exact messageArgs_places h
      · cases h
  | includeSource name =>
      intro b err b' h
      simp only [issue, includeSource] at h
      split at h
      · cases h
        exact hplaced _
      · exact addOp_places _ _ _ _ h
  | includeBinary name skip length =>
      intro b err b' h
      simp only [issue, includeBinary] at h
      split at h
      · cases h
        exact hplaced _
      · refine addResult_places (fun err h => ?_) _ _ _ h
        rcases except_bind_eq_error h with h | ⟨a, -, h⟩
        · exact foldAt_places h
        · rcases except_bind_eq_error h with h | ⟨as, -, h⟩
          · exact foldAt_places h
          · cases h

theorem issueAll_places (lines : List Line) : Places (issueAll lines) := by
  induction lines with
  | nil => exact fun _ _ _ h => by cases h
  | cons l rest ih =>
      intro b err b' h
      rcases bind_eq_error.mp h with h | ⟨_, b₁, -, h⟩
      · exact issue_places _ _ _ _ _ h
      · exact ih _ _ _ h

theorem finish_places {b : Builder} {err : Error} (h : b.finish = .error err) :
    err.isPlaced = true := by
  unfold finish at h
  split at h
  · cases h
  · cases h
    exact Error.isPlaced_atLocation _ _

end Builder

/-! ## Reading -/

theorem Reader.lower_places {lines : List Line} {err? : Option Error} {s s' : Session} {err : Error}
    (herr? : ∀ err, err? = some err → err.isPlaced = true)
    (h : Reader.lower lines err? s = .error err s') : err.isPlaced = true := by
  unfold lower Assembler.withIds at h
  dsimp only at h
  split at h
  · cases h
  · rename_i hm
    cases h
    split at hm
    · rename_i hissue
      cases hm
      exact Builder.issueAll_places _ _ _ _ hissue
    · split at hm
      · cases hm
        exact herr? _ rfl
      · split at hm
        · cases hm
        · rename_i hfinish
          cases hm
          exact Builder.finish_places hfinish

/-- What is wrong with a source file is told with the line where it is. -/
theorem Reader.actions_placed {r : Reader} {file : String} {text : List Text.Glyph}
    {s s' : Session} {err : Error} (h : r.actions file text s = .error err s') :
    err.isPlaced = true := by
  unfold actions at h
  dsimp only at h
  cases hscan : (Lexer.scan r.defines text).error with
  | some cause =>
      simp only [hscan] at h
      cases h
      rfl
  | none =>
      simp only [hscan] at h
      rcases bind_eq_error.mp h with h | ⟨_, s₁, -, h⟩
      · cases h
      · exact lower_places (fun err => linesOf_places) h

end Mos6510
