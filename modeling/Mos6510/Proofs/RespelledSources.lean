import Mos6510.Proofs.Pasting
import Mos6510.Proofs.Progress
import Mos6510.Proofs.RelabelledSources

/-!
# Sources with macros under other names

In source text, the name of a macro is the word behind `.MACRO` or `.CALL`, and nowhere
else (`renameMacros`).

* `linesOf_renameMacro`: text with other names there is read as the same lines, up to the macros
  that these define and call;
* `Reader.actions_retold`: so a file is read as the same actions, up to these names.
-/

namespace Mos6510

open Outcome
open Text (Glyph)

/-! ## Tokens -/

/-- Is the word behind this the name of a macro? -/
def Lexeme.namesMacro : Lexeme → Bool
  | .directive name => name == "MACRO" || name == "CALL"
  | _ => false

/-- A word under another name. -/
def Lexeme.rename (f : String → String) : Lexeme → Lexeme
  | .word name => .word (f name)
  | l => l

/-- The tokens with other names for macros.  `named` says whether the first is the name
of one. -/
def renameMacros (f : String → String) : (named : Bool) → List Token → List Token
  | _, [] => []
  | named, t :: rest =>
    ⟨if named then t.lexeme.rename f else t.lexeme, t.line⟩ :: renameMacros f t.lexeme.namesMacro rest

/-- The names that are given to macros, or that macros are called by. -/
def macroNames : (named : Bool) → List Token → List String
  | _, [] => []
  | true, ⟨.word name, _⟩ :: rest => name :: macroNames false rest
  | _, t :: rest => macroNames t.lexeme.namesMacro rest

theorem Lexeme.namesMacro_of_isInside {l : Lexeme} (h : l.isInside = true) : l.namesMacro = false := by
  cases l <;> first | rfl | cases h

section

variable (f : String → String)

/-- No macro is named inside of a statement. -/
theorem renameMacros_append {taken : List Token} (h : ∀ t ∈ taken, t.lexeme.isInside = true)
    (rest : List Token) :
    renameMacros f false (taken ++ rest) = taken ++ renameMacros f false rest := by
  induction taken with
  | nil => rfl
  | cons t taken ih =>
      obtain ⟨ht, htaken⟩ := List.forall_mem_cons.mp h
      rw [List.cons_append, renameMacros, Lexeme.namesMacro_of_isInside ht, ih htaken]
      rfl

/-- All that matters is what becomes of the names that occur. -/
theorem renameMacros_congr {g : String → String} {named : Bool} {ts : List Token}
    (h : ∀ name ∈ macroNames named ts, f name = g name) :
    renameMacros f named ts = renameMacros g named ts := by
  fun_induction macroNames named ts with
  | case1 => rfl
  | case2 name line rest ih =>
      obtain ⟨hname, hrest⟩ := List.forall_mem_cons.mp h
      have hrest := ih hrest
      rw [renameMacros, renameMacros, Lexeme.rename, Lexeme.rename, hname]
      exact congrArg _ hrest
  | case3 named t rest hword ih =>
      rw [renameMacros, renameMacros, ih h]
      cases named with
      | false => rfl
      | true =>
          obtain ⟨lexeme, line⟩ := t
          cases lexeme with
          | word name => exact absurd rfl (hword name line rfl)
          | _ => rfl

theorem macroNames_renameMacros (named : Bool) (ts : List Token) :
    macroNames named (renameMacros f named ts) = (macroNames named ts).map f := by
  fun_induction macroNames named ts with
  | case1 => rfl
  | case2 name line rest ih => exact congrArg (f name :: ·) ih
  | case3 named t rest hword ih =>
      cases named with
      | false => simpa [renameMacros, macroNames] using ih
      | true =>
          obtain ⟨lexeme, line⟩ := t
          cases lexeme with
          | word name => exact absurd rfl (hword name line rfl)
          | _ => exact ih

/-- A parser in front of the tokens sees the same. -/
theorem sameFront_renameMacros (rest : List Token) : SameFront rest (renameMacros f false rest) := by
  match rest with
  | [] => exact ⟨rfl, fun _ => rfl⟩
  | [t] => exact ⟨rfl, fun _ => rfl⟩
  | t :: t' :: rest =>
      refine ⟨rfl, fun hfront => ?_⟩
      have ht : t.lexeme.namesMacro = false := Lexeme.namesMacro_of_isInside hfront
      rw [renameMacros, ht]
      rfl

end

/-- What macros are called are names of the text. -/
theorem TokensOver.macroNames {N : String → Prop} {ts : List Token} (h : TokensOver N ts)
    (named : Bool) : ∀ name ∈ macroNames named ts, N name := by
  fun_induction Mos6510.macroNames named ts with
  | case1 => exact fun _ hname => absurd hname List.not_mem_nil
  | case2 name line rest ih =>
      obtain ⟨hname, hrest⟩ := List.forall_mem_cons.mp h
      exact List.forall_mem_cons.mpr ⟨hname, ih hrest⟩
  | case3 named t rest _ ih => exact ih (List.forall_mem_cons.mp h).2

/-! ## Lines -/

namespace Statement

open Parse

/-- The statement neither defines a macro nor calls one. -/
def Keeps (stmt : Statement) : Prop := ∀ f, stmt.renameMacro f = stmt

theorem tokensOver_true (ts : List Token) : TokensOver (fun _ => True) ts := by
  rintro ⟨lexeme, line⟩ -
  cases lexeme <;> trivial

/-- Only two directives name macros. -/
theorem directiveAfter_keeps (loc : Location) {name : String}
    (h : (Lexeme.directive name).namesMacro = false) :
    Gives (fun _ => True) (directiveAfter loc name) Keeps := by
  have hexpr : ∀ g : List Action → Statement, (∀ e, (g e).Keeps) →
      Gives (fun _ => True) (do pure (g (← expression))) Keeps :=
    fun g hg => (gives_expression trivial).next fun e => gives_pure (hg e)
  have hmessage : ∀ level formatted,
      Gives (fun _ => True) (messageAfter loc level formatted) Keeps := by
    intro level formatted
    refine gives_peek.next fun l => gives_ite (gives_failAt _ _) ?_
    refine (gives_messageArg trivial).next fun arg => ?_
    exact Gives.next (gives_afterCommas (gives_messageArg trivial)) fun args => gives_pure fun _ => rfl
  have hbinary : Gives (fun _ => True) (binaryAfter loc) Keeps := by
    refine gives_quoted.next fun name => (gives_accept _).next fun b => gives_ite ?_ ?_
    · refine (gives_expression trivial).next fun skip => (gives_accept _).next fun b => gives_ite ?_ ?_
      · exact (gives_expression trivial).next fun length => gives_pure fun _ => rfl
      · exact gives_pure fun _ => rfl
    · exact gives_pure fun _ => rfl
  unfold directiveAfter
  split
  · exact hexpr _ fun _ _ => rfl
  · exact hexpr _ fun _ _ => rfl
  · exact gives_pure fun _ => rfl
  · exact gives_pure fun _ => rfl
  · exact hexpr _ fun _ _ => rfl
  · exact gives_pure fun _ => rfl
  · exact hexpr _ fun _ _ => rfl
  · exact gives_pure fun _ => rfl
  · cases h
  · exact gives_pure fun _ => rfl
  · cases h
  · exact gives_identifier.next fun _ => gives_pure fun _ => rfl
  · exact gives_identifier.next fun _ => gives_pure fun _ => rfl
  · exact gives_quoted.next fun _ => gives_pure fun _ => rfl
  · exact hbinary
  · exact hmessage _ _
  · exact hmessage _ _
  · exact hmessage _ _
  · exact hmessage _ _
  · exact hmessage _ _
  · exact hmessage _ _
  · exact gives_failAt _ _

/-! ### Lines of data -/

variable {file : String} {ts rest : List Token} {lines : List Line}

theorem dataItem_keeps (word : Bool) :
    Gives (fun _ => True) (dataItem word) fun l => l.statement.Keeps := by
  refine gives_here.next fun loc => gives_peek.next fun l => ?_
  split
  · exact gives_next.next fun _ => gives_pure fun _ => rfl
  · exact (gives_expression trivial).next fun _ => gives_pure fun _ => rfl

theorem dataItems_keeps (word : Bool) (file : String) (ts : List Token) :
    ∀ l ∈ (dataItems word file ts).lines, l.statement.Keeps := by
  have hitem : ∀ {ts : List Token} {l : Line} {rest : Tail ts},
      dataItem word file ts = .ok (l, rest) → l.statement.Keeps := fun h =>
    (dataItem_keeps word (tokensOver_true _) h).1
  fun_induction dataItems word file ts with
  | case1 => exact fun _ hl => absurd hl List.not_mem_nil
  | case2 ts item line rest h hread _ more ih => exact List.forall_mem_cons.mpr ⟨hitem hread, ih⟩
  | case3 ts item rest hne hread =>
      exact List.forall_mem_cons.mpr ⟨hitem hread, fun _ hl => absurd hl List.not_mem_nil⟩

theorem repeatedItems_keeps (word : Bool) (loc : Location) (file : String) (ts : List Token) :
    ∀ l ∈ (repeatedItems word loc file ts).lines, l.statement.Keeps := by
  unfold repeatedItems
  split
  · exact fun _ hl => absurd hl List.not_mem_nil
  · rename_i count more _
    have hopened : ∀ l ∈ (⟨loc, .openRepeat count⟩ :: (dataItems word file more.val).lines :
        List Line), l.statement.Keeps :=
      List.forall_mem_cons.mpr ⟨fun _ => rfl, dataItems_keeps word file more.val⟩
    dsimp only
    split
    · exact hopened
    · exact List.forall_mem_append.mpr ⟨hopened, List.forall_mem_singleton.mpr fun _ => rfl⟩

/-- Lines that no directive for macros starts stay as they are. -/
theorem linesAfter_keeps {t : Token} (ht : t.lexeme.namesMacro = false)
    (h : (linesAfter t file ts).Is lines rest) : ∀ l ∈ lines, l.statement.Keeps := by
  -- where one statement is read, the line holds it or nothing
  have hsingle : ∀ {loc : Location} {p : Parse Statement}, Gives (fun _ => True) p Keeps →
      ∀ l ∈ (Reading.single loc (p file ts)).lines, l.statement.Keeps := by
    intro loc p hp
    unfold Reading.single
    split
    · rename_i s last hread
      exact List.forall_mem_singleton.mpr (hp (tokensOver_true ts) hread).1
    · exact fun _ hl => absurd hl List.not_mem_nil
  obtain ⟨rfl, -⟩ := h
  obtain ⟨l, line⟩ := t
  unfold linesAfter
  cases l with
  | directive name =>
      dsimp only
      unfold directiveLines
      split
      · exact dataItems_keeps false file ts
      · exact dataItems_keeps true file ts
      · exact repeatedItems_keeps false _ file ts
      · exact repeatedItems_keeps true _ file ts
      · exact hsingle (directiveAfter_keeps _ ht)
  | label name => exact List.forall_mem_singleton.mpr fun _ => rfl
  | word | pc => exact hsingle ((gives_expect _ _).next fun _ => (gives_expression trivial).next fun _ =>
      gives_pure fun _ => rfl)
  | mnemonic m => exact hsingle ((gives_operand trivial m).next fun _ => gives_pure fun _ => rfl)
  | _ => exact fun _ hl => absurd hl List.not_mem_nil

/-! ### Lines under other names -/

section

variable (f : String → String)

theorem reads_identifier_iff {name : String} :
    Reads identifier file ts name rest ↔ ∃ line, ts = ⟨.word name, line⟩ :: rest := by
  constructor
  · intro h
    obtain ⟨l, _, hl, h⟩ := h.of_bind
    obtain ⟨rfl, rfl⟩ := reads_peek.unique hl
    cases ts with
    | nil =>
        obtain ⟨_, h, -⟩ := h
        cases h
    | cons t ts =>
        obtain ⟨lexeme, line⟩ := t
        cases lexeme with
        | word n =>
            obtain ⟨_, _, hn, h⟩ := h.of_bind
            obtain ⟨-, rfl⟩ := (reads_next _).unique hn
            obtain ⟨rfl, rfl⟩ := (Reads.pure n).unique h
            exact ⟨line, rfl⟩
        | _ =>
            obtain ⟨_, h, -⟩ := h
            cases h
  · rintro ⟨line, rfl⟩
    exact reads_peek.bind ((reads_next _).bind (.pure name))

/-- A directive for macros is read with the macro under another name. -/
theorem named_renameMacro {α : Type} {p : Parse α} {g : String → α → Statement} (hp : Takes 0 p)
    (hstmt : ∀ name a, (g name a).renameMacro f = g (f name) a) {s : Statement}
    (h : Reads (identifier >>= fun name => p >>= fun a => pure (g name a)) file ts s rest) :
    Reads (identifier >>= fun name => p >>= fun a => pure (g name a)) file (renameMacros f true ts)
      (s.renameMacro f) (renameMacros f false rest) := by
  obtain ⟨name, more, hname, hbehind⟩ := h.of_bind
  obtain ⟨line, rfl⟩ := reads_identifier_iff.mp hname
  obtain ⟨a, last, ha, hpure⟩ := hbehind.of_bind
  obtain ⟨rfl, rfl⟩ := (Reads.pure (g name a)).unique hpure
  obtain ⟨taken, rfl, -, hinside, hsame⟩ := hp file more ha
  have ha' := hsame _ (sameFront_renameMacros f last)
  rw [← renameMacros_append f hinside] at ha'
  rw [hstmt]
  exact (reads_identifier_iff.mpr ⟨line, rfl⟩).bind (ha'.bind (.pure _))

/-- Behind its first token, a statement is read under other names. -/
theorem linesAfter_renameMacro {t : Token} (h : (linesAfter t file ts).Is lines rest) :
    (linesAfter t file (renameMacros f t.lexeme.namesMacro ts)).Is (lines.map (Line.renameMacro f))
      (renameMacros f false rest) := by
  cases ht : t.lexeme.namesMacro with
  | false =>
      have hlines : lines.map (Line.renameMacro f) = lines := by
        refine (List.map_congr_left fun l hl => ?_).trans (List.map_id' lines)
        rw [Line.renameMacro, linesAfter_keeps ht h l hl f]
      obtain ⟨taken, rfl, hinside, hsame⟩ := takesLines_linesAfter t file h
      rw [hlines, renameMacros_append f hinside]
      exact hsame _ (sameFront_renameMacros f rest)
  -- only the two directives that name a macro are rewritten
  | true =>
      obtain ⟨l, line⟩ := t
      cases l with
      | directive name =>
          rcases Bool.or_eq_true_iff.mp ht with hname | hname
          · obtain rfl := beq_iff_eq.mp hname
            obtain ⟨s, rfl, hread⟩ := single_is_iff.mp h
            exact single_is (named_renameMacro f (g := .openMacro)
              (takes_afterCommas (takes_parameter ⟨file, line⟩).zero) (fun _ _ => rfl) hread) _
          · obtain rfl := beq_iff_eq.mp hname
            obtain ⟨s, rfl, hread⟩ := single_is_iff.mp h
            exact single_is (named_renameMacro f (g := .call) (takes_afterCommas takes_expression.zero)
              (fun _ _ => rfl) hread) _
      | _ => cases ht

end

end Statement

theorem readLines_renameMacro (f : String → String) {file : String} {done lines : List Line}
    {ts : List Token} (h : readLines file done ts = (lines, none)) :
    readLines file (done.map (Line.renameMacro f)) (renameMacros f false ts) =
      (lines.map (Line.renameMacro f), none) := by
  -- one line takes at least one token, so the rest is shorter
  induction hn : ts.length using Nat.strongRecOn generalizing ts done with
  | ind n ih =>
  cases ts with
  | nil =>
      rw [readLines] at h
      cases h
      rw [renameMacros, readLines]
  | cons t ts =>
      have htoken : (⟨if false then t.lexeme.rename f else t.lexeme, t.line⟩ : Token) = t := rfl
      rw [renameMacros, htoken]
      by_cases hend : t.lexeme = .endOfFile
      · rw [readLines, if_pos hend] at h ⊢
        cases h
        rfl
      · obtain ⟨read, rest, his⟩ := exists_is_of_readLines hend h
        obtain ⟨taken, rfl, -, -⟩ := Statement.takesLines_linesAfter t file his
        rw [readLines_of_is hend his] at h
        have hlt : rest.length < n := by
          rw [List.length_cons, List.length_append] at hn
          omega
        have hrest := ih _ hlt h rfl
        rw [readLines_of_is hend (Statement.linesAfter_renameMacro f his), ← List.map_reverse,
          ← List.map_append]
        exact hrest

/-- Tokens with other names for macros are read as lines with these names. -/
theorem linesOf_renameMacro (f : String → String) {file : String} {lines : List Line} {ts : List Token}
    (h : linesOf file ts = (lines, none)) :
    linesOf file (renameMacros f false ts) = (lines.map (Line.renameMacro f), none) := by
  unfold linesOf at h ⊢
  cases hread : readLines file [] ts with
  | mk read err =>
      rw [hread] at h
      cases h
      have hrenamed := readLines_renameMacro f hread
      rw [List.map_nil] at hrenamed
      rw [hrenamed, List.map_reverse]

/-! ## Reading files -/

/-- The second session is ahead of the first one, and the same files led to it. -/
structure Relabelling.Beside (θ : Relabelling) (s t : Session) : Prop where
  ahead : θ.Ahead s t
  includers : t.includers = s.includers

/-- The second text has the tokens of the first one, with other names for macros. -/
structure Reader.Retells (r : Reader) (f : String → String) (text text' : List Glyph) : Prop where
  scan : (Lexer.scan r.defines text').error = none
  tokens : (Lexer.scan r.defines text').tokens = renameMacros f false (Lexer.scan r.defines text).tokens

namespace Reader

variable {r : Reader} {f : String → String} {file : String} {text text' : List Glyph}

theorem Reads.renameMacro {lines : List Line} (hreads : r.Reads file text lines)
    (h : r.Retells f text text') : r.Reads file text' (lines.map (Line.renameMacro f)) where
  scan := h.scan
  lines := h.tokens ▸ linesOf_renameMacro f hreads.lines

theorem actions_includers {acts : List Action} {s s' : Session}
    (hrun : r.actions file text s = .ok acts s') : s'.includers = s.includers := by
  have hP : AboutIncluders fun s' => s'.includers = s.includers := fun _ _ heq h => heq.trans h
  exact (actions_maintains (hP.unmoved _) file text).of_eq_ok hrun rfl

/-- A file is read as the same actions, up to the names of macros. -/
theorem actions_retold {θ : Relabelling} (h : r.Retells θ.call text text') :
    KeepsUp θ.Beside (r.actions file text) (r.actions file text') (Both θ.Tells θ.Beside) := by
  intro s t hst acts s' hrun
  obtain ⟨lines, b, hreads, -⟩ := reads_of_actions hrun
  have hover : ∀ l ∈ lines, l.Over IsWritten := by
    have hlines := r.lines_over file text
    rwa [hreads.lines] at hlines
  have hagree : InStep Eq θ.Ahead (r.actions file text) (r.actions file text')
      (Both θ.Tells θ.Ahead) := by
    have hreads' := hreads.renameMacro h
    unfold actions
    simp only [hreads.scan, hreads.lines, hreads'.scan, hreads'.lines]
    exact InStep.andThen (A := fun _ _ => True) (R := θ.Ahead) (fun _ _ h => .ok ⟨trivial, h⟩)
      fun _ _ _ => lower_inStep hover none
  obtain ⟨acts', t', hrun', htells, hahead⟩ := KeepsUp.of_inStep hagree hst.ahead hrun
  refine ⟨acts', t', hrun', htells, hahead, ?_⟩
  rw [actions_includers hrun', actions_includers hrun, hst.includers]

end Reader

end Mos6510
