import Mathlib
import Mos6510.Proofs.Lowering
import Mos6510.Proofs.Parsing
import Mos6510.Proofs.Slots

/-!
# Nested sums

The sum `@+(@+( ... @))` takes a slot of the stack for each of its operands
before it adds any two.  So expressions may need any number of slots:

* `Lexer.scanFrom_nested` and `Expr.reads_nested`: such a sum is read from source
  text as it was meant;
* `Expr.nested_overflows`: where the stack has fewer slots left, it overflows;
* `Skipped.reads_source` and `Skipped.resolves_actions`: a part of a binary file
  may have such a sum for its length.
-/

namespace Mos6510

open Outcome EngineM

/-! ## As text -/

/-- A sum with parentheses within parentheses, as many as asked. -/
def nestedText : Nat → List Text.Glyph
  | 0 => [.char '@']
  | n + 1 => Text.Glyph.ofString "@+(" ++ nestedText n ++ [.char ')']

/-- Its tokens, all on the first line. -/
def nestedTokens : Nat → List Token
  | 0 => [⟨.pc, 1⟩]
  | n + 1 =>
    [⟨.pc, 1⟩, ⟨.operator .plus, 1⟩, ⟨.openParen, 1⟩] ++ nestedTokens n ++ [⟨.closeParen, 1⟩]

theorem Lexer.scanFrom_nested (n : Nat) (done : List Token) (rest : List Text.Glyph) :
    scanFrom [] 1 done (nestedText n ++ rest) =
      scanFrom [] 1 ((nestedTokens n).reverse ++ done) rest := by
  induction n generalizing done rest with
  | zero =>
      have hpc : step [] 1 (.char '@') rest = .emit ⟨.pc, 1⟩ 1 1 := rfl
      exact scanFrom_emit hpc
  | succ n ih =>
      have hopen : scanFrom [] 1 done
          (Text.Glyph.ofString "@+(" ++ (nestedText n ++ .char ')' :: rest)) =
            scanFrom [] 1 ([⟨.openParen, 1⟩, ⟨.operator .plus, 1⟩, ⟨.pc, 1⟩] ++ done)
              (nestedText n ++ .char ')' :: rest) := by cbv
      have hclose : ∀ done, scanFrom [] 1 done (.char ')' :: rest) =
          scanFrom [] 1 (⟨.closeParen, 1⟩ :: done) rest := by
        intro done
        have hstep : step [] 1 (.char ')') rest = .emit ⟨.closeParen, 1⟩ 1 1 := rfl
        exact scanFrom_emit hstep
      rw [nestedText, List.append_assoc, List.append_assoc, List.singleton_append, hopen, ih, hclose]
      simp [nestedTokens]

/-! ## As an expression -/

namespace Expr

/-- The sum as an expression. -/
def nested (file : String) : Nat → Expr
  | 0 => symbol ⟨file, 1⟩ pcName
  | n + 1 => binary ⟨file, 1⟩ .add (symbol ⟨file, 1⟩ pcName) (nested file n)

theorem reads_nested (file : String) (n : Nat) {rest : List Token}
    (hrest : ∀ prio, nextOperator? prio rest = none) :
    Parse.Reads (climb 0) file (nestedTokens n ++ rest) (nested file n) rest := by
  induction n generalizing rest with
  | zero => exact reads_alone reads_pc (hrest 0)
  | succ n ih =>
      have hinner := @ih (⟨.closeParen, 1⟩ :: rest) fun _ => rfl
      have hright : Parse.Reads (climb (BinaryOp.add.priority + 1)) file _ (nested file n) rest :=
        reads_alone (@reads_paren _ _ _ 1 _ _ hinner) (hrest _)
      rw [nestedTokens, List.append_assoc, List.append_assoc]
      exact reads_climb reads_pc (reads_extend rfl hright (reads_extend_none (hrest 0)))

theorem nested_actions_head (file : String) (n : Nat) :
    ∃ rest, (nested file n).actions = Action.get ⟨file, 1⟩ pcName :: rest := by
  cases n with
  | zero => exact ⟨[], rfl⟩
  | succ n => exact ⟨_, rfl⟩

/-- It needs a slot for each operand. -/
theorem slots_nested (file : String) (n : Nat) : (nested file n).slots = n + 1 := by
  induction n with
  | zero => rfl
  | succ n ih =>
      rw [nested, slots, slots, ih]
      omega

end Expr

/-! ## On the stack -/

/-- Does the operation take two values for one? -/
def Op.isBinary : Op → Bool
  | .binary _ => true
  | _ => false

namespace Expr

/-- Every slot but the first is needed for a right operand. -/
theorem slots_le (x : Expr) : x.slots ≤ (x.actions.map Action.op).countP Op.isBinary + 1 := by
  induction x with
  | number | symbol => exact Nat.le_add_left 1 _
  | unary loc op x ih =>
      rw [actions, List.map_append, List.countP_append]
      rw [slots]
      omega
  | binary loc op x y ihx ihy =>
      have hop : ([Action.plain loc (.binary op)].map Action.op).countP Op.isBinary = 1 := rfl
      rw [actions, List.map_append, List.map_append, List.countP_append, List.countP_append, hop, slots]
      omega

theorem countP_nested (file : String) (n : Nat) :
    ((nested file n).actions.map Action.op).countP Op.isBinary = n := by
  induction n with
  | zero => rfl
  | succ n ih =>
      have hget : ((symbol ⟨file, 1⟩ pcName).actions.map Action.op).countP Op.isBinary = 0 := rfl
      have hadd : ([Action.plain ⟨file, 1⟩ (.binary .add)].map Action.op).countP Op.isBinary = 1 := rfl
      rw [nested, actions, List.map_append, List.map_append, List.countP_append, List.countP_append,
        hget, ih, hadd]
      omega

end Expr

/-- Before the strict passes the program counter can always be read. -/
theorem Engine.readSymbol_pc {e : Engine} (hstrict : e.strict = false) :
    ∃ v e', readSymbol pcName e = .ok v e' ∧ e'.stack = e.stack ∧ e'.strict = false := by
  have hcell : e.cell? pcName = some e.pc := rfl
  have hmark : ∀ c, (e.markRead pcName c).stack = e.stack ∧ (e.markRead pcName c).pass = e.pass := by
    intro c
    unfold markRead
    split <;> exact ⟨rfl, rfl⟩
  obtain ⟨hstack, hpass⟩ := hmark e.pc
  have hread : readSymbol pcName e = if e.pc.isSet then .ok e.pc.value (e.markRead pcName e.pc)
      else .ok e.pc.value { e.markRead pcName e.pc with unresolved := true } := by
    show (if e.pc.isSet then _ else if e.strict then _ else _) = _
    rw [hstrict]
    rfl
  rw [hread]
  split
  · exact ⟨_, _, rfl, hstack, by rw [strict, hpass]; exact hstrict⟩
  · refine ⟨_, _, rfl, hstack, ?_⟩
    show (e.markRead pcName e.pc).strict = false
    rw [strict, hpass]
    exact hstrict

/-- That takes a slot, and nothing else can go wrong. -/
theorem perform_get_pc (loc : Location) {e : Engine} (hstrict : e.strict = false) :
    (e.stack.depth = Stack.limit ∧ ∃ e', (Action.get loc pcName).perform e =
        .error (Error.stackFull.atAction (Action.get loc pcName)) e') ∨
      (e.stack.depth ≠ Stack.limit ∧ ∃ e', (Action.get loc pcName).perform e = .ok () e' ∧
        e'.strict = false ∧ e'.stack.depth = e.stack.depth + 1) := by
  let a := Action.get loc pcName
  let e₁ : Engine := { e.atAction a with unresolved := e.unresolved && !e.stack.values.isEmpty }
  obtain ⟨v, e₂, hread, hstack, hstrict'⟩ := Engine.readSymbol_pc (e := e₁) hstrict
  have hrun : a.run (e.atAction a) = Engine.push v e₂ := by
    show ((Engine.readSymbol pcName >>= Engine.push) e₁) = _
    rw [bind_of_ok hread]
  have hsame : e₂.stack = e.stack := hstack
  by_cases hfull : e.stack.depth = Stack.limit
  · have hpush : Engine.push v e₂ = .error .stackFull e₂ := by
      unfold Engine.push Stack.push
      rw [hsame, hfull]
      rfl
    refine .inl ⟨hfull, e₂, ?_⟩
    show Action.perform a e = _
    rw [Action.perform, hrun, hpush]
  · have hpush : Engine.push v e₂ = .ok () { e₂ with stack := ⟨v :: e₂.stack.values⟩ } := by
      unfold Engine.push Stack.push
      rw [hsame, if_neg (by simpa using hfull)]
    refine .inr ⟨hfull, { e₂ with stack := ⟨v :: e₂.stack.values⟩ }, ?_, hstrict', ?_⟩
    · show Action.perform a e = _
      rw [Action.perform, hrun, hpush]
    · show e₂.stack.depth + 1 = e.stack.depth + 1
      rw [hsame]

/-- Where the stack has too few slots left, the sum overflows. -/
theorem Expr.nested_overflows (file : String) (n : Nat) {e : Engine} (hstrict : e.strict = false)
    (hroom : e.stack.depth ≤ Stack.limit)
    (hneed : Stack.limit < e.stack.depth + (nested file n).slots) :
    ∃ err e', performAll (nested file n).actions e = .error err e' ∧ err.Is .stackFull := by
  rw [slots_nested] at hneed
  have hfull : (Error.stackFull.atAction (Action.get ⟨file, 1⟩ pcName)).Is .stackFull :=
    (Error.is_atAction rfl _).mpr List.mem_cons_self
  induction n generalizing e with
  | zero =>
      rcases perform_get_pc ⟨file, 1⟩ hstrict with ⟨-, e', hget⟩ | ⟨hfree, -⟩
      · exact ⟨_, e', bind_eq_error.mpr (.inl hget), hfull⟩
      · omega
  | succ n ih =>
      rcases perform_get_pc ⟨file, 1⟩ hstrict with ⟨-, e', hget⟩ | ⟨hfree, e₁, hget, hstrict', hdepth⟩
      · exact ⟨_, e', bind_eq_error.mpr (.inl hget), hfull⟩
      · -- the left operand stays below while the right one is computed
        obtain ⟨err, e', hrun, herr⟩ := ih hstrict' (by omega) (by omega)
        refine ⟨err, e', bind_eq_error.mpr (.inr ⟨(), e₁, hget, ?_⟩), herr⟩
        show performAll ((nested file n).actions ++ _) e₁ = _
        rw [performAll_append]
        exact bind_eq_error.mpr (.inl hrun)

/-! ## Through the stages -/

/-- Actions that each stage leaves as they are: they are run one after the
other, and declare no symbol. -/
structure Inert (acts : List Action) : Prop where
  straight : Straight acts
  silent : ∀ a ∈ acts, ∀ labels parent e, Gather.declareAction labels parent a e = .ok (a, parent) e

namespace Inert

theorem append {as bs : List Action} (ha : Inert as) (hb : Inert bs) : Inert (as ++ bs) where
  straight := ha.straight.append hb.straight
  silent a h := (List.mem_append.mp h).elim (ha.silent a) (hb.silent a)

theorem single {a : Action} (hstraight : a.op.isStraight = true) (hmessage : a.op.isMessage = false)
    (h : ∀ labels parent e, Gather.declareAction labels parent a e = .ok (a, parent) e) :
    Inert [a] where
  straight := .single hstraight hmessage
  silent b hb := by
    obtain rfl := List.mem_singleton.mp hb
    exact h

theorem of_expr (x : Expr) : Inert x.actions where
  straight := x.straight
  silent a ha labels parent e := by
    have hop := x.actions_compute a ha
    obtain ⟨loc, op, _⟩ := a
    cases op with
    | load | get | unary | binary => rfl
    | _ => cases hop

theorem of_cons {a : Action} {rest : List Action} (h : Inert (a :: rest)) :
    a.op.isStraight = true ∧
      (∀ labels parent e, Gather.declareAction labels parent a e = .ok (a, parent) e) ∧ Inert rest := by
  obtain ⟨⟨hstraight, -⟩, hrest⟩ := List.forall_mem_cons.mp h.straight
  obtain ⟨hsilent, hrest'⟩ := List.forall_mem_cons.mp h.silent
  exact ⟨hstraight, hsilent, hrest, hrest'⟩

variable {acts : List Action} (h : Inert acts)

include h

theorem collectMacros (known : List (String × MacroDef)) :
    Assembler.collectMacros acts known = .ok known := by
  induction acts with
  | nil => rfl
  | cons a rest ih =>
      obtain ⟨hstraight, -, hrest⟩ := h.of_cons
      obtain ⟨loc, op, x⟩ := a
      cases op with
      | defineMacro => cases hstraight
      | _ => exact ih hrest

theorem replaceCalls (asm : Assembler) (known : List (String × MacroDef)) (s : Session) :
    Assembler.replaceEach (asm.replaceCall known) acts s = .ok acts s := by
  induction acts with
  | nil => rfl
  | cons a rest ih =>
      obtain ⟨hstraight, -, hrest⟩ := h.of_cons
      have hkeep : asm.replaceCall known a s = .ok [a] s := by
        obtain ⟨loc, op, x⟩ := a
        cases op with
        | defineMacro | callMacro => cases hstraight
        | _ => rfl
      rw [Assembler.replaceEach]
      exact bind_eq_ok.mpr ⟨_, s, hkeep, bind_eq_ok.mpr ⟨_, s, ih hrest, rfl⟩⟩

theorem numberLabels (known : List (String × Nat)) (ids : Ids) :
    Gather.numberLabels acts known ids = .ok known ids := by
  induction acts with
  | nil => rfl
  | cons a rest ih =>
      obtain ⟨hstraight, -, hrest⟩ := h.of_cons
      obtain ⟨loc, op, x⟩ := a
      cases op with
      | metaLabel => cases hstraight
      | _ => exact ih hrest

theorem declareAll (labels : List (String × Nat)) (parent : String) (e : Engine) :
    Gather.declareAll labels parent acts e = .ok acts e := by
  induction acts with
  | nil => rfl
  | cons a rest ih =>
      obtain ⟨-, hsilent, hrest⟩ := h.of_cons
      rw [Gather.declareAll]
      exact bind_eq_ok.mpr ⟨_, e, hsilent labels parent e, bind_eq_ok.mpr ⟨_, e, ih hrest, rfl⟩⟩

/-- Nothing is left to do once files are included. -/
theorem sequence {asm : Assembler} {actions : List Action} {s s' : Session}
    (hincluded : (asm.notePass .includes actions >>= fun _ =>
      asm.resolveIncludes Assembler.includeDepth actions) s = .ok acts s') :
    ∃ s'', asm.sequence actions s = .ok (acts, { verbose := asm.verbose }) s'' := by
  obtain ⟨_, s₁, hnote, hincluded⟩ := bind_eq_ok.mp hincluded
  have hexpand : ∀ s, asm.expandMacros acts s = .ok acts s := by
    intro s
    unfold Assembler.expandMacros
    simp only [h.collectMacros]
    exact h.replaceCalls asm [] s
  have hnumber : ∀ s, Assembler.withIds (Gather.numberLabels acts []) s = .ok [] s := by
    intro s
    unfold Assembler.withIds
    rw [h.numberLabels]
  have hgather : ∀ s, ∃ s'', asm.gather acts s = .ok (acts, { verbose := asm.verbose }) s'' := by
    intro s
    unfold Assembler.gather
    rw [bind_of_ok (hnumber s), h.declareAll]
    exact ⟨_, rfl⟩
  unfold Assembler.sequence
  rw [bind_of_ok hnote, bind_of_ok hincluded]
  obtain ⟨s'', hgathered⟩ := hgather _
  refine ⟨s'', bind_eq_ok.mpr ⟨_, _, rfl, bind_eq_ok.mpr ⟨acts, _, hexpand _, ?_⟩⟩⟩
  exact bind_eq_ok.mpr ⟨_, _, rfl, hgathered⟩

end Inert

/-! ## A part of a binary file

Its length is a nested sum. -/

namespace Skipped

/-- A part of a binary file, whose length is a nested sum. -/
def source (n : Nat) : List Text.Glyph :=
  Text.Glyph.ofString "@=4096 .INCBIN \"f\",0," ++ nestedText n

/-- The tokens before the sum. -/
def tokens : List Token :=
  [⟨.pc, 1⟩, ⟨.assign, 1⟩, ⟨.number "4096" 4096, 1⟩, ⟨.directive "INCBIN", 1⟩,
    ⟨.string "f" [0x66], 1⟩, ⟨.comma, 1⟩, ⟨.number "0" 0, 1⟩, ⟨.comma, 1⟩]

/-- The first statement. -/
def start : Line := ⟨⟨"main", 1⟩, .assign pcName [Action.load ⟨"main", 1⟩ 4096]⟩

def part (n : Nat) : Line :=
  ⟨⟨"main", 1⟩, .includeBinary "f" [Action.load ⟨"main", 1⟩ 0] (Expr.nested "main" n).actions⟩

def actions (n : Nat) : List Action :=
  [Action.load ⟨"main", 1⟩ 4096, Action.set ⟨"main", 1⟩ pcName,
    Action.plain ⟨"main", 1⟩ (.includeBinary "f"
      [[Action.load ⟨"main", 1⟩ 0], (Expr.nested "main" n).actions])]

/-- A file of two bytes is there. -/
def loader : Loader := { library := Library.ofFiles [("f", [1, 2])] }

/-- Files are included from there. -/
def assembler : Assembler := { includer := some loader.includer }

/-- The actions before the sum, once the file is included. -/
def before : List Action :=
  [Action.load ⟨"main", 1⟩ 4096, Action.set ⟨"main", 1⟩ pcName, Action.load ⟨"main", 1⟩ 0]

def sequence (n : Nat) : List Action :=
  before ++ ((Expr.nested "main" n).actions ++ [Action.plain ⟨"main", 1⟩ (.bytes "f" [1, 2])])

theorem scan_source (n : Nat) : Lexer.scan [] (source n) =
    ⟨tokens ++ (nestedTokens n ++ [⟨.endOfFile, 1⟩]), 1, none⟩ := by
  have hstart : ∀ rest, Lexer.scan [] (Text.Glyph.ofString "@=4096 .INCBIN \"f\",0," ++ rest) =
      Lexer.scanFrom [] 1 tokens.reverse rest := fun rest => by cbv
  rw [source, hstart, ← List.append_nil (nestedText n), Lexer.scanFrom_nested]
  simp [Lexer.scanFrom_nil]

theorem linesOf_source (n : Nat) :
    linesOf "main" (tokens ++ (nestedTokens n ++ [⟨.endOfFile, 1⟩])) =
      ([start, part n], none) := by
  have hvalue : Parse.Reads (Expr.climb 0) "main"
      (tokens.drop 2 ++ (nestedTokens n ++ [⟨.endOfFile, 1⟩])) (.number ⟨"main", 1⟩ 4096)
        (tokens.drop 3 ++ (nestedTokens n ++ [⟨.endOfFile, 1⟩])) :=
    Expr.reads_alone (Expr.reads_number "4096" 4096) rfl
  have hskip : Parse.Reads (Expr.climb 0) "main"
      (tokens.drop 6 ++ (nestedTokens n ++ [⟨.endOfFile, 1⟩])) (.number ⟨"main", 1⟩ 0)
        (tokens.drop 7 ++ (nestedTokens n ++ [⟨.endOfFile, 1⟩])) :=
    Expr.reads_alone (Expr.reads_number "0" 0) rfl
  have hlength : Parse.Reads (Expr.climb 0) "main" (nestedTokens n ++ [⟨.endOfFile, 1⟩])
      (Expr.nested "main" n) [⟨.endOfFile, 1⟩] := Expr.reads_nested "main" n fun _ => rfl
  have hfirst : readLines "main" [] (tokens ++ (nestedTokens n ++ [⟨.endOfFile, 1⟩])) =
      readLines "main" [start] (tokens.drop 3 ++ (nestedTokens n ++ [⟨.endOfFile, 1⟩])) :=
    readLines_single nofun rfl (Statement.reads_assignment pcName hvalue)
  have hsecond : readLines "main" [start] (tokens.drop 3 ++ (nestedTokens n ++ [⟨.endOfFile, 1⟩])) =
      readLines "main" [part n, start] [⟨.endOfFile, 1⟩] :=
    readLines_single nofun rfl (Statement.reads_binary "f" [0x66] hskip hlength)
  unfold linesOf
  rw [hfirst, hsecond, readLines]
  rfl

theorem reads_source (n : Nat) :
    ∃ t, ({} : Reader).actions "main" (source n) {} = .ok (actions n) t := by
  have hfold : Builder.foldAt ⟨"main", 1⟩ (Expr.nested "main" n).actions =
      .ok (Expr.nested "main" n).actions := by
    obtain ⟨rest, hrest⟩ := Expr.nested_actions_head "main" n
    rw [hrest]
    rfl
  have hissue : Builder.issueAll [start, part n] {} = .ok () { actions := (actions n).toArray } := by
    refine bind_eq_ok.mpr ⟨(), _, rfl, bind_eq_ok.mpr ⟨(), _, ?_, rfl⟩⟩
    show Builder.addResult (do
      let skip ← Builder.foldAt ⟨"main", 1⟩ [Action.load ⟨"main", 1⟩ 0]
      let length ← Builder.foldAt ⟨"main", 1⟩ (Expr.nested "main" n).actions
      pure [Action.plain ⟨"main", 1⟩ (.includeBinary "f" [skip, length])]) _ = _
    rw [hfold]
    rfl
  have hlower : ∀ s : Session, s.ids = {} → Reader.lower [start, part n] none s = .ok (actions n) s := by
    rintro ⟨_, _, _, _⟩ rfl
    unfold Reader.lower Assembler.withIds
    dsimp only
    rw [hissue]
    rfl
  unfold Reader.actions
  simp only [scan_source, linesOf_source]
  exact ⟨_, bind_eq_ok.mpr ⟨(), _, rfl, hlower _ rfl⟩⟩

theorem inert_sequence (n : Nat) : Inert (sequence n) := by
  have hload : ∀ v, Inert [Action.load ⟨"main", 1⟩ v] := fun v => .single rfl rfl fun _ _ _ => rfl
  have hset : Inert [Action.set ⟨"main", 1⟩ pcName] := .single rfl rfl fun _ _ _ => rfl
  have hbytes : Inert [Action.plain ⟨"main", 1⟩ (.bytes "f" [1, 2])] :=
    .single rfl rfl fun _ _ _ => rfl
  exact ((hload 4096).append (hset.append (hload 0))).append
    ((Inert.of_expr (Expr.nested "main" n)).append hbytes)

theorem reads_file (s : Session) : loader.binary "f" ⟨"main", 1⟩ s = .ok [1, 2] s := by
  have hpick : loader.pick (Loader.candidates (loader.foldersFrom ⟨"main", 1⟩) "f") =
      ([], some "f") := by
    cbv
  have hresolve : loader.resolve "f" ⟨"main", 1⟩ s = .ok "f" s := by
    unfold Loader.resolve
    simp only [hpick]
    rfl
  have hfile : loader.library.binary "f" = .ok [1, 2] := by
    cbv
  unfold Loader.binary
  rw [bind_of_ok hresolve, hfile]
  rfl

theorem resolves_actions (n : Nat) (s : Session) :
    assembler.resolveIncludes Assembler.includeDepth (actions n) s = .ok (sequence n) s := by
  have hlocating : Assembler.locating ⟨"main", 1⟩ (loader.includer.binary "f" ⟨"main", 1⟩) s =
      .ok [1, 2] s := by
    unfold Assembler.locating
    show EStateM.tryCatch (loader.binary "f" ⟨"main", 1⟩) _ s = _
    unfold EStateM.tryCatch
    rw [reads_file]
  have hinclude : assembler.replaceInclude (some (assembler.resolveIncludes 31))
      (Action.plain ⟨"main", 1⟩ (.includeBinary "f"
        [[Action.load ⟨"main", 1⟩ 0], (Expr.nested "main" n).actions])) s =
      .ok ((sequence n).drop 2) s := by
    refine bind_eq_ok.mpr ⟨_, s, hlocating, bind_eq_ok.mpr ⟨(), s, rfl, ?_⟩⟩
    show EStateM.Result.ok _ s = _
    simp [sequence, before]
    rfl
  refine bind_eq_ok.mpr ⟨[_], s, rfl, bind_eq_ok.mpr ⟨(sequence n).drop 1, s, ?_, rfl⟩⟩
  refine bind_eq_ok.mpr ⟨[_], s, rfl, bind_eq_ok.mpr ⟨(sequence n).drop 2, s, ?_, rfl⟩⟩
  refine bind_eq_ok.mpr ⟨_, s, hinclude, bind_eq_ok.mpr ⟨[], s, rfl, ?_⟩⟩
  rw [List.append_nil]
  rfl

end Skipped

end Mos6510
