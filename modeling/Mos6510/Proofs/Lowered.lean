import Mos6510.Loader
import Mos6510.Proofs.Issue
import Mos6510.Proofs.Parsing
import Mos6510.Proofs.Stages
import Mos6510.Proofs.Targets

/-!
# Lowered programs

A lowered program is one that was read from source text.  What its actions
hold inside them, the arguments of messages, calls and includes, are texts
and expressions (`Op.Sound`), and that survives everything that happens to a
program before it is executed: lowering, includes, macro expansion and the
gathering of symbols.  So all messages of the code that is executed have
arguments that can be evaluated without a trace (`prepare_speaks`).
-/

namespace Mos6510

open Outcome

/-! ## Sound actions -/

/-- Does the action hold other actions? -/
def Op.nests : Op → Bool
  | .message _ _ _ => true
  | .defineMacro _ _ _ => true
  | .callMacro _ _ => true
  | .includeBinary _ _ => true
  | _ => false

/-- What an action holds are arguments and bodies as they are lowered. -/
inductive Op.Sound : Op → Prop
  | message {level : Level} {formatted : Bool} {args : List (List Action)} :
      (∀ arg ∈ args, IsMessageArg arg) → Op.Sound (.message level formatted args)
  | defineMacro {name : String} {params : List String} {body : List Action} :
      (∀ a ∈ body, Op.Sound a.op) → Op.Sound (.defineMacro name params body)
  | callMacro {name : String} {args : List (List Action)} :
      (∀ arg ∈ args, IsExpr arg) → Op.Sound (.callMacro name args)
  | includeBinary {name : String} {args : List (List Action)} :
      (∀ arg ∈ args, IsExpr arg) → Op.Sound (.includeBinary name args)
  | flat {op : Op} : op.nests = false → Op.Sound op

def AllSound (acts : List Action) : Prop := ∀ a ∈ acts, a.op.Sound

theorem AllSound.nil : AllSound [] := fun _ h => absurd h List.not_mem_nil

theorem AllSound.cons {a : Action} {acts : List Action} (ha : a.op.Sound) (h : AllSound acts) :
    AllSound (a :: acts) :=
  List.forall_mem_cons.mpr ⟨ha, h⟩

theorem AllSound.append {as bs : List Action} (ha : AllSound as) (hb : AllSound bs) :
    AllSound (as ++ bs) := by
  intro a h
  rcases List.mem_append.mp h with h | h
  · exact ha a h
  · exact hb a h

/-- An action that holds no others. -/
theorem AllSound.single {a : Action} (h : a.op.nests = false) : AllSound [a] :=
  .cons (.flat h) .nil

theorem Expr.allSound (x : Expr) : AllSound x.actions := by
  induction x with
  | number loc value => exact .single rfl
  | symbol loc name => exact .single rfl
  | unary loc op x ih => exact ih.append (.single rfl)
  | binary loc op x y ihx ihy => exact ihx.append (ihy.append (.single rfl))

theorem IsExpr.allSound {acts : List Action} (h : IsExpr acts) : AllSound acts := by
  obtain ⟨x, rfl⟩ := h
  exact x.allSound

theorem Op.Sound.speaks {a : Action} (h : a.op.Sound) : a.Speaks := by
  intro level formatted args hop
  rw [hop] at h
  cases h with
  | message hargs => exact hargs
  | flat hflat => cases hflat

/-! ## Renaming -/

/-- The expression with other names. -/
def Expr.rename (f : String → String) : Expr → Expr
  | number loc value => number loc value
  | symbol loc name => symbol loc (f name)
  | unary loc op x => unary loc op (x.rename f)
  | binary loc op x y => binary loc op (x.rename f) (y.rename f)

theorem mapSymbolsAll_eq_map (f : String → String) (acts : List Action) :
    mapSymbolsAll f acts = acts.map (Action.mapSymbols f) := by
  induction acts with
  | nil => rw [mapSymbolsAll, List.map_nil]
  | cons a rest ih => rw [mapSymbolsAll, List.map_cons, ih]

theorem mapSymbolsArgs_eq_map (f : String → String) (args : List (List Action)) :
    mapSymbolsArgs f args = args.map (mapSymbolsAll f) := by
  induction args with
  | nil => rw [mapSymbolsArgs, List.map_nil]
  | cons a rest ih => rw [mapSymbolsArgs, List.map_cons, ih]

theorem Action.mapSymbols_plain (f : String → String) (loc : Location) (op : Op) :
    (Action.plain loc op).mapSymbols f = Action.plain loc (op.mapSymbols f) := by
  rw [Action.plain, Action.mapSymbols, Action.plain]

theorem Expr.mapSymbols_actions (f : String → String) (x : Expr) :
    mapSymbolsAll f x.actions = (x.rename f).actions := by
  rw [mapSymbolsAll_eq_map]
  induction x with
  | number loc value =>
      simp [Expr.actions, Expr.rename, Action.load, Action.mapSymbols_plain, Op.mapSymbols]
  | symbol loc name =>
      simp [Expr.actions, Expr.rename, Action.get, Action.mapSymbols_plain, Op.mapSymbols]
  | unary loc op x ih =>
      simp [Expr.actions, Expr.rename, Action.mapSymbols_plain, Op.mapSymbols, ih]
  | binary loc op x y ihx ihy =>
      simp [Expr.actions, Expr.rename, Action.mapSymbols_plain, Op.mapSymbols, ihx, ihy]

theorem IsExpr.mapSymbols {acts : List Action} (h : IsExpr acts) (f : String → String) :
    IsExpr (mapSymbolsAll f acts) := by
  obtain ⟨x, rfl⟩ := h
  exact ⟨x.rename f, x.mapSymbols_actions f⟩

theorem IsMessageArg.mapSymbols {acts : List Action} (h : IsMessageArg acts)
    (f : String → String) : IsMessageArg (mapSymbolsAll f acts) := by
  rcases h with ⟨loc, s, rfl⟩ | hexpr
  · left
    exact ⟨loc, s, by simp [mapSymbolsAll_eq_map, Action.mapSymbols_plain, Op.mapSymbols]⟩
  · exact .inr (hexpr.mapSymbols f)

theorem forall_mem_mapSymbolsArgs {Q : List Action → Prop} (f : String → String)
    (hf : ∀ acts, Q acts → Q (mapSymbolsAll f acts)) {args : List (List Action)}
    (h : ∀ arg ∈ args, Q arg) : ∀ arg ∈ mapSymbolsArgs f args, Q arg := by
  intro arg harg
  rw [mapSymbolsArgs_eq_map] at harg
  obtain ⟨arg', harg', rfl⟩ := List.mem_map.mp harg
  exact hf arg' (h arg' harg')

/-- Renaming keeps an action sound. -/
theorem Op.Sound.mapSymbols {op : Op} (h : op.Sound) (f : String → String) :
    (op.mapSymbols f).Sound := by
  cases h with
  | message hargs =>
      rw [Op.mapSymbols]
      exact .message (forall_mem_mapSymbolsArgs f (fun _ h => h.mapSymbols f) hargs)
  | defineMacro hbody =>
      simp only [Op.mapSymbols]
      exact .defineMacro hbody
  | callMacro hargs =>
      rw [Op.mapSymbols]
      exact .callMacro (forall_mem_mapSymbolsArgs f (fun _ h => h.mapSymbols f) hargs)
  | includeBinary hargs =>
      rw [Op.mapSymbols]
      exact .includeBinary (forall_mem_mapSymbolsArgs f (fun _ h => h.mapSymbols f) hargs)
  -- a flat operation holds no others, and renaming adds none
  | flat hflat =>
      refine .flat ?_
      cases op with
      | message => cases hflat
      | defineMacro => cases hflat
      | callMacro => cases hflat
      | includeBinary => cases hflat
      | _ => simp [Op.mapSymbols, Op.nests]

theorem AllSound.mapSymbols {acts : List Action} (h : AllSound acts) (f : String → String) :
    AllSound (mapSymbolsAll f acts) := by
  intro a ha
  rw [mapSymbolsAll_eq_map] at ha
  obtain ⟨⟨loc, op, x⟩, hb, rfl⟩ := List.mem_map.mp ha
  rw [Action.mapSymbols]
  exact (h _ hb).mapSymbols f

/-! ## Lowering -/

theorem IsExpr.load (loc : Location) (v : Int64) : IsExpr [Action.load loc v] := ⟨.number loc v, rfl⟩

/-- Folding an expression leaves an expression. -/
theorem IsExpr.foldConstant {acts acts' : List Action} (h : IsExpr acts)
    (hfold : foldConstant acts = .ok acts') : IsExpr acts' :=
  foldConstant_keeps .load h hfold

namespace Builder

theorem foldAt_isExpr {loc : Location} {acts acts' : List Action} (h : IsExpr acts)
    (hfold : foldAt loc acts = .ok acts') : IsExpr acts' :=
  foldAt_keeps .load h hfold

theorem foldAllAt_isExpr {loc : Location} {args args' : List (List Action)}
    (h : ∀ arg ∈ args, IsExpr arg) (hfold : foldAllAt loc args = .ok args') :
    ∀ arg ∈ args', IsExpr arg :=
  foldAllAt_keeps .load h hfold

theorem messageArgs_isMessageArg {loc : Location} {args : List MessageArg}
    {args' : List (List Action)} (h : ∀ arg ∈ args, arg.Sound)
    (hargs : messageArgs loc args = .ok args') : ∀ arg ∈ args', IsMessageArg arg := by
  intro arg harg
  refine (messageArgs_keeps .load (fun arg harg e he => ?_) hargs arg harg).imp_left fun ⟨s, h⟩ =>
    ⟨loc, s, h⟩
  cases arg with
  | text s => cases he
  | expr acts =>
      obtain rfl := List.mem_singleton.mp he
      exact h _ harg

end Builder

/-- A statement that leaves the blocks alone is lowered to sound actions. -/
theorem Statement.Lowers.sound {loc : Location} {stmt : Statement} {e : List Action} {op : Op}
    (hstmt : stmt.Sound) (h : stmt.Lowers loc e op) : AllSound e ∧ op.Sound := by
  cases h with
  | assign hfold => exact ⟨(Builder.foldAt_isExpr hstmt hfold).allSound, .flat rfl⟩
  | label => exact ⟨.nil, .flat rfl⟩
  | instruction hfold hop =>
      refine ⟨?_, by cases hop <;> exact .flat rfl⟩
      rcases hstmt with hnone | hexpr
      · rw [hnone] at hfold
        cases hfold
        exact .nil
      · exact (hexpr.foldConstant hfold).allSound
  | data hfold => exact ⟨(Builder.foldAt_isExpr hstmt hfold).allSound, .flat rfl⟩
  | text => exact ⟨.nil, .flat rfl⟩
  | call hargs => exact ⟨.nil, .callMacro (Builder.foldAllAt_isExpr hstmt hargs)⟩
  | metaLabel => exact ⟨.nil, .flat rfl⟩
  | goto => exact ⟨.nil, .flat rfl⟩
  | message hargs => exact ⟨.nil, .message (Builder.messageArgs_isMessageArg hstmt hargs)⟩
  | includeSource => exact ⟨.nil, .flat rfl⟩
  | includeBinary hskip hlength =>
      refine ⟨.nil, .includeBinary fun arg harg => ?_⟩
      rcases List.mem_pair.mp harg with rfl | rfl
      · exact Builder.foldAt_isExpr hstmt.1 hskip
      · exact Builder.foldAt_isExpr hstmt.2 hlength

/-! ## The builder -/

/-- The actions set aside before a macro definition are sound. -/
def Block.Sound : Block → Prop
  | .definition _ _ _ outer => AllSound outer.toList
  | _ => True

/-- All that the builder holds is sound. -/
structure Builder.Sound (b : Builder) : Prop where
  actions : AllSound b.actions.toList
  blocks : ∀ blk ∈ b.blocks, blk.Sound

namespace Builder

/-- More actions, and other numbers and open blocks. -/
theorem Sound.extend {b : Builder} (h : b.Sound) {acts : List Action} (hacts : AllSound acts)
    {blocks : List Block} (hblocks : ∀ blk ∈ blocks, blk.Sound) (ids : Ids) :
    ({ ids := ids, actions := b.actions ++ acts, blocks := blocks } : Builder).Sound where
  actions := by
    rw [Array.toList_appendList]
    exact h.actions.append hacts
  blocks := hblocks

/-- What a sound statement adds is sound, and so are the blocks after it. -/
theorem Adds.sound {loc : Location} {ids ids' : Ids} {stmt : Statement} {acts : List Action}
    {blocks blocks' : List Block} (hstmt : stmt.Sound) (hblocks : ∀ blk ∈ blocks, blk.Sound)
    (h : Adds loc ids stmt blocks acts ids' blocks') :
    AllSound acts ∧ ∀ blk ∈ blocks', blk.Sound := by
  -- what the statement leaves open was open before
  have htail : ∀ {blk : Block} {outer : List Block}, (∀ blk' ∈ blk :: outer, blk'.Sound) →
      ∀ blk' ∈ outer, blk'.Sound :=
    fun h => (List.forall_mem_cons.mp h).2
  cases h with
  | simple h =>
      obtain ⟨he, hop⟩ := h.sound hstmt
      exact ⟨he.append (.cons hop .nil), hblocks⟩
  | openIf hfold =>
      have htest := (foldAt_isExpr hstmt hfold).allSound
      exact ⟨htest.append (.single rfl), List.forall_mem_cons.mpr ⟨trivial, hblocks⟩⟩
  | elseIf hfold =>
      have htest := (foldAt_isExpr hstmt hfold).allSound
      refine ⟨AllSound.append (AllSound.append ?_ htest) (.single rfl), ?_⟩
      · exact .cons (.flat rfl) (.single rfl)
      · exact List.forall_mem_cons.mpr ⟨trivial, htail hblocks⟩
  | otherwise =>
      refine ⟨.cons (.flat rfl) (.single rfl), ?_⟩
      exact List.forall_mem_cons.mpr ⟨trivial, htail hblocks⟩
  | @closeIf start exit next outer =>
      refine ⟨AllSound.append ?_ (.single rfl), htail hblocks⟩
      cases next with
      | none => exact .nil
      | some next => exact .single rfl
  | openRepeat hfold =>
      have hcount := (foldAt_isExpr hstmt hfold).allSound
      refine ⟨hcount.append (.cons (.flat rfl) (.cons (.flat rfl) (.single rfl))), ?_⟩
      exact List.forall_mem_cons.mpr ⟨trivial, hblocks⟩
  | closeRepeat => exact ⟨.cons (.flat rfl) (.single rfl), htail hblocks⟩
  | openWhile hfold =>
      have htest := (foldAt_isExpr hstmt hfold).allSound
      refine ⟨AllSound.append (AllSound.append (.single rfl) htest) (.single rfl), ?_⟩
      exact List.forall_mem_cons.mpr ⟨trivial, hblocks⟩
  | closeWhile => exact ⟨.cons (.flat rfl) (.single rfl), htail hblocks⟩

/-- Lowering a sound statement keeps the builder sound. -/
theorem Issued.sound {loc : Location} {stmt : Statement} {b b' : Builder} (hb : b.Sound)
    (hstmt : stmt.Sound) (h : Issued loc stmt b b') : b'.Sound := by
  cases h with
  | adds hadds =>
      obtain ⟨hacts, hblocks⟩ := hadds.sound hstmt hb.blocks
      exact hb.extend hacts hblocks _
  | openMacro =>
      exact ⟨.nil, List.forall_mem_cons.mpr ⟨hb.actions, fun _ h => absurd h List.not_mem_nil⟩⟩
  | @closeMacro start name params before _ outer hblocks =>
      have houter := hb.blocks
      rw [hblocks] at houter
      obtain ⟨hbefore, houter⟩ := List.forall_mem_cons.mp houter
      -- the body is what was added since the definition was opened
      have hwas : ({ b with actions := before, blocks := outer } : Builder).Sound :=
        ⟨hbefore, houter⟩
      exact hwas.extend (.cons (.defineMacro hb.actions) .nil) houter _

theorem issueAll_sound {lines : List Line} {b b' : Builder} {u : Unit} (hb : b.Sound)
    (hlines : ∀ l ∈ lines, l.Sound) (h : issueAll lines b = .ok u b') : b'.Sound :=
  issueAll_induction (fun l hl _ _ hb hissue => hissue.sound hb (hlines l hl)) hb h

end Builder

/-! ## Reading -/

theorem yields_of_withIds {α : Type} {m : EStateM Error Ids α} {a : α}
    (h : Yields (Assembler.withIds m) a) : Yields m a := by
  obtain ⟨s, s', h⟩ := h
  unfold Assembler.withIds at h
  split at h
  · rename_i b ids hm
    cases h
    exact ⟨s.ids, ids, hm⟩
  · cases h

/-- The actions were read from source text. -/
def Lowered (acts : List Action) : Prop :=
  ∃ (r : Reader) (file : String) (text : List Text.Glyph), Yields (r.actions file text) acts

/-- What is read from source text is sound. -/
theorem Lowered.allSound {acts : List Action} (h : Lowered acts) : AllSound acts := by
  obtain ⟨r, file, text, s, s', h⟩ := h
  obtain ⟨b, hissue, -, rfl, -⟩ := Reader.actions_eq_ok h
  have hstart : ({ ids := s.ids } : Builder).Sound := ⟨.nil, fun _ h => absurd h List.not_mem_nil⟩
  exact (Builder.issueAll_sound hstart (linesOf_sound file _) hissue).actions

/-- Included files are read from source text too. -/
def Includer.Lowered (inc : Includer) : Prop :=
  ∀ name loc acts, Yields (inc.source name loc) acts → Mos6510.Lowered acts

/-- A loader reads what it includes. -/
theorem Loader.includer_lowered (ld : Loader) : ld.includer.Lowered := by
  intro name loc acts h
  change Yields (ld.source name loc) acts at h
  unfold Loader.source at h
  obtain ⟨file, -, h⟩ := h.bind
  obtain ⟨s, -, h⟩ := h.bind
  split at h
  · exact h.throw.elim
  · obtain ⟨_, -, h⟩ := h.bind
    obtain ⟨_, -, h⟩ := h.bind
    cases hsource : ld.library.source file with
    | error err =>
        simp only [hsource] at h
        exact h.throw.elim
    | ok bytes =>
        simp only [hsource] at h
        exact ⟨ld.reader, file, _, h⟩

/-! ## Includes and macros -/

namespace Assembler

theorem yields_of_locating {α : Type} {loc : Location} {m : SessionM α} {a : α}
    (h : Yields (locating loc m) a) : Yields m a := by
  obtain ⟨s, s', h⟩ := h
  exact ⟨s, s', (tryCatch_eq_ok fun _ _ _ _ => throw_ne_ok).mp h⟩

/-- Sound actions that are replaced by sound actions. -/
theorem replaceEach_sound {f : Action → SessionM (List Action)} {acts r : List Action}
    (hf : ∀ a bs, a.op.Sound → Yields (f a) bs → AllSound bs) (hacts : AllSound acts)
    (h : Yields (replaceEach f acts) r) : AllSound r := by
  induction acts generalizing r with
  | nil =>
      obtain rfl := h.pure
      exact .nil
  | cons a rest ih =>
      obtain ⟨ha, hrest⟩ := List.forall_mem_cons.mp hacts
      obtain ⟨bs, hbs, h⟩ := h.bind
      obtain ⟨rest', hrest', h⟩ := h.bind
      obtain rfl := h.pure
      exact (hf a bs ha hbs).append (ih hrest hrest')

theorem replaceInclude_sound {asm : Assembler} {nested : Option (List Action → SessionM (List Action))}
    (hinc : ∀ inc, asm.includer = some inc → inc.Lowered)
    (hnested : ∀ f, nested = some f → ∀ acts r, AllSound acts → Yields (f acts) r → AllSound r)
    {a : Action} {bs : List Action} (ha : a.op.Sound)
    (h : Yields (asm.replaceInclude nested a) bs) : AllSound bs := by
  unfold replaceInclude at h
  split at h
  · exact h.throw.elim
  · rename_i inc hop hasm
    split at h
    · exact h.throw.elim
    · rename_i f
      obtain ⟨acts, hacts, h⟩ := h.bind
      obtain ⟨_, -, h⟩ := h.bind
      exact hnested f rfl acts bs (hinc _ hasm _ _ _ (yields_of_locating hacts)).allSound h
  · exact h.throw.elim
  · rename_i name args inc hop hasm
    obtain ⟨bytes, -, h⟩ := h.bind
    obtain ⟨_, -, h⟩ := h.bind
    obtain rfl := h.pure
    rw [hop] at ha
    cases ha with
    | includeBinary hargs =>
        refine AllSound.append ?_ (.single rfl)
        intro b hb
        obtain ⟨arg, harg, hb⟩ := List.mem_flatten.mp hb
        exact (hargs arg harg).allSound b hb
    | flat hflat => cases hflat
  · obtain rfl := h.pure
    exact .cons ha .nil

theorem resolveIncludes_sound {asm : Assembler}
    (hinc : ∀ inc, asm.includer = some inc → inc.Lowered) (levels : Nat) {acts r : List Action}
    (hacts : AllSound acts) (h : Yields (asm.resolveIncludes levels acts) r) : AllSound r := by
  induction levels generalizing acts r with
  | zero =>
      rw [resolveIncludes] at h
      refine replaceEach_sound (fun a bs ha hbs => ?_) hacts h
      refine replaceInclude_sound hinc (fun f hf acts r hacts h => ?_) ha hbs
      cases hf
  | succ levels ih =>
      rw [resolveIncludes] at h
      refine replaceEach_sound (fun a bs ha hbs => ?_) hacts h
      refine replaceInclude_sound hinc (fun f hf acts r hacts h => ?_) ha hbs
      cases hf
      exact ih hacts h

end Assembler

namespace MacroDef

/-- Numbers and names of a call do not touch what an action holds. -/
theorem renumber_sound {m : MacroDef} {seq : Nat} {jumps counters : List (Int × Nat)} {a : Action}
    {op : Op} (ha : a.op.Sound) (h : m.renumber seq jumps counters a = .ok op) : op.Sound := by
  unfold renumber at h
  split at h
  · split at h
    · cases h
      exact .flat rfl
    · cases h
  · split at h
    · cases h
      exact .flat rfl
    · cases h
  · split at h
    · cases h
      exact .flat rfl
    · cases h
  · split at h
    · cases h
      exact .flat rfl
    · cases h
  · split at h
    · cases h
      exact .flat rfl
    · cases h
    · cases h
  · split at h
    · cases h
      exact .flat rfl
    · cases h
    · cases h
  · cases h
    exact .flat rfl
  · cases h
    exact .flat rfl
  · cases h
    exact ha

theorem bindBody_sound {m : MacroDef} {seq : Nat} {jumps counters : List (Int × Nat)}
    {x : Expansion} {body acts : List Action} (hbody : AllSound body)
    (h : m.bindBody seq jumps counters x body = .ok acts) : AllSound acts := by
  induction body generalizing acts with
  | nil =>
      cases h
      exact .nil
  | cons a rest ih =>
      obtain ⟨ha, hrest⟩ := List.forall_mem_cons.mp hbody
      unfold bindBody at h
      split at h
      · cases h
      · rename_i op hop
        split at h
        · cases h
        · rename_i rest' hrest'
          cases h
          exact .cons ((renumber_sound ha hop).mapSymbols _) (ih hrest hrest')

theorem bindArgs_sound {loc : Location} {label : String} {params : List String}
    {args : List (List Action)} (hargs : ∀ arg ∈ args, IsExpr arg) :
    AllSound (bindArgs loc label params args) := by
  induction params generalizing args with
  | nil =>
      unfold bindArgs
      exact .nil
  | cons p params ih =>
      cases args with
      | nil =>
          unfold bindArgs
          exact .nil
      | cons arg args =>
          obtain ⟨harg, hrest⟩ := List.forall_mem_cons.mp hargs
          unfold bindArgs
          exact harg.allSound.append (.cons (.flat rfl) (ih hrest))

theorem instantiate_sound {m : MacroDef} {loc : Location} {args : List (List Action)} {seq : Nat}
    {acts : List Action} (hbody : AllSound m.body) (hargs : ∀ arg ∈ args, IsExpr arg)
    (h : Yields (m.instantiate loc args seq) acts) : AllSound acts := by
  obtain ⟨ids, ids', h⟩ := h
  unfold instantiate at h
  dsimp only at h
  split at h
  · cases h
  · split at h
    · cases h
    · rename_i body hbind
      cases h
      exact .cons (.flat rfl) ((bindArgs_sound hargs).append (bindBody_sound hbody hbind))

end MacroDef

namespace Assembler

theorem collectMacros_sound {acts : List Action} {known macros : List (String × MacroDef)}
    (hacts : AllSound acts) (hknown : ∀ m ∈ known, AllSound m.2.body)
    (h : collectMacros acts known = .ok macros) : ∀ m ∈ macros, AllSound m.2.body := by
  induction acts generalizing known with
  | nil =>
      cases h
      exact hknown
  | cons a rest ih =>
      obtain ⟨ha, hrest⟩ := List.forall_mem_cons.mp hacts
      unfold collectMacros at h
      split at h
      · rename_i name params body hop
        split at h
        · cases h
        · refine ih hrest (List.forall_mem_cons.mpr ⟨?_, hknown⟩) h
          rw [hop] at ha
          cases ha with
          | defineMacro hbody => exact AllSound.mapSymbols hbody _
          | flat hflat => cases hflat
      · exact ih hrest hknown h

theorem replaceCall_sound {asm : Assembler} {known : List (String × MacroDef)}
    (hknown : ∀ m ∈ known, AllSound m.2.body) {a : Action} {bs : List Action} (ha : a.op.Sound)
    (h : Yields (asm.replaceCall known a) bs) : AllSound bs := by
  unfold replaceCall at h
  split at h
  · obtain rfl := h.pure
    exact .nil
  · rename_i name args hop
    split at h
    · exact h.throw.elim
    · rename_i m hm
      obtain ⟨seq, -, h⟩ := h.bind
      obtain ⟨acts, hacts, h⟩ := h.bind
      obtain ⟨_, -, h⟩ := h.bind
      obtain rfl := h.pure
      obtain ⟨before, after, heq, -⟩ := List.lookup_eq_some_iff.mp hm
      -- the body called is one collected, which is sound
      have hbody : AllSound m.body := hknown (name, m) (heq ▸ List.mem_append_cons_self)
      rw [hop] at ha
      cases ha with
      | callMacro hargs => exact MacroDef.instantiate_sound hbody hargs (yields_of_withIds hacts)
      | flat hflat => cases hflat
  · obtain rfl := h.pure
    exact .cons ha .nil

theorem expandMacros_sound {asm : Assembler} {acts r : List Action} (hacts : AllSound acts)
    (h : Yields (asm.expandMacros acts) r) : AllSound r := by
  unfold expandMacros at h
  split at h
  · exact h.throw.elim
  · rename_i known hcollect
    have hknown := collectMacros_sound hacts (fun _ h => absurd h List.not_mem_nil) hcollect
    exact replaceEach_sound (fun a bs ha hbs => replaceCall_sound hknown ha hbs) hacts h

end Assembler

/-! ## Symbols and code -/

namespace Gather

theorem declareAction_sound {labels : List (String × Nat)} {parent : String} {a : Action}
    {r : Action × String} {e e' : Engine} (ha : a.op.Sound)
    (h : declareAction labels parent a e = .ok r e') : r.1.op.Sound := by
  unfold declareAction at h
  split at h
  · cases h
    exact .flat rfl
  · split at h
    · cases h
      exact .flat rfl
    · cases h
  · split at h
    · cases h
      exact ha
    · cases h
  · split at h
    · cases h
      exact ha
    · cases h
  · cases h
    exact ha

theorem declareAll_sound {labels : List (String × Nat)} {parent : String} {acts r : List Action}
    {e e' : Engine} (hacts : AllSound acts) (h : declareAll labels parent acts e = .ok r e') :
    AllSound r := by
  induction acts generalizing parent r e with
  | nil =>
      obtain ⟨rfl, -⟩ := pure_eq_ok.mp h
      exact .nil
  | cons a rest ih =>
      obtain ⟨ha, hrest⟩ := List.forall_mem_cons.mp hacts
      obtain ⟨⟨a', next⟩, e₁, hdeclare, h⟩ := bind_eq_ok.mp h
      obtain ⟨rest', e₂, hrest', hpure⟩ := bind_eq_ok.mp h
      obtain ⟨rfl, rfl⟩ := pure_eq_ok.mp hpure
      exact .cons (declareAction_sound ha hdeclare) (ih hrest hrest')

end Gather

/-- In the code of a lowered program, messages evaluate nothing but texts and
expressions. -/
theorem Assembler.prepare_speaks {asm : Assembler} {actions : List Action} {code : Code}
    {e : Engine} (hlowered : Lowered actions)
    (hinc : ∀ inc, asm.includer = some inc → inc.Lowered)
    (h : Yields (asm.prepare actions) (code, e)) :
    (∀ a ∈ code.actions, a.Speaks) ∧
      ∀ j k, code.target? j = some k → ∀ a ∈ k, a.Speaks := by
  obtain ⟨included, expanded, gathered, hincluded, hexpanded, hgathered, hcode⟩ :=
    yields_of_prepare h
  have hsound := resolveIncludes_sound hinc includeDepth hlowered.allSound hincluded
  have hsound := expandMacros_sound hsound hexpanded
  obtain ⟨labels, hdeclare⟩ := yields_of_gather hgathered
  have hsound := Gather.declareAll_sound hsound hdeclare
  obtain ⟨-, hactions, -, -⟩ := Code.ofActions_eq_ok hcode
  refine ⟨fun a ha => ?_, fun j k hk a ha => ?_⟩
  · rw [hactions] at ha
    exact (hsound a (Code.mem_of_mem_strip ha)).speaks
  · exact (hsound a (Code.mem_of_target? hcode hk ha)).speaks

end Mos6510
