import Mathlib
import Mos6510.Loader
import Mos6510.Proofs.Lowering
import Mos6510.Proofs.Rebuild

/-!
# Including a file, or having its lines

A file that is included outside all blocks does what its lines do in place of the
directive.

* `Spliced`: lines in which each include is replaced by the lines of the file
  that it stands for, and these in turn;
* `Spliced.replays`: such lines are lowered where the lines with includes can be
  lowered and resolved, and become the same program but for numbers and
  locations;
* `Spliced.assemble`: so they are assembled with the same outcome.
-/

namespace Mos6510

open Outcome

/-! ## Finding files -/

/-- The file that a name stands for at a location. -/
def Loader.find (ld : Loader) (name : String) (loc : Location) : Option String :=
  (ld.pick (candidates (ld.foldersFrom loc) name)).2

namespace Loader

variable {ld : Loader} {name file : String} {loc : Location} {s s₁ : Session}

theorem find_of_resolve (h : ld.resolve name loc s = .ok file s₁) : ld.find name loc = some file := by
  unfold resolve at h
  dsimp only at h
  split at h
  · rename_i hpick
    cases h
    exact hpick
  · cases h

theorem resolve_of_find (h : ld.find name loc = some file) (s : Session) :
    ∃ s₁, ld.resolve name loc s = .ok file s₁ ∧ s₁.ids = s.ids := by
  unfold find at h
  unfold resolve
  dsimp only
  rw [h]
  exact ⟨_, rfl, rfl⟩

/-- A binary file is found and read. -/
theorem binary_eq_ok {bytes : List UInt8} (h : ld.binary name loc s = .ok bytes s₁) :
    ∃ file, ld.find name loc = some file ∧ ld.library.binary file = .ok bytes ∧ s₁.ids = s.ids := by
  obtain ⟨file, s₂, hresolve, h⟩ := bind_eq_ok.mp h
  obtain ⟨_, s₃, hnote, h⟩ := bind_eq_ok.mp h
  cases hnote
  cases hbinary : ld.library.binary file with
  | error err =>
      simp only [hbinary] at h
      exact absurd h throw_ne_ok
  | ok bytes' =>
      simp only [hbinary] at h
      obtain ⟨rfl, rfl⟩ := pure_eq_ok.mp h
      exact ⟨file, find_of_resolve hresolve, hbinary, (resolve_ids hresolve : _)⟩

/-- It is read wherever its name stands for it. -/
theorem binary_of_find {bytes : List UInt8} (hfind : ld.find name loc = some file)
    (hbinary : ld.library.binary file = .ok bytes) (s : Session) :
    ∃ s₁, ld.binary name loc s = .ok bytes s₁ ∧ s₁.ids = s.ids := by
  obtain ⟨s₂, hresolve, hids⟩ := resolve_of_find hfind s
  let s₁ : Session := { s₂ with log := s₂.log.addIf ld.verbose (loc.render ++ ": reading " ++ file) }
  refine ⟨s₁, bind_eq_ok.mpr ⟨file, s₂, hresolve, bind_eq_ok.mpr ⟨(), s₁, rfl, ?_⟩⟩, hids⟩
  simp only [hbinary]
  rfl

/-- A source file is found and read. -/
theorem source_found {acts : List Action} (h : ld.source name loc s = .ok acts s₁) :
    ∃ file bytes s₂, ld.find name loc = some file ∧ ld.library.source file = .ok bytes ∧
      s₂.ids = s.ids ∧ ld.reader.actions file (Text.Glyph.ofBytes bytes) s₂ = .ok acts s₁ := by
  obtain ⟨file, s₂, hresolve, h⟩ := bind_eq_ok.mp h
  rw [bind_of_ok (get_eq_ok.mpr ⟨rfl, rfl⟩)] at h
  split at h
  · exact absurd h throw_ne_ok
  · obtain ⟨_, s₃, hmodify, h⟩ := bind_eq_ok.mp h
    obtain ⟨_, s₄, hnote, h⟩ := bind_eq_ok.mp h
    have hids : s₄.ids = s.ids := by
      cases hmodify
      cases hnote
      exact (resolve_ids hresolve : _)
    clear hmodify hnote
    cases hsource : ld.library.source file with
    | error err =>
        simp only [hsource] at h
        exact absurd h throw_ne_ok
    | ok bytes =>
        simp only [hsource] at h
        exact ⟨file, bytes, s₄, find_of_resolve hresolve, hsource, hids, h⟩

end Loader

/-! ## Reading files -/

/-- The text of a file is read as lines, without fault. -/
structure Reader.Reads (r : Reader) (file : String) (text : List Text.Glyph) (lines : List Line) :
    Prop where
  scan : (Lexer.scan r.defines text).error = none
  lines : linesOf file (Lexer.scan r.defines text).tokens = (lines, none)

namespace Reader

variable {r : Reader} {file : String} {text : List Text.Glyph} {lines : List Line}
  {acts : List Action} {s s' : Session}

/-- A file that is read and lowered has lines that close all blocks. -/
theorem reads_of_actions (h : r.actions file text s = .ok acts s') :
    ∃ lines b, r.Reads file text lines ∧ Builder.issueAll lines { ids := s.ids } = .ok () b ∧
      b.blocks = [] ∧ acts = b.actions.toList ∧ s'.ids = b.ids := by
  obtain ⟨b, hissue, hblocks, hacts, hids⟩ := actions_eq_ok h
  unfold actions at h
  dsimp only at h
  cases hscan : (Lexer.scan r.defines text).error with
  | some err =>
      simp only [hscan] at h
      exact absurd h throw_ne_ok
  | none =>
      simp only [hscan] at h
      obtain ⟨_, s₁, hmodify, h⟩ := bind_eq_ok.mp h
      cases hmodify
      refine ⟨_, b, ⟨hscan, ?_⟩, hissue, hblocks, hacts, hids⟩
      -- an error behind the lines would be the outcome
      refine Prod.ext rfl ?_
      unfold lower Assembler.withIds at h
      dsimp only at h
      rw [hissue] at h
      dsimp only at h
      cases herr : (linesOf file (Lexer.scan r.defines text).tokens).2 with
      | none => rfl
      | some err =>
          simp only [herr] at h
          cases h

/-- Lines that close all blocks make a file that is read and lowered. -/
theorem Reads.actions (h : r.Reads file text lines) {b : Builder}
    (hissue : Builder.issueAll lines { ids := s.ids } = .ok () b) (hblocks : b.blocks = []) :
    ∃ s', r.actions file text s = .ok b.actions.toList s' ∧ s'.ids = b.ids := by
  let log := s.log.addIf r.verbose (file ++ ": " ++ Text.decimal (Lexer.scan r.defines text).line
    ++ " lines, " ++ Text.decimal (Lexer.scan r.defines text).tokens.length ++ " tokens")
  refine ⟨{ s with ids := b.ids, log := log }, ?_, rfl⟩
  unfold Reader.actions
  simp only [h.scan, h.lines]
  refine bind_eq_ok.mpr ⟨(), { s with log := log }, rfl, ?_⟩
  unfold lower Assembler.withIds
  dsimp only
  rw [hissue]
  simp only [Builder.finish, hblocks]

theorem Reads.sound (h : r.Reads file text lines) : ∀ l ∈ lines, l.Sound := by
  intro l hl
  have hlines : (linesOf file (Lexer.scan r.defines text).tokens).1 = lines := by rw [h.lines]
  exact linesOf_sound file _ l (hlines ▸ hl)

theorem Reads.unique {lines' : List Line} (h : r.Reads file text lines)
    (h' : r.Reads file text lines') : lines = lines' :=
  congrArg Prod.fst (h.lines.symm.trans h'.lines)

end Reader

/-! ## Blocks -/

/-- How many blocks a statement opens. -/
def Statement.opens : Statement → Int
  | .openIf _ | .openRepeat _ | .openWhile _ => 1
  | .closeIf | .closeRepeat | .closeWhile => -1
  | _ => 0

/-- How many blocks are open after some lines that were not before. -/
def openAfter (lines : List Line) : Int := (lines.map fun l => l.statement.opens).sum

theorem openAfter_append (as bs : List Line) : openAfter (as ++ bs) = openAfter as + openAfter bs := by
  rw [openAfter, List.map_append, List.sum_append]
  rfl

/-- No file of source text is included in an open block. -/
def IncludesOutside (lines : List Line) : Prop :=
  ∀ ⦃before loc name after⦄, lines = before ++ ⟨loc, .includeSource name⟩ :: after → openAfter before = 0

theorem IncludesOutside.after {before after : List Line} {loc : Location} {name : String}
    (h : IncludesOutside (before ++ ⟨loc, .includeSource name⟩ :: after)) : IncludesOutside after := by
  rintro middle loc' name' last rfl
  have hsecond : openAfter (before ++ ⟨loc, .includeSource name⟩ :: middle) = 0 :=
    h (by rw [List.append_assoc, List.cons_append])
  rw [openAfter_append, h rfl] at hsecond
  simpa [openAfter, Statement.opens] using hsecond

/-- Is a block a condition or a loop? -/
def Block.isFlow (blk : Block) : Bool := blk.kind != .definition

namespace Builder

variable {b b' : Builder} {u : Unit}

/-- Each statement opens as many blocks as it says. -/
theorem Issued.countP_blocks {loc : Location} {stmt : Statement} (h : Issued loc stmt b b') :
    (b'.blocks.countP Block.isFlow : Int) = b.blocks.countP Block.isFlow + stmt.opens := by
  cases h with
  | @adds _ _ acts ids blocks hadds _ =>
      show (blocks.countP Block.isFlow : Int) = _
      generalize b.blocks = before at hadds
      cases hadds with
      | simple hlowers => cases hlowers <;> exact (Int.add_zero _).symm
      | closeIf | closeRepeat | closeWhile =>
          simp [List.countP_cons, Block.isFlow, Block.kind, Statement.opens]
      | _ => simp [List.countP_cons, Block.isFlow, Block.kind, Statement.opens]
  | openMacro hblocks => rw [hblocks]; rfl
  | closeMacro hblocks =>
      rw [hblocks]
      simp [Block.isFlow, Block.kind, Statement.opens]

theorem issueAll_countP_blocks {lines : List Line} (h : issueAll lines b = .ok u b') :
    (b'.blocks.countP Block.isFlow : Int) = b.blocks.countP Block.isFlow + openAfter lines := by
  induction lines generalizing b with
  | nil =>
      obtain ⟨-, rfl⟩ := pure_eq_ok.mp h
      exact (Int.add_zero _).symm
  | cons l rest ih =>
      obtain ⟨_, b₁, hissue, hrest⟩ := bind_eq_ok.mp h
      have hfirst := (Issued.of_issue hissue).countP_blocks
      have hlater := ih hrest
      unfold openAfter at hlater ⊢
      rw [List.map_cons, List.sum_cons]
      omega

/-- Where as many blocks were closed as were opened, an include that is allowed stands
outside all blocks. -/
theorem blocks_eq_nil {lines : List Line} (h : issueAll lines b = .ok u b') (hopen : b.blocks = [])
    (hbalanced : openAfter lines = 0) (hout : b'.inMacro = false) : b'.blocks = [] := by
  have hcount := issueAll_countP_blocks h
  rw [hopen, hbalanced] at hcount
  have hnone : b'.blocks.countP Block.isFlow = 0 := by simpa using hcount
  rw [List.countP_eq_zero] at hnone
  unfold inMacro at hout
  rw [List.any_eq_false] at hout
  refine List.eq_nil_iff_forall_not_mem.mpr fun blk hblk => ?_
  have hflow := hnone blk hblk
  have hkind := hout blk hblk
  unfold Block.isFlow at hflow
  simp_all

/-- A file of source text is included outside of macros. -/
theorem includeSource_eq_ok {loc : Location} {name : String}
    (h : issue loc (.includeSource name) b = .ok u b') :
    b.inMacro = false ∧ b' = b.add [Action.plain loc (.includeSource name)] := by
  change Builder.includeSource loc name b = .ok u b' at h
  unfold Builder.includeSource at h
  split at h
  · cases h
  · rename_i hwithin
    cases h
    exact ⟨by simpa using hwithin, rfl⟩

/-- Lowering uses up no sequence numbers. -/
theorem Issued.seq_eq {loc : Location} {stmt : Statement} (h : Issued loc stmt b b') :
    b'.ids.seq = b.ids.seq := by
  cases h with
  | adds hadds _ =>
      generalize b.blocks = blocks at hadds
      cases hadds <;> rfl
  | openMacro | closeMacro => rfl

theorem issueAll_seq {lines : List Line} (h : issueAll lines b = .ok u b') : b'.ids.seq = b.ids.seq :=
  issueAll_induction (P := fun b' => b'.ids.seq = b.ids.seq)
    (fun _ _ _ _ hb hissued => hissued.seq_eq.trans hb) rfl h

end Builder

/-! ## Binary files -/

/-- Does the action include a file? -/
def Op.isInclude : Op → Bool
  | .includeSource _ | .includeBinary _ _ => true
  | _ => false

theorem Op.Mirrors.isInclude {ρ : Pairing} {op op' : Op} (h : op.Mirrors ρ op') :
    op.isInclude = false ∧ op'.isInclude = false := by
  cases h with
  | @plain op hplain => cases op <;> first | exact ⟨rfl, rfl⟩ | cases hplain
  | _ => exact ⟨rfl, rfl⟩

/-- Two names stand for one file, each where it is written. -/
def Loader.sameFile (ld : Loader) (loc loc' : Location) (name name' : String) : Prop :=
  ld.find name loc = ld.find name' loc'

namespace Assembler

variable {asm : Assembler} {ld : Loader} {acts acts' out : List Action} {s s₁ s' : Session}

/-- How nested includes are resolved, with a number of levels left. -/
def nested (asm : Assembler) : Nat → Option (List Action → SessionM (List Action))
  | 0 => none
  | levels + 1 => some (asm.resolveIncludes levels)

theorem resolveIncludes_eq (asm : Assembler) (levels : Nat) :
    asm.resolveIncludes levels = replaceEach (asm.replaceInclude (asm.nested levels)) := by
  cases levels <;> rfl

/-- Where assembly succeeds, all includes are resolved. -/
theorem resolves_of_assemble {a : Assembly} (h : asm.assemble acts s = .ok a s') :
    ∃ included u u₁, asm.resolveIncludes includeDepth acts u = .ok included u₁ := by
  obtain ⟨_, u, -, h⟩ := bind_eq_ok.mp h
  obtain ⟨included, u₁, hresolved, -⟩ := bind_eq_ok.mp h
  exact ⟨included, u, u₁, hresolved⟩

theorem replaceInclude_of_not_isInclude {n : Option (List Action → SessionM (List Action))} {a : Action}
    (h : a.op.isInclude = false) : asm.replaceInclude n a = pure [a] := by
  obtain ⟨loc, op, x⟩ := a
  cases op with
  | includeSource | includeBinary => cases h
  | _ => rfl

/-- A binary file is included under either name. -/
theorem replaceInclude_matched (hasm : asm.includer = some ld.includer) {ρ : Pairing}
    {n n' : Option (List Action → SessionM (List Action))} {a a' : Action} (hsound : a.op.Sound)
    (h : a.op.Matches ρ (ld.sameFile a.location a'.location) a'.op) {bs : List Action}
    (hseq : s.ids.seq = s'.ids.seq) (hreplace : asm.replaceInclude n a s = .ok bs s₁) :
    ∃ bs' s₁', asm.replaceInclude n' a' s' = .ok bs' s₁' ∧ s₁.ids.seq = s₁'.ids.seq ∧
      Replaced (fun ρ a a' => a.op.Matches ρ (noNames a.location a'.location) a'.op) ρ a a' bs bs' := by
  obtain ⟨loc, op, x⟩ := a
  obtain ⟨loc', op', x'⟩ := a'
  -- what includes nothing is kept on both sides
  have hkeep : ∀ {op op' : Op}, op.isInclude = false → op'.isInclude = false →
      op.Matches (fun κ n n' => ρ κ n n' ∨ Aligned [⟨loc, op, x⟩] [⟨loc', op', x'⟩] κ n n')
        (noNames loc loc') op' →
      asm.replaceInclude n ⟨loc, op, x⟩ s = .ok bs s₁ →
      ∃ bs' s₁', asm.replaceInclude n' ⟨loc', op', x'⟩ s' = .ok bs' s₁' ∧ s₁.ids.seq = s₁'.ids.seq ∧
        Replaced (fun ρ a a' => a.op.Matches ρ (noNames a.location a'.location) a'.op) ρ
          ⟨loc, op, x⟩ ⟨loc', op', x'⟩ bs bs' := by
    intro op op' hop hop' hmatches hreplace
    rw [replaceInclude_of_not_isInclude hop] at hreplace
    obtain ⟨rfl, rfl⟩ := pure_eq_ok.mp hreplace
    exact ⟨_, s', by rw [replaceInclude_of_not_isInclude hop']; rfl, hseq, .keep hmatches⟩
  cases h with
  | mirrors hop =>
      exact hkeep hop.isInclude.1 hop.isInclude.2 (.mirrors (hop.mono fun _ _ _ => .inl)) hreplace
  | defineMacro hτ hbody => exact hkeep rfl rfl (.defineMacro hτ hbody) hreplace
  | callMacro hargs => exact hkeep rfl rfl (.callMacro hargs) hreplace
  | @includeBinary name name' args args' hname hargs =>
      have hexprs : ∀ arg ∈ args, IsExpr arg := by
        cases hsound with
        | includeBinary hargs => exact hargs
        | flat hflat => cases hflat
      simp only [replaceInclude, hasm] at hreplace ⊢
      obtain ⟨bytes, s₂, hbinary, h⟩ := bind_eq_ok.mp hreplace
      obtain ⟨_, s₃, hnote, h⟩ := bind_eq_ok.mp h
      obtain ⟨rfl, rfl⟩ := pure_eq_ok.mp h
      cases hnote
      obtain ⟨file, hfind, hbytes, hids⟩ := Loader.binary_eq_ok (locating_eq_ok.mp hbinary)
      obtain ⟨s₂', hbinary', hids'⟩ := Loader.binary_of_find (hname.symm.trans hfind) hbytes s'
      let s₁' : Session := { s₂' with
        log := s₂'.log.addIf asm.verbose (loc'.render ++ ": incbin " ++ name' ++ ": "
          ++ Text.decimal bytes.length ++ " bytes") }
      refine ⟨args'.flatten ++ [Action.plain loc' (.bytes name' bytes)], s₁', ?_, ?_, ?_, ?_⟩
      · exact bind_eq_ok.mpr ⟨bytes, s₂', locating_eq_ok.mpr hbinary', bind_eq_ok.mpr ⟨(), s₁', rfl, rfl⟩⟩
      · show s₂.ids.seq = s₂'.ids.seq
        rw [hids, hids', hseq]
      · have hflat : opsOf args.flatten = opsOf args'.flatten := by
          rw [opsOf, opsOf, List.map_flatten, List.map_flatten]
          exact congrArg List.flatten hargs
        refine List.rel_append (Matched.of_mirrored (.of_opsOf hflat fun a ha => ?_))
          (.cons (.mirrors (.bytes _ _ _)) .nil)
        obtain ⟨arg, harg, ha⟩ := List.mem_flatten.mp ha
        exact Op.isPlain_of_computes ((hexprs arg harg).computes a ha)
      · intro κ n n' hn
        cases κ <;> cases hn

/-- Programs that include binary files only are resolved to programs that match. -/
theorem resolveIncludes_matched (hasm : asm.includer = some ld.includer) (hsound : AllSound acts)
    (h : Matched (Aligned acts acts') ld.sameFile acts acts') (hseq : s.ids.seq = s'.ids.seq)
    {levels : Nat} (hrun : asm.resolveIncludes levels acts s = .ok out s₁) (levels' : Nat) :
    ∃ out' s₁', asm.resolveIncludes levels' acts' s' = .ok out' s₁' ∧ s₁.ids.seq = s₁'.ids.seq ∧
      Matched (Aligned out out') noNames out out' := by
  rw [resolveIncludes_eq] at hrun ⊢
  have hboth := (List.forall₂_and_left _ _).mpr ⟨hsound, h⟩
  obtain ⟨out', s₁', hout', hend, hrelated, hkeeps⟩ := replaceEach_related
    (g := asm.replaceInclude (asm.nested levels'))
    (R := fun ρ a a' => a.op.Matches ρ (noNames a.location a'.location) a'.op)
    (I := fun s s' => s.ids.seq = s'.ids.seq) (fun hle h => h.mono hle)
    (fun {_ _ _ _ _ _} h hseq => replaceInclude_matched hasm h.1 h.2 hseq) hboth hseq hrun
  exact ⟨out', s₁', hout', hend, Matched.mono hrelated fun κ n n' hn => hn.elim (hkeeps κ n n') id⟩

theorem replaceEach_append_of_ok {f : Action → SessionM (List Action)} {as bs ra rb : List Action}
    {s s₁ s₂ : Session} (ha : replaceEach f as s = .ok ra s₁) (hb : replaceEach f bs s₁ = .ok rb s₂) :
    replaceEach f (as ++ bs) s = .ok (ra ++ rb) s₂ := by
  induction as generalizing s ra with
  | nil =>
      obtain ⟨rfl, rfl⟩ := pure_eq_ok.mp ha
      exact hb
  | cons a rest ih =>
      obtain ⟨r, ra, s', hfirst, hrest, rfl⟩ := replaceEach_cons_eq_ok ha
      rw [List.cons_append, replaceEach]
      refine bind_eq_ok.mpr ⟨r, s', hfirst, bind_eq_ok.mpr ⟨ra ++ rb, s₂, ih hrest, ?_⟩⟩
      rw [List.append_assoc]
      rfl

end Assembler

/-! ## Splicing -/

/-- Lines in which each include is replaced by the lines of the file that it stands
for, and these in turn. -/
inductive Spliced (ld : Loader) : List Line → List Line → Prop
  | lines {lines lines' : List Line} :
      List.Forall₂ (Line.Alike ld.sameFile) lines lines' → Spliced ld lines lines'
  | source {lines lines' inner inner' rest rest' : List Line} {loc : Location} {name file : String}
      {bytes : List UInt8} :
      List.Forall₂ (Line.Alike ld.sameFile) lines lines' → ld.find name loc = some file →
        ld.library.source file = .ok bytes →
        ld.reader.Reads file (Text.Glyph.ofBytes bytes) inner → IncludesOutside inner →
        Spliced ld inner inner' → Spliced ld rest rest' →
          Spliced ld (lines ++ ⟨loc, .includeSource name⟩ :: rest) (lines' ++ (inner' ++ rest'))

namespace Spliced

variable {asm : Assembler} {ld : Loader} {lines lines' : List Line} {lo : Ids} {b b₁ : Builder}
  {u : Unit}

/-- What the spliced lines come to, wherever they are lowered. -/
structure Resolves (asm : Assembler) (lines' : List Line) (seq seq₁ : Nat) (included : List Action)
    (b' : Builder) (new' : List Action) (b₁' : Builder) : Prop where
  issued : Builder.issueAll lines' b' = .ok () b₁'
  actions : b₁'.actions.toList = b'.actions.toList ++ new'
  blocks : b₁'.blocks = []
  resolved : ∀ levels (s' : Session), s'.ids.seq = seq → ∃ included' s₁',
    asm.resolveIncludes levels new' s' = .ok included' s₁' ∧ s₁'.ids.seq = seq₁ ∧
      Matched (Aligned included included') noNames included included'

/-- One list of lines after the other. -/
theorem Resolves.append {as' bs' : List Line} {seq seq₁ seq₂ : Nat} {ra rb newa newb : List Action}
    {b' b₁' b₂' : Builder} (ha : Resolves asm as' seq seq₁ ra b' newa b₁')
    (hb : Resolves asm bs' seq₁ seq₂ rb b₁' newb b₂') :
    Resolves asm (as' ++ bs') seq seq₂ (ra ++ rb) b' (newa ++ newb) b₂' where
  issued := by
    rw [Builder.issueAll_append]
    exact bind_eq_ok.mpr ⟨(), b₁', ha.issued, hb.issued⟩
  actions := by rw [hb.actions, ha.actions, List.append_assoc]
  blocks := hb.blocks
  resolved levels s' hs' := by
    obtain ⟨ra', s₁', hra, hs₁', hmatched⟩ := ha.resolved levels s' hs'
    obtain ⟨rb', s₂', hrb, hs₂', hmatched'⟩ := hb.resolved levels s₁' hs₁'
    rw [Assembler.resolveIncludes_eq] at hra hrb ⊢
    exact ⟨ra' ++ rb', s₂', Assembler.replaceEach_append_of_ok hra hrb, hs₂',
      hmatched.aligned_append hmatched'⟩

/-- What some actions are resolved to, other lines come to as well. -/
def Replays (asm : Assembler) (acts : List Action) (lines' : List Line) : Prop :=
  ∀ ⦃levels⦄ ⦃s s₁ : Session⦄ ⦃included⦄, asm.resolveIncludes levels acts s = .ok included s₁ →
    ∀ b' : Builder, b'.blocks = [] →
      ∃ new' b₁', Resolves asm lines' s.ids.seq s₁.ids.seq included b' new' b₁'

theorem Replays.append {as bs : List Action} {as' bs' : List Line} (ha : Replays asm as as')
    (hb : Replays asm bs bs') : Replays asm (as ++ bs) (as' ++ bs') := by
  intro levels s s₂ included h b' hopen
  rw [Assembler.resolveIncludes_eq] at h
  obtain ⟨ra, rb, s₁, hra, hrb, rfl⟩ := Assembler.replaceEach_append_eq_ok h
  rw [← Assembler.resolveIncludes_eq] at hra hrb
  obtain ⟨newa, b₁', hresolves⟩ := ha hra b' hopen
  obtain ⟨newb, b₂', hresolves'⟩ := hb hrb b₁' hresolves.blocks
  exact ⟨newa ++ newb, b₂', hresolves.append hresolves'⟩

/-- Lines without includes come to what those do that they are alike. -/
theorem Replays.of_alike (hasm : asm.includer = some ld.includer)
    (halike : List.Forall₂ (Line.Alike ld.sameFile) lines lines') (hlines : ∀ l ∈ lines, l.Sound)
    (hb : b.Numbered lo) (hsound : b.Sound) (hopen : b.blocks = [])
    (hissue : Builder.issueAll lines b = .ok u b₁) (hclosed : b₁.blocks = []) {new : List Action}
    (hnew : b₁.actions.toList = b.actions.toList ++ new) : Replays asm new lines' := by
  intro levels s s₁ included hrun b' hopen'
  obtain ⟨new₁, new', b₁', hacts, hissue', hacts', hclosed', hmatched⟩ :=
    Builder.issueAll_alike halike (fun l hl => (hlines l hl).computes) hb hopen hopen' hissue hclosed
  obtain rfl := List.append_cancel_left (hnew.symm.trans hacts)
  have hall : AllSound new := fun a ha => (Builder.issueAll_sound hsound hlines hissue).actions a
    (hnew ▸ List.mem_append_right _ ha)
  refine ⟨new', b₁', hissue', hacts', hclosed', fun levels' s' hs' => ?_⟩
  obtain ⟨included', s₁', hrun', hseq, hresult⟩ :=
    Assembler.resolveIncludes_matched hasm hall hmatched hs'.symm hrun levels'
  exact ⟨included', s₁', hrun', hseq.symm, hresult⟩

/-- So do the lines of a file in place of the include that it is found for. -/
theorem Replays.of_include (hasm : asm.includer = some ld.includer) {loc : Location}
    {name file : String} {bytes : List UInt8} {inner inner' : List Line}
    (hfind : ld.find name loc = some file) (hbytes : ld.library.source file = .ok bytes)
    (hreads : ld.reader.Reads file (Text.Glyph.ofBytes bytes) inner)
    (hinner : ∀ ids b, Builder.issueAll inner { ids := ids } = .ok () b → b.blocks = [] →
      Replays asm b.actions.toList inner') :
    Replays asm [Action.plain loc (.includeSource name)] inner' := by
  intro levels s s₁ included hrun b' hopen'
  rw [Assembler.resolveIncludes_eq] at hrun
  obtain ⟨included, _, t, hinclude, hnil, rfl⟩ := Assembler.replaceEach_cons_eq_ok hrun
  obtain ⟨rfl, rfl⟩ := pure_eq_ok.mp hnil
  rw [List.append_nil]
  rcases Assembler.replaceInclude_eq_ok hinclude with ⟨-, -, hop⟩ |
    ⟨_, inc, f, acts, s₂, s₃, hop, hinc, hnested, hsource, hids, hacts⟩ | ⟨_, _, _, _, _, hop, -⟩
  · exact absurd .source hop
  · cases hop
    obtain rfl := Option.some.inj (hasm.symm.trans hinc)
    cases levels with
    | zero => cases hnested
    | succ levels =>
        cases hnested
        obtain ⟨file', bytes', s₄, hfind', hbytes', hids', hread⟩ := Loader.source_found hsource
        obtain rfl := Option.some.inj (hfind.symm.trans hfind')
        obtain rfl := Except.ok.inj (hbytes.symm.trans hbytes')
        obtain ⟨inner₁, b, hreads', hissue, hclosed, rfl, hend⟩ := Reader.reads_of_actions hread
        obtain rfl : inner = inner₁ := hreads.unique hreads'
        -- opening the file reads text, and text draws no call numbers
        have hseq : s₃.ids.seq = s.ids.seq := by
          rw [hids, hend, Builder.issueAll_seq hissue]
          exact congrArg Ids.seq hids'
        have hreplays := hinner _ b hissue hclosed hacts b' hopen'
        rwa [hseq] at hreplays
  · cases hop

/-- Lines that can be lowered and resolved can be spliced, and come to the same. -/
theorem replays (hasm : asm.includer = some ld.includer) (h : Spliced ld lines lines')
    (hlines : ∀ l ∈ lines, l.Sound) (hout : IncludesOutside lines) (hb : b.Numbered lo)
    (hsound : b.Sound) (hopen : b.blocks = []) (hissue : Builder.issueAll lines b = .ok u b₁)
    (hclosed : b₁.blocks = []) :
    ∃ new, b₁.actions.toList = b.actions.toList ++ new ∧ Replays asm new lines' := by
  induction h generalizing lo b b₁ with
  | lines halike =>
      obtain ⟨new, -, -, hnew, -⟩ := Builder.issueAll_alike halike
        (fun l hl => (hlines l hl).computes) hb hopen hopen hissue hclosed
      exact ⟨new, hnew, .of_alike hasm halike hlines hb hsound hopen hissue hclosed hnew⟩
  | @source lines lines' inner inner' rest rest' loc name file bytes halike hfind hbytes hreads
      hinner _ _ ihinner ihrest =>
      obtain ⟨hbefore, hafter⟩ := List.forall_mem_append.mp hlines
      obtain ⟨hinclude, hrest⟩ := List.forall_mem_cons.mp hafter
      obtain ⟨b₂, hissue₁, hissue⟩ := Builder.issueAll_append_eq_ok hissue
      obtain ⟨b₃, hissue₂, hissue₃⟩ := Builder.issueAll_cons_eq_ok hissue
      obtain ⟨hwithin, rfl⟩ := Builder.includeSource_eq_ok hissue₂
      -- an include stands outside all blocks, so the builder has none open before it
      have hopen₂ := Builder.blocks_eq_nil hissue₁ hopen (hout rfl) hwithin
      have hb₂ := (Builder.issueAll_numbered (fun l hl => (hbefore l hl).computes) hb hissue₁).2
      have hsound₂ := Builder.issueAll_sound hsound hbefore hissue₁
      have hissued := Builder.Issued.of_issue hissue₂
      obtain ⟨new₁, -, -, hnew₁, -⟩ := Builder.issueAll_alike halike
        (fun l hl => (hbefore l hl).computes) hb hopen hopen hissue₁ hopen₂
      obtain ⟨new₂, hnew₂, hreplays₂⟩ := ihrest hrest hout.after (hissued.numbered hinclude.computes hb₂).2
        (hissued.sound hsound₂ hinclude) hopen₂ hissue₃ hclosed
      refine ⟨new₁ ++ ([Action.plain loc (.includeSource name)] ++ new₂), ?_, ?_⟩
      · rw [hnew₂]
        simp [Builder.add, hnew₁]
      · refine .append (.of_alike hasm halike hbefore hb hsound hopen hissue₁ hopen₂ hnew₁)
          (.append (.of_include hasm hfind hbytes hreads fun ids b hissue hclosed => ?_) hreplays₂)
        obtain ⟨new, hnew, hreplays⟩ := ihinner hreads.sound hinner (.start ids)
          ⟨.nil, fun _ h => absurd h List.not_mem_nil⟩ rfl hissue hclosed
        rw [hnew]
        exact hreplays

/-- A text whose lines are spliced assembles to the same. -/
theorem assemble {file file' : String} {text text' : List Text.Glyph}
    (hasm : asm.includer = some ld.includer) (h : Spliced ld lines lines')
    (hreads : ld.reader.Reads file text lines) (hout : IncludesOutside lines)
    (hreads' : ld.reader.Reads file' text' lines') {s s₁ t : Session} {a : Assembly}
    (hrun : (ld.reader.actions file text >>= asm.assemble) s = .ok a s₁)
    (hseq : s.ids.seq = t.ids.seq) :
    ∃ a' t₁, (ld.reader.actions file' text' >>= asm.assemble) t = .ok a' t₁ ∧
      a.engine.core = a'.engine.core := by
  obtain ⟨acts, s₂, hread, hassemble⟩ := bind_eq_ok.mp hrun
  obtain ⟨lines₁, b, hreads₁, hissue, hclosed, rfl, hend⟩ := Reader.reads_of_actions hread
  obtain rfl : lines = lines₁ := hreads.unique hreads₁
  obtain ⟨new, hnew, hreplays⟩ := h.replays hasm hreads.sound hout (.start s.ids)
    ⟨.nil, fun _ h => absurd h List.not_mem_nil⟩ rfl hissue hclosed
  obtain rfl : b.actions.toList = new := hnew
  have hseq₂ : s₂.ids.seq = s.ids.seq := by
    rw [hend]
    exact Builder.issueAll_seq hissue
  -- the includes of the first text are resolved, so the second can be lowered
  obtain ⟨included, u, u₁, hresolved⟩ := Assembler.resolves_of_assemble hassemble
  obtain ⟨new', b', hfirst⟩ := hreplays hresolved { ids := t.ids } rfl
  obtain rfl : b'.actions.toList = new' := hfirst.actions
  obtain ⟨t₂, hread', hend'⟩ := hreads'.actions hfirst.issued hfirst.blocks
  have hseq' : t₂.ids.seq = t.ids.seq := by
    rw [hend']
    exact Builder.issueAll_seq hfirst.issued
  have hmatch : asm.IncludesMatch b.actions.toList b'.actions.toList s₂.ids.seq := by
    intro v v₁ v' included hv hv' hrun
    obtain ⟨new'', b'', hresolves⟩ := hreplays hrun { ids := t.ids } rfl
    obtain rfl : b'' = b' := by
      have hsame := hresolves.issued.symm.trans hfirst.issued
      cases hsame
      rfl
    obtain rfl : b''.actions.toList = new'' := hresolves.actions
    obtain ⟨included', v₁', hrun', hend, hmatched⟩ :=
      hresolves.resolved Assembler.includeDepth v' (hv'.trans hv.symm)
    exact ⟨included', v₁', hrun', hend.symm, hmatched⟩
  obtain ⟨a', t₁, hassembled, hcore⟩ := Assembler.assemble_matched
    (fun inc hinc => by
      obtain rfl := Option.some.inj (hasm.symm.trans hinc)
      exact Loader.includer_inSession ld)
    hread hread' (by rw [hseq₂, hseq', hseq]) hmatch hassemble
  exact ⟨a', t₁, bind_eq_ok.mpr ⟨_, t₂, hread', hassembled⟩, hcore⟩

end Spliced

end Mos6510
