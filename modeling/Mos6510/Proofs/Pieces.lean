import Mathlib.Data.List.TakeWhile
import Mos6510.Proofs.Printing

/-!
# Text read piece by piece

What a piece of text makes depends on the piece and on one glyph after it
(`step_local`).  So where a text ends, or a directive starts, it can go on with a new
line instead, and still makes the same lexemes (`Makes.follows`).
-/

namespace Mos6510

open Text (Glyph)

namespace Lexer

/-! ## What follows a piece -/

/-- Another text in place of what follows a piece: it starts with the same glyph, or
with a new line where there was nothing or a directive. -/
def Follows (rest rest' : List Glyph) : Prop :=
  rest'.head? = rest.head? ∨
    rest'.head? = some (.char '\n') ∧ (rest = [] ∨ rest.head? = some (.char '.'))

namespace Follows

variable {rest rest' : List Glyph}

theorem append (h : Follows rest rest') (gs : List Glyph) : Follows (gs ++ rest) (gs ++ rest') := by
  cases gs with
  | nil => exact h
  | cons => exact .inl rfl

theorem head?_beq (h : Follows rest rest') {c : Char} (hc : c ≠ '\n' ∧ c ≠ '.') :
    (rest'.head? == some (.char c)) = (rest.head? == some (.char c)) := by
  rcases h with h | ⟨h, hnil | hdot⟩
  · rw [h]
  · rw [h, hnil]
    simpa using hc.1.symm
  · rw [h, hdot]
    simp [hc.1.symm, hc.2.symm]

/-- Glyphs of a class, which a new line does not belong to, are the same up to the end
of the piece. -/
theorem takeWhile (h : Follows rest rest') {p : Glyph → Bool} (hp : p (.char '\n') = false)
    {gs : List Glyph} (hle : ((gs ++ rest).takeWhile p).length ≤ gs.length) :
    (gs ++ rest').takeWhile p = (gs ++ rest).takeWhile p := by
  rw [List.takeWhile_append] at hle ⊢
  rw [List.takeWhile_append]
  split at hle
  · rename_i hall
    -- the run of glyphs ends before the rest, so it cannot start there
    have hnone : rest.takeWhile p = [] := by
      rw [List.length_append] at hle
      exact List.length_eq_zero_iff.mp (by omega)
    have hnone' : rest'.takeWhile p = [] := by
      cases rest' with
      | nil => rfl
      | cons g more =>
          rw [List.takeWhile_cons_of_neg]
          rcases h with h | ⟨h, -⟩
          · cases rest with
            | nil => cases h
            | cons g' more' =>
                cases h
                intro hg
                rw [List.takeWhile_cons_of_pos hg] at hnone
                cases hnone
          · cases h
            rw [hp]
            exact Bool.false_ne_true
    rw [if_pos hall, if_pos hall, hnone, hnone']
  · rename_i hsome
    rw [if_neg hsome, if_neg hsome]

end Follows

/-! ## Steps -/

/-- What the function takes of a text, behind a first glyph, depends on what it takes
and on one glyph after that, and on no line. -/
def Local (f : Nat → List Glyph → Step) : Prop :=
  ∀ ⦃line gs rest l⦄, (f line (gs ++ rest)).takes? = some (l, gs.length + 1) →
    ∀ ⦃rest'⦄, Follows rest rest' → ∀ line', (f line' (gs ++ rest')).takes? = some (l, gs.length + 1)

namespace Local

variable {f f' : Nat → List Glyph → Step}

theorem ite {c : Prop} [Decidable c] (h : c → Local f) (h' : Local f') :
    Local fun line text => if c then f line text else f' line text := by
  split
  · exact h ‹_›
  · exact h'

/-- What is asked is the same where the text goes on in another way. -/
theorem ite_of {c : List Glyph → Bool} (hc : ∀ ⦃text text'⦄, Follows text text' → c text' = c text)
    (h : Local f) (h' : Local f') :
    Local fun line text => if c text = true then f line text else f' line text := by
  intro line gs rest l htakes rest' hfollows line'
  dsimp only at htakes ⊢
  rw [hc (hfollows.append gs)]
  split
  · rename_i hyes
    rw [if_pos hyes] at htakes
    exact h htakes hfollows line'
  · rename_i hno
    rw [if_neg hno] at htakes
    exact h' htakes hfollows line'

end Local

theorem local_skip (after : Nat → Nat) : Local fun line _ => .skip 1 (after line) :=
  fun _ _ _ _ h _ _ _ => h

theorem local_lone (l : Lexeme) : Local fun line _ => lone line l := fun _ _ _ _ h _ _ _ => h

theorem length_comment {g : Glyph} (hg : g.is '\n' = false) (text : List Glyph) :
    (comment (g :: text)).length = (comment text).length + 1 := by
  rw [comment, List.takeWhile_cons_of_pos (by rw [hg]; rfl)]
  rfl

theorem local_comment {g : Glyph} (hg : g.is '\n' = false) :
    Local fun line text => .skip (comment (g :: text)).length line := by
  intro line gs rest l h rest' hfollows line'
  simp only [Step.takes?, length_comment hg, Option.some.injEq, Prod.mk.injEq,
    Nat.add_right_cancel_iff] at h ⊢
  refine ⟨h.1, ?_⟩
  rw [comment, hfollows.takeWhile rfl (Nat.le_of_eq h.2)]
  exact h.2

theorem local_directive : Local directive := by
  intro line gs rest l h rest' hfollows line'
  unfold directive at h ⊢
  have hword : word (gs ++ rest') = word (gs ++ rest) := by
    refine hfollows.takeWhile rfl ?_
    cases hw : (gs ++ rest).takeWhile isWordGlyph with
    | nil => exact Nat.zero_le _
    | cons g w =>
        rw [word, hw] at h
        injection h with h
        injection h with _ h
        rw [Nat.add_comm] at h
        exact Nat.le_of_eq (Nat.succ.inj h)
  rw [hword]
  cases hw : word (gs ++ rest) with
  | nil => rw [hw] at h; cases h
  | cons g w => rw [hw] at h; exact h

/-! ### Strings and scripts -/

/-- The inside is as it is read here, whatever follows the mark that closes it. -/
def Closed (f : Nat → List Glyph → Body) (text : List Glyph) (cs : List Char) (used : Nat) : Prop :=
  used ≤ text.length ∧ ∀ line rest, ∃ last, f line (text.take used ++ rest) = .ok (cs, used, last)

/-- Glyphs that stand for a character in front. -/
theorem Closed.cons {f f' : Nat → List Glyph → Body} {text : List Glyph} {cs : List Char} {used : Nat}
    (h : Closed f' text cs used) (gs : List Glyph) (after : Nat → Nat) {c : Char}
    (hf : ∀ line rest, f line (gs ++ rest) = (f' (after line) rest).cons c gs.length) :
    Closed f (gs ++ text) (c :: cs) (used + gs.length) := by
  obtain ⟨hle, hread⟩ := h
  refine ⟨by rw [List.length_append]; omega, fun line rest => ?_⟩
  obtain ⟨last, hread⟩ := hread (after line) rest
  refine ⟨last, ?_⟩
  rw [Nat.add_comm, List.take_length_add_append, List.append_assoc, hf, hread]
  simp only [Body.cons, Nat.add_comm]

/-- Something in front of an inside that was read. -/
theorem Body.cons_eq_ok {c : Char} {glyphs used line : Nat} {cs : List Char} {b : Body}
    (h : b.cons c glyphs = .ok (cs, used, line)) :
    ∃ cs' used', b = .ok (cs', used', line) ∧ cs = c :: cs' ∧ used = used' + glyphs := by
  cases b with
  | error => cases h
  | ok r =>
      cases h
      exact ⟨_, _, rfl, rfl, rfl⟩

theorem stringBody_closed {line used last : Nat} {text : List Glyph} {cs : List Char}
    (h : stringBody line text = .ok (cs, used, last)) : Closed stringBody text cs used := by
  fun_induction stringBody line text generalizing cs used with
  | case1 | case4 | case5 => cases h
  | case2 line rest =>
      cases h
      exact ⟨Nat.succ_le_succ (Nat.zero_le _), fun line more => ⟨line, rfl⟩⟩
  | case3 line e rest c hc ih =>
      obtain ⟨cs', used', hbody, rfl, rfl⟩ := Body.cons_eq_ok h
      refine (ih hbody).cons [.char '\\', e] id fun line more => ?_
      simp only [List.cons_append, List.nil_append, stringBody, hc]
      rfl
  | case6 line g rest hquote hescape hslash ih =>
      obtain ⟨cs', used', hbody, rfl, rfl⟩ := Body.cons_eq_ok h
      refine (ih hbody).cons [g] (lineAfter g) fun line more => ?_
      rw [List.singleton_append, stringBody, if_neg hslash]
      · rfl
      · exact hquote
      · rintro e more' rfl -
        exact hslash rfl

theorem scriptBody_closed {depth line used last : Nat} {text : List Glyph} {cs : List Char}
    (h : scriptBody depth line text = .ok (cs, used, last)) : Closed (scriptBody depth) text cs used := by
  fun_induction scriptBody depth line text generalizing cs used with
  | case1 => cases h
  | case2 line rest =>
      cases h
      exact ⟨Nat.succ_le_succ (Nat.zero_le _), fun line more => ⟨line, rfl⟩⟩
  | case3 depth line rest ih =>
      obtain ⟨cs', used', hbody, rfl, rfl⟩ := Body.cons_eq_ok h
      exact (ih hbody).cons [.char ')'] id fun line more => rfl
  | case4 depth line rest ih =>
      obtain ⟨cs', used', hbody, rfl, rfl⟩ := Body.cons_eq_ok h
      exact (ih hbody).cons [.char '('] id fun line more => by
        rw [List.singleton_append, scriptBody]
        rfl
  | case5 depth line g rest hclose hclose' hopen ih =>
      obtain ⟨cs', used', hbody, rfl, rfl⟩ := Body.cons_eq_ok h
      refine (ih hbody).cons [g] (lineAfter g) fun line more => ?_
      rw [List.singleton_append, scriptBody]
      · rfl
      · exact hopen
      · exact hclose
      · exact hclose'

/-- Besides the glyphs of a lead, the function takes the same glyphs of a text whatever
follows them. -/
def Fixed (lead : Nat) (f : Nat → List Glyph → Step) : Prop :=
  ∀ ⦃line text l n⦄, (f line text).takes? = some (l, n) → ∃ used ≤ text.length, n = lead + used ∧
    ∀ line' rest, (f line' (text.take used ++ rest)).takes? = some (l, n)

namespace Fixed

variable {f : Nat → List Glyph → Step}

theorem local_one (h : Fixed 1 f) : Local f := by
  intro line gs rest l htakes rest' _ line'
  obtain ⟨used, -, hused, hall⟩ := h htakes
  obtain rfl : used = gs.length := by omega
  have hread := hall line' rest'
  rwa [List.take_left' rfl] at hread

theorem local_two (h : Fixed 2 f) : Local fun line text => f line (text.drop 1) := by
  intro line gs rest l htakes rest' _ line'
  obtain ⟨used, -, hused, hall⟩ := h htakes
  cases gs with
  | nil =>
      rw [List.length_nil] at hused
      omega
  | cons g gs =>
      obtain rfl : used = gs.length := by
        rw [List.length_cons] at hused
        omega
      have hread := hall line' rest'
      rwa [List.cons_append, List.drop_one, List.tail_cons, List.take_left' rfl] at hread

end Fixed

theorem fixed_string (screen : Bool) (lead : Nat) : Fixed lead (string screen lead) := by
  intro line text l n h
  unfold string at h
  split at h
  · cases h
  · rename_i cs used last hbody
    cases h
    obtain ⟨hle, hall⟩ := stringBody_closed hbody
    refine ⟨used, hle, rfl, fun line' rest => ?_⟩
    obtain ⟨last', hread⟩ := hall line' rest
    rw [string, hread]
    rfl

theorem fixed_script (defines : List (String × Int64)) : Fixed 2 (script defines) := by
  intro line text l n h
  unfold script at h
  split at h
  · cases h
  · rename_i cs used last hbody
    dsimp only at h
    obtain ⟨hle, hall⟩ := scriptBody_closed hbody
    cases hrun : runScript defines (Text.trim (String.ofList cs)) with
    | error => rw [hrun] at h; cases h
    | ok value =>
        rw [hrun] at h
        cases h
        refine ⟨used, hle, rfl, fun line' rest => ?_⟩
        obtain ⟨last', hread⟩ := hall line' rest
        rw [script, hread]
        simp only [hrun]
        rfl

/-! ### Numbers, signs and names -/

theorem numberLead_zero (text : List Glyph) :
    numberLead (.char '0' :: text) =
      if text.head? == some (.char 'x') || text.head? == some (.char 'X') then (16, 2)
      else if text.head? == some (.char 'o') || text.head? == some (.char 'O') then (8, 2)
      else if text.head? == some (.char 'b') || text.head? == some (.char 'B') then (2, 2)
      else (10, 0) := by
  cases text with
  | nil => rfl
  | cons g text =>
      unfold numberLead
      split <;> simp_all

/-- Only behind a zero does it matter what follows. -/
theorem numberLead_of_ne_zero {g : Glyph} (h : g ≠ .char '0') (text : List Glyph) :
    numberLead (g :: text) = if g = .char '$' then (16, 1) else (10, 0) := by
  unfold numberLead
  split <;> simp_all

theorem numberLead_follows {text text' : List Glyph} (h : Follows text text') (g : Glyph) :
    numberLead (g :: text') = numberLead (g :: text) := by
  by_cases hzero : g = .char '0'
  · subst hzero
    simp only [numberLead_zero, h.head?_beq (c := 'x') (by decide), h.head?_beq (c := 'X') (by decide),
      h.head?_beq (c := 'o') (by decide), h.head?_beq (c := 'O') (by decide),
      h.head?_beq (c := 'b') (by decide), h.head?_beq (c := 'B') (by decide)]
  · rw [numberLead_of_ne_zero hzero, numberLead_of_ne_zero hzero]

theorem local_number (g : Glyph) : Local fun line text => number line (g :: text) := by
  intro line gs rest l h rest' hfollows line'
  dsimp only at h ⊢
  have hlead := numberLead_follows (hfollows.append gs) g
  unfold number at h ⊢
  rw [hlead]
  generalize numberLead (g :: (gs ++ rest)) = lead at h ⊢
  obtain ⟨base, lead⟩ := lead
  dsimp only at h ⊢
  -- the number is all that is taken, so its digits end where the rest starts
  have hdrop : lead + (digitsOf base ((g :: (gs ++ rest)).drop lead)).length = gs.length + 1 →
      digitsOf base ((g :: (gs ++ rest')).drop lead) = digitsOf base ((g :: (gs ++ rest)).drop lead) := by
    intro hlength
    unfold digitsOf at hlength ⊢
    rw [List.length_map] at hlength
    have hle : lead ≤ (g :: gs).length := by
      rw [List.length_cons]
      omega
    rw [← List.cons_append, ← List.cons_append, List.drop_append_of_le_length hle,
      List.drop_append_of_le_length hle] at *
    refine congrArg _ (hfollows.takeWhile (by simp [Glyph.toChar, Text.digitIn?, Text.digitValue?]) ?_)
    rw [List.length_drop, List.length_cons]
    omega
  cases hread : Text.readInteger (some base) (digitsOf base ((g :: (gs ++ rest)).drop lead)) with
  | error => rw [hread] at h; cases h
  | ok value =>
      rw [hread] at h
      injection h with h
      injection h with hl hlength
      rw [hdrop hlength, hread, ← hl, ← hlength]
      rfl

theorem sign?_follows {text text' : List Glyph} (h : Follows text text') (g : Glyph) :
    sign? (g :: text') = sign? (g :: text) := by
  have hsign : ∀ (a b : Char) (text : List Glyph),
      [Glyph.char a, .char b].isPrefixOf (g :: text) =
        (.char a == g && text.head? == some (.char b)) := by
    intro a b text
    cases text with
    | nil => simp [List.isPrefixOf]
    | cons => simp [List.isPrefixOf, Bool.beq_comm]
  unfold sign?
  congr 1
  funext s
  cases s with
  | shiftLeft | shiftRight | equal | unequal | lessEqual | greaterEqual =>
      exact (hsign _ _ _).trans ((congrArg _ (h.head?_beq (by decide))).trans (hsign _ _ _).symm)
  | _ => rfl

theorem local_name {g : Glyph} (hg : isNameStart g = true) :
    Local fun line text => name line (g :: text) := by
  intro line gs rest l h rest' hfollows line'
  dsimp only at h ⊢
  have hword : ∀ text, word (g :: text) = g :: word text := fun text =>
    List.takeWhile_cons_of_pos (isWordGlyph_of_isNameStart hg)
  unfold name at h ⊢
  simp only [hword, List.length_cons, List.drop_succ_cons] at h ⊢
  -- a name is not longer than what is taken
  have hle : (word (gs ++ rest)).length ≤ gs.length := by
    split at h
    · cases h
    · split at h
      · injection h with h
        injection h with _ hlength
        omega
      · split at h <;> injection h with h <;> injection h with _ hlength <;>
          exact Nat.le_of_eq (Nat.succ.inj hlength)
  have hsame : word (gs ++ rest') = word (gs ++ rest) := hfollows.takeWhile rfl hle
  have hcolon := (hfollows.append (gs.drop (word (gs ++ rest)).length)).head?_beq (c := ':') (by decide)
  rw [← List.drop_append_of_le_length hle, ← List.drop_append_of_le_length hle] at hcolon
  rw [hsame, hcolon]
  split at h
  · cases h
  · rename_i hmark
    rw [if_neg hmark]
    split at h
    · rename_i hlabel
      rw [if_pos hlabel]
      exact h
    · rename_i hlabel
      rw [if_neg hlabel]
      cases hm : Mnemonic.ofName? (nameOf (g :: word (gs ++ rest))) with
      | none => rw [hm] at h; exact h
      | some m => rw [hm] at h; exact h

theorem local_signOrName (g : Glyph) : Local fun line text => signOrName line g text := by
  have hquoted : ∀ b : Bool, ∀ ⦃text text' : List Glyph⦄, Follows text text' →
      (text'.head? == some (.char '"') && b) = (text.head? == some (.char '"') && b) :=
    fun b _ _ h => by rw [h.head?_beq (by decide)]
  have hnone : Local fun line text =>
      if (text.head? == some (.char '"') && (g.is 'a' || g.is 'A')) = true then
        string false 2 line (text.drop 1)
      else if (text.head? == some (.char '"') && (g.is 's' || g.is 'S')) = true then
        string true 2 line (text.drop 1)
      else if isNameStart g = true then name line (g :: text)
      else .fail (.badCharacter g.toChar) line := by
    refine .ite_of (hquoted _) (fixed_string false 2).local_two ?_
    refine .ite_of (hquoted _) (fixed_string true 2).local_two ?_
    split
    · rename_i hg
      exact local_name hg
    · exact nofun
  intro line gs rest l h rest' hfollows line'
  dsimp only [signOrName] at h ⊢
  rw [sign?_follows (hfollows.append gs)]
  cases hsign : sign? (g :: (gs ++ rest)) with
  | some s => rw [hsign] at h; exact h
  | none => rw [hsign] at h; exact hnone h hfollows line'

/-- What a step takes depends on what it takes and on one glyph after that. -/
theorem step_local (defines : List (String × Int64)) (g : Glyph) :
    Local fun line text => step defines line g text := by
  unfold step
  refine .ite (fun _ => local_skip fun line => line + 1) ?_
  refine .ite (fun _ => local_skip id) ?_
  refine .ite (fun h => local_comment ?_) ?_
  · rw [show g = .char ';' from beq_iff_eq.mp h]
    rfl
  refine .ite (fun _ => local_directive) ?_
  refine .ite (fun _ => local_lone .pc) ?_
  refine .ite (fun _ => local_lone .immediate) ?_
  refine .ite (fun _ => local_lone .openParen) ?_
  refine .ite (fun _ => local_lone .closeParen) ?_
  refine .ite (fun _ => local_lone .comma) ?_
  refine .ite (fun _ => (fixed_string false 1).local_one) ?_
  refine .ite_of (fun _ _ h => ?_) (fixed_script defines).local_two ?_
  · rw [h.head?_beq (by decide)]
  refine .ite (fun _ => local_number g) ?_
  refine .ite_of (fun _ _ h => ?_) (local_lone .assign) (local_signOrName g)
  rw [bne, bne, h.head?_beq (by decide)]

/-! ### What a step takes -/

/-- The step takes no more than the text, and makes neither the end of the file nor a
directive. -/
def Step.Inner (text : List Glyph) (s : Step) : Prop :=
  ∀ l n, s.takes? = some (l, n) →
    n ≤ text.length ∧ l ≠ some .endOfFile ∧ ∀ name, l ≠ some (.directive name)

namespace Step.Inner

variable {text : List Glyph}

theorem fail (err : Error) (line : Nat) : (Step.fail err line).Inner text := nofun

theorem skip {taken : Nat} (hle : taken ≤ text.length) (line : Nat) : (Step.skip taken line).Inner text := by
  rintro l n ⟨⟩
  exact ⟨hle, nofun, nofun⟩

theorem emit {t : Token} {taken : Nat} (hle : taken ≤ text.length) (line : Nat)
    (hend : t.lexeme ≠ .endOfFile) (hdirective : ∀ name, t.lexeme ≠ .directive name) :
    (Step.emit t taken line).Inner text := by
  rintro l n ⟨⟩
  exact ⟨hle, fun h => hend (Option.some.inj h), fun name h => hdirective name (Option.some.inj h)⟩

end Step.Inner

section

variable {defines : List (String × Int64)} {line : Nat} {g : Glyph} {gs rest text : List Glyph}

theorem string_inner {screen : Bool} {lead : Nat} (htext : text.length = lead + gs.length) :
    (string screen lead line gs).Inner text := by
  unfold string
  split
  · exact .fail _ _
  · rename_i cs used last hbody
    have hle := (stringBody_closed hbody).1
    exact .emit (by omega) _ nofun nofun

theorem script_inner (htext : text.length = 2 + gs.length) : (script defines line gs).Inner text := by
  unfold script
  split
  · exact .fail _ _
  · rename_i cs used last hbody
    have hle := (scriptBody_closed hbody).1
    dsimp only
    split
    · exact .emit (by omega) _ nofun nofun
    · exact .fail _ _

theorem numberLead_le (gs : List Glyph) (g : Glyph) : (numberLead (g :: gs)).2 ≤ gs.length + 1 := by
  unfold numberLead
  split <;> simp_all

theorem length_digitsOf_le (base : Nat) (gs : List Glyph) : (digitsOf base gs).length ≤ gs.length := by
  rw [digitsOf, List.length_map]
  exact (List.takeWhile_sublist _).length_le

theorem number_inner : (number line (g :: rest)).Inner (g :: rest) := by
  have hlead := numberLead_le rest g
  unfold number
  dsimp only
  split
  · refine .emit ?_ _ nofun nofun
    have hdigits := length_digitsOf_le (numberLead (g :: rest)).1
      ((g :: rest).drop (numberLead (g :: rest)).2)
    rw [List.length_drop, List.length_cons] at hdigits
    rw [List.length_cons]
    omega
  · exact .fail _ _

theorem word_le (gs : List Glyph) : (word gs).length ≤ gs.length := (List.takeWhile_sublist _).length_le

theorem name_inner : (name line (g :: rest)).Inner (g :: rest) := by
  unfold name
  dsimp only
  split
  · exact .fail _ _
  split
  · rename_i hcolon
    -- the colon is behind the name
    refine .emit ?_ _ nofun nofun
    have hbehind := congrArg List.length (eq_cons_of_head? hcolon)
    simp only [List.length_drop, List.length_cons] at hbehind ⊢
    omega
  split
  · exact .emit (word_le _) _ nofun nofun
  · exact .emit (word_le _) _ nofun nofun

theorem sign_le {s : Sign} (h : sign? gs = some s) : s.chars.length ≤ gs.length := by
  have hprefix := List.find?_some h
  have hle := (List.isPrefixOf_iff_prefix.mp hprefix).length_le
  rwa [List.length_map] at hle

/-- A step takes no more than there is, and does not make the end of the file; a directive
starts with its dot. -/
theorem step_takes {l : Option Lexeme} {n : Nat} (h : (step defines line g rest).takes? = some (l, n)) :
    n ≤ (g :: rest).length ∧ l ≠ some .endOfFile ∧ ∀ name, l = some (.directive name) → g = .char '.' := by
  have hinner : ∀ {s : Step}, s.takes? = some (l, n) → s.Inner (g :: rest) →
      n ≤ (g :: rest).length ∧ l ≠ some .endOfFile ∧ ∀ name, l = some (.directive name) → g = .char '.' := by
    intro s h hs
    obtain ⟨hle, hend, hdirective⟩ := hs l n h
    exact ⟨hle, hend, fun name hname => absurd hname (hdirective name)⟩
  -- every branch takes the glyph it looked at, and some more behind it
  have hone : 1 ≤ (g :: rest).length := Nat.succ_pos _
  have hstarts := step_starts defines line g rest
  generalize step defines line g rest = s at hstarts h
  cases hstarts with
  | newline | space => exact hinner h (.skip hone _)
  | comment => exact hinner h (.skip (List.takeWhile_sublist _).length_le _)
  | directive =>
      unfold directive at h
      split at h
      · cases h
      · cases h
        have hle := word_le rest
        exact ⟨by rw [List.length_cons]; omega, nofun, fun _ _ => rfl⟩
  | lone _ hl =>
      simp only [lones, List.mem_cons, List.not_mem_nil, or_false] at hl
      rcases hl with rfl | rfl | rfl | rfl | rfl | rfl <;> exact hinner h (.emit hone _ nofun nofun)
  | string => exact hinner h (string_inner (Nat.add_comm _ 1))
  | marked => exact hinner h (string_inner (Nat.add_comm _ 2))
  | script => exact hinner h (script_inner (Nat.add_comm _ 2))
  | number => exact hinner h number_inner
  | sign _ hsign => exact hinner h (.emit (sign_le hsign) _ nofun nofun)
  | name => exact hinner h name_inner
  | unknown => cases h

/-- What a step takes is its first glyph and glyphs of the text behind it, where there is
more text. -/
theorem step_cut {l : Option Lexeme} {n : Nat} (h : (step defines line g rest).takes? = some (l, n)) :
    ∃ gs text, rest = gs ++ text ∧ n = gs.length + 1 := by
  have hle := (step_takes h).1
  have hpos := step_advances defines line g rest h
  rw [List.length_cons] at hle
  refine ⟨rest.take (n - 1), rest.drop (n - 1), (List.take_append_drop _ rest).symm, ?_⟩
  rw [List.length_take]
  omega

end

/-! ## Pieces -/

/-- The text, which the rest follows, is read piece by piece and makes the lexemes. -/
inductive Makes (defines : List (String × Int64)) (rest : List Glyph) :
    List Glyph → List Lexeme → Prop
  | nil : Makes defines rest [] []
  | piece {line : Nat} {g : Glyph} {gs text : List Glyph} {l : Option Lexeme} {ls : List Lexeme} :
      (step defines line g (gs ++ (text ++ rest))).takes? = some (l, gs.length + 1) →
        Makes defines rest text ls → Makes defines rest (g :: (gs ++ text)) (l.toList ++ ls)

namespace Makes

variable {defines : List (String × Int64)} {rest rest' text text' : List Glyph}
  {ls ls' : List Lexeme}

/-- The same text makes the same lexemes where it goes on in another way. -/
theorem follows (h : Makes defines rest text ls) (hfollows : Follows rest rest') :
    Makes defines rest' text ls := by
  induction h with
  | nil => exact .nil
  | @piece line g gs text l ls htakes _ ih =>
      exact .piece (step_local defines g htakes (hfollows.append text) line) ih

theorem append (h : Makes defines (text' ++ rest) text ls) (h' : Makes defines rest text' ls') :
    Makes defines rest (text ++ text') (ls ++ ls') := by
  induction h with
  | nil => exact h'
  | @piece line g gs text l ls htakes _ ih =>
      rw [← List.append_assoc text] at htakes
      rw [List.cons_append, List.append_assoc, List.append_assoc]
      exact .piece htakes ih

/-- The text is cut in front of the piece that makes a lexeme, and behind it. -/
theorem split {first later : List Lexeme} {l : Lexeme} (h : Makes defines rest text (first ++ l :: later)) :
    ∃ before g gs after, text = before ++ (g :: gs ++ after) ∧
      Makes defines (g :: gs ++ after ++ rest) before first ∧
      Makes defines (after ++ rest) (g :: gs) [l] ∧ (∀ name, l = .directive name → g = .char '.') ∧
      Makes defines rest after later := by
  generalize hls : first ++ l :: later = ls at h
  induction h generalizing first with
  | nil => simp at hls
  | @piece line g gs text l' ls htakes hmakes ih =>
      -- the piece is in front of the one that is looked for
      have hbehind : ∀ {more : List Lexeme}, more ++ l :: later = ls → first = l'.toList ++ more →
          ∃ before g' gs' after, g :: (gs ++ text) = before ++ (g' :: gs' ++ after) ∧
            Makes defines (g' :: gs' ++ after ++ rest) before first ∧
            Makes defines (after ++ rest) (g' :: gs') [l] ∧
            (∀ name, l = .directive name → g' = .char '.') ∧ Makes defines rest after later := by
        rintro more hmore rfl
        obtain ⟨before, g', gs', after, rfl, hbefore, hpiece, hdot, hafter⟩ := ih hmore
        refine ⟨g :: (gs ++ before), g', gs', after, ?_, ?_, hpiece, hdot, hafter⟩
        · simp only [List.cons_append, List.append_assoc]
        · rw [List.append_assoc] at htakes
          exact .piece htakes hbefore
      cases l' with
      | none => exact hbehind hls rfl
      | some x =>
          cases first with
          | nil =>
              obtain ⟨rfl, rfl⟩ := List.cons.inj hls
              have hpiece : Makes defines (text ++ rest) (g :: (gs ++ [])) ((some l).toList ++ []) :=
                .piece htakes .nil
              rw [List.append_nil] at hpiece
              exact ⟨[], g, gs, text, rfl, .nil, hpiece,
                fun name hl => (step_takes htakes).2.2 name (congrArg some hl), hmakes⟩
          | cons y more =>
              obtain ⟨rfl, hmore⟩ := List.cons.inj hls
              exact hbehind hmore rfl

/-- A new line in front makes nothing. -/
theorem newline (h : Makes defines rest text ls) : Makes defines rest (.char '\n' :: text) ls :=
  @Makes.piece defines rest 0 (.char '\n') [] text none ls rfl h

theorem ne_endOfFile (h : Makes defines rest text ls) : ∀ l ∈ ls, l ≠ .endOfFile := by
  induction h with
  | nil => exact nofun
  | @piece line g gs text l ls htakes _ ih =>
      refine List.forall_mem_append.mpr ⟨fun l' hl' => ?_, ih⟩
      rintro rfl
      rw [Option.mem_toList] at hl'
      obtain rfl := Option.mem_def.mp hl'
      exact (step_takes htakes).2.1 rfl

/-- Text that makes some lexemes is read as their tokens, whatever was read before. -/
theorem scanFrom_eq (h : Makes defines rest text ls) (line : Nat) (done : List Token) :
    ∃ (ts : List Token) (last : Nat), ts.map Token.lexeme = ls ∧
      scanFrom defines line done (text ++ rest) = scanFrom defines last (ts.reverse ++ done) rest := by
  induction h generalizing line done with
  | nil => exact ⟨[], line, rfl, rfl⟩
  | @piece line' g gs text l ls htakes _ ih =>
      -- the step is on another line
      have htakes' : (step defines line g (gs ++ (text ++ rest))).takes? = some (l, gs.length + 1) :=
        step_local defines g htakes (.inl rfl) line
      have hdrop : (g :: (gs ++ (text ++ rest))).drop (gs.length + 1) = text ++ rest := by
        rw [List.drop_succ_cons, List.drop_left]
      rw [List.cons_append, List.append_assoc]
      cases hstep : step defines line g (gs ++ (text ++ rest)) with
      | fail => rw [hstep] at htakes'; cases htakes'
      | skip taken line'' =>
          rw [hstep] at htakes'
          cases htakes'
          obtain ⟨ts, last, hts, hscan⟩ := ih line'' done
          exact ⟨ts, last, hts, by rw [scanFrom_skip hstep, hdrop, hscan]⟩
      | emit token taken line'' =>
          rw [hstep] at htakes'
          cases htakes'
          obtain ⟨ts, last, hts, hscan⟩ := ih line'' (token :: done)
          refine ⟨token :: ts, last, by rw [List.map_cons, hts]; rfl, ?_⟩
          rw [scanFrom_emit hstep, hdrop, hscan, List.reverse_cons, List.append_assoc]
          rfl

/-- A step and what is read behind it. -/
theorem of_step {line n : Nat} {g : Glyph} {l : Option Lexeme} {s : {s : Step // s.Advances}}
    (hstep : stepAt defines line g text = s) (htakes : s.val.takes? = some (l, n))
    (h : ∃ ls, Makes defines [] ((g :: text).drop n) ls) : ∃ ls, Makes defines [] (g :: text) ls := by
  subst hstep
  obtain ⟨gs, text, rfl, rfl⟩ := step_cut htakes
  rw [List.drop_succ_cons, List.drop_left] at h
  obtain ⟨ls, hmakes⟩ := h
  exact ⟨_, @Makes.piece _ _ line _ _ _ _ _ (by rwa [List.append_nil]) hmakes⟩

theorem of_scanFrom {line : Nat} {done : List Token}
    (h : (scanFrom defines line done text).error = none) : ∃ ls, Makes defines [] text ls := by
  fun_induction scanFrom defines line done text with
  | case1 => exact ⟨[], .nil⟩
  | case2 line done g rest taken line' _ hstep ih => exact of_step hstep rfl (ih h)
  | case3 line done g rest token taken line' _ hstep ih => exact of_step hstep rfl (ih h)
  | case4 => cases h

/-- Text that is read without fault makes lexemes. -/
theorem of_scan (h : (scan defines text).error = none) : ∃ ls, Makes defines [] text ls :=
  of_scanFrom h

/-- Text to its end is read as the tokens of the lexemes, and the end of the file. -/
theorem scan_eq (h : Makes defines [] text ls) :
    ∃ (ts : List Token) (last : Nat), ts.map Token.lexeme = ls ∧
      scan defines text = ⟨ts ++ [⟨.endOfFile, last⟩], last, none⟩ := by
  obtain ⟨ts, last, hts, hscan⟩ := h.scanFrom_eq 1 []
  rw [List.append_nil] at hscan
  refine ⟨ts, last, hts, ?_⟩
  rw [scan, hscan, scanFrom_nil, List.append_nil, List.reverse_cons, List.reverse_reverse]

end Makes

end Lexer

end Mos6510
