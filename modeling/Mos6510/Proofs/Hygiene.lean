import Mathlib.Data.Set.Function
import Mos6510.Proofs.Names
import Mos6510.Proofs.Numbering

/-!
# Macro calls rename the body

A macro call replaces the private names of the body and the numbers of its
jumps and counters, and the names of its `.LABEL`s.

* `mapSymbolsAll_comp`, `mapSymbolsAll_congr`: renaming one after the other is
  renaming at once, and depends on the names that are there only;
* `WrittenMacro.callRenaming`: what a call replaces the names and numbers by;
* `WrittenMacro.instantiate_renames`: a call of a macro that the builder has
  put together is the body under this renaming, which confuses no names and no
  numbers, within one call and between any two.
-/

namespace Mos6510

open Outcome

/-! ## Names in actions -/

mutual

/-- The symbols that an action reads, assigns or places, those in its
arguments included. -/
def Action.symbolNames : Action → List String
  | ⟨_, op, _⟩ => op.symbolNames

/-- The symbols that an action reads, assigns or places. -/
def Op.symbolNames : Op → List String
  | .get name => [name]
  | .set name => [name]
  | .label name _ => [name]
  | .message _ _ args => symbolNamesArgs args
  | .callMacro _ args => symbolNamesArgs args
  | .includeBinary _ args => symbolNamesArgs args
  | _ => []

def symbolNamesArgs : List (List Action) → List String
  | [] => []
  | a :: rest => symbolNamesAll a ++ symbolNamesArgs rest

def symbolNamesAll : List Action → List String
  | [] => []
  | a :: rest => a.symbolNames ++ symbolNamesAll rest

end

section

variable (f g : String → String)

mutual

theorem Action.mapSymbols_comp : ∀ a : Action,
    (a.mapSymbols f).mapSymbols g = a.mapSymbols (g ∘ f)
  | ⟨loc, op, x⟩ => by
      rw [Action.mapSymbols, Action.mapSymbols, Action.mapSymbols, Op.mapSymbols_comp op]

/-- Renaming one after the other is renaming at once. -/
theorem Op.mapSymbols_comp : ∀ op : Op, (op.mapSymbols f).mapSymbols g = op.mapSymbols (g ∘ f)
  | .message level formatted args => by
      rw [Op.mapSymbols, Op.mapSymbols, Op.mapSymbols, mapSymbolsArgs_comp args]
  | .callMacro name args => by
      rw [Op.mapSymbols, Op.mapSymbols, Op.mapSymbols, mapSymbolsArgs_comp args]
  | .includeBinary name args => by
      rw [Op.mapSymbols, Op.mapSymbols, Op.mapSymbols, mapSymbolsArgs_comp args]
  | .get _ | .set _ | .label _ _ => by simp [Op.mapSymbols]
  | .load _ | .unary _ | .binary _ | .instruction _ | .width _ _ | .data _ | .text _ _
  | .bytes _ _ | .target _ | .jump _ | .jumpIfFalse _ | .counterSet _ | .counterTest _ _
  | .counterStep _ _ | .string _ | .defineMacro _ _ _ | .metaLabel _ | .goto _
  | .includeSource _ => by simp [Op.mapSymbols]

theorem mapSymbolsArgs_comp : ∀ args : List (List Action),
    mapSymbolsArgs g (mapSymbolsArgs f args) = mapSymbolsArgs (g ∘ f) args
  | [] => by simp [mapSymbolsArgs]
  | a :: rest => by
      rw [mapSymbolsArgs, mapSymbolsArgs, mapSymbolsArgs, mapSymbolsAll_comp a,
        mapSymbolsArgs_comp rest]

theorem mapSymbolsAll_comp : ∀ acts : List Action,
    mapSymbolsAll g (mapSymbolsAll f acts) = mapSymbolsAll (g ∘ f) acts
  | [] => by simp [mapSymbolsAll]
  | a :: rest => by
      rw [mapSymbolsAll, mapSymbolsAll, mapSymbolsAll, Action.mapSymbols_comp a,
        mapSymbolsAll_comp rest]

end

variable {f g}

mutual

theorem Action.mapSymbols_congr : ∀ a : Action, (∀ n ∈ a.symbolNames, f n = g n) →
    a.mapSymbols f = a.mapSymbols g
  | ⟨loc, op, x⟩, h => by
      rw [Action.mapSymbols, Action.mapSymbols, Op.mapSymbols_congr op h]

/-- Renaming depends on the names that are there only. -/
theorem Op.mapSymbols_congr : ∀ op : Op, (∀ n ∈ op.symbolNames, f n = g n) →
    op.mapSymbols f = op.mapSymbols g
  | .message level formatted args, h => by
      rw [Op.mapSymbols, Op.mapSymbols, mapSymbolsArgs_congr args h]
  | .callMacro name args, h => by
      rw [Op.mapSymbols, Op.mapSymbols, mapSymbolsArgs_congr args h]
  | .includeBinary name args, h => by
      rw [Op.mapSymbols, Op.mapSymbols, mapSymbolsArgs_congr args h]
  | .get name, h | .set name, h | .label name _, h => by
      simp [Op.mapSymbols, h name (by simp [Op.symbolNames])]
  | .load _, _ | .unary _, _ | .binary _, _ | .instruction _, _ | .width _ _, _ | .data _, _
  | .text _ _, _ | .bytes _ _, _ | .target _, _ | .jump _, _ | .jumpIfFalse _, _
  | .counterSet _, _ | .counterTest _ _, _ | .counterStep _ _, _ | .string _, _
  | .defineMacro _ _ _, _ | .metaLabel _, _ | .goto _, _ | .includeSource _, _ => by
      simp [Op.mapSymbols]

theorem mapSymbolsArgs_congr : ∀ args : List (List Action),
    (∀ n ∈ symbolNamesArgs args, f n = g n) → mapSymbolsArgs f args = mapSymbolsArgs g args
  | [], _ => by simp [mapSymbolsArgs]
  | a :: rest, h => by
      rw [symbolNamesArgs, List.forall_mem_append] at h
      rw [mapSymbolsArgs, mapSymbolsArgs, mapSymbolsAll_congr a h.1, mapSymbolsArgs_congr rest h.2]

theorem mapSymbolsAll_congr : ∀ acts : List Action,
    (∀ n ∈ symbolNamesAll acts, f n = g n) → mapSymbolsAll f acts = mapSymbolsAll g acts
  | [], _ => by simp [mapSymbolsAll]
  | a :: rest, h => by
      rw [symbolNamesAll, List.forall_mem_append] at h
      rw [mapSymbolsAll, mapSymbolsAll, Action.mapSymbols_congr a h.1, mapSymbolsAll_congr rest h.2]

end

end

mutual

theorem Action.mem_symbolNames {n : String} : ∀ a : Action, n ∈ a.definedNames → n ∈ a.symbolNames
  | ⟨_, op, _⟩, h => Op.mem_symbolNames op h

/-- What is assigned or placed is among the symbols. -/
theorem Op.mem_symbolNames {n : String} : ∀ op : Op, n ∈ op.definedNames → n ∈ op.symbolNames
  | .message _ _ args, h | .callMacro _ args, h | .includeBinary _ args, h =>
      mem_symbolNamesArgs args h
  | .set name, h => by
      rw [Op.definedNames] at h
      split at h
      · cases h
      · exact h
  | .label name _, h => h
  | .get _, h | .load _, h | .unary _, h | .binary _, h | .instruction _, h | .width _ _, h
  | .data _, h | .text _ _, h | .bytes _ _, h | .target _, h | .jump _, h | .jumpIfFalse _, h
  | .counterSet _, h | .counterTest _ _, h | .counterStep _ _, h | .string _, h
  | .defineMacro _ _ _, h | .metaLabel _, h | .goto _, h | .includeSource _, h => by cases h

theorem mem_symbolNamesArgs {n : String} : ∀ args : List (List Action),
    n ∈ definedNamesArgs args → n ∈ symbolNamesArgs args
  | [], h => by cases h
  | a :: rest, h => by
      rw [definedNamesArgs] at h
      rw [symbolNamesArgs]
      rcases List.mem_append.mp h with h | h
      · exact List.mem_append_left _ (mem_symbolNamesAll a h)
      · exact List.mem_append_right _ (mem_symbolNamesArgs rest h)

theorem mem_symbolNamesAll {n : String} : ∀ acts : List Action,
    n ∈ definedNamesAll acts → n ∈ symbolNamesAll acts
  | [], h => by cases h
  | a :: rest, h => by
      rw [definedNamesAll] at h
      rw [symbolNamesAll]
      rcases List.mem_append.mp h with h | h
      · exact List.mem_append_left _ (Action.mem_symbolNames a h)
      · exact List.mem_append_right _ (mem_symbolNamesAll rest h)

end

theorem mem_symbolNamesAll_iff {n : String} {acts : List Action} :
    n ∈ symbolNamesAll acts ↔ ∃ a ∈ acts, n ∈ a.symbolNames := by
  induction acts with
  | nil => simp [symbolNamesAll]
  | cons a rest ih => simp [symbolNamesAll, ih]

theorem mem_symbolNamesArgs_iff {n : String} {args : List (List Action)} :
    n ∈ symbolNamesArgs args ↔ ∃ arg ∈ args, n ∈ symbolNamesAll arg := by
  induction args with
  | nil => simp [symbolNamesArgs]
  | cons arg rest ih => simp [symbolNamesArgs, ih]

section

variable (f : String → String)

mutual

theorem Action.symbolNames_mapSymbols : ∀ a : Action,
    (a.mapSymbols f).symbolNames = a.symbolNames.map f
  | ⟨loc, op, x⟩ => by
      rw [Action.mapSymbols, Action.symbolNames, Action.symbolNames, Op.symbolNames_mapSymbols op]

/-- The symbols of a renamed action are the renamed symbols. -/
theorem Op.symbolNames_mapSymbols : ∀ op : Op,
    (op.mapSymbols f).symbolNames = op.symbolNames.map f
  | .message _ _ args | .callMacro _ args | .includeBinary _ args => by
      rw [Op.mapSymbols, Op.symbolNames, Op.symbolNames, symbolNamesArgs_mapSymbols args]
  | .get _ | .set _ | .label _ _ | .load _ | .unary _ | .binary _ | .instruction _ | .width _ _
  | .data _ | .text _ _ | .bytes _ _ | .target _ | .jump _ | .jumpIfFalse _ | .counterSet _
  | .counterTest _ _ | .counterStep _ _ | .string _ | .defineMacro _ _ _ | .metaLabel _ | .goto _
  | .includeSource _ => by simp [Op.mapSymbols, Op.symbolNames]

theorem symbolNamesArgs_mapSymbols : ∀ args : List (List Action),
    symbolNamesArgs (mapSymbolsArgs f args) = (symbolNamesArgs args).map f
  | [] => by simp [mapSymbolsArgs, symbolNamesArgs]
  | a :: rest => by
      rw [mapSymbolsArgs, symbolNamesArgs, symbolNamesArgs, List.map_append,
        symbolNamesAll_mapSymbols a, symbolNamesArgs_mapSymbols rest]

theorem symbolNamesAll_mapSymbols : ∀ acts : List Action,
    symbolNamesAll (mapSymbolsAll f acts) = (symbolNamesAll acts).map f
  | [] => by simp [mapSymbolsAll, symbolNamesAll]
  | a :: rest => by
      rw [mapSymbolsAll, symbolNamesAll, symbolNamesAll, List.map_append,
        Action.symbolNames_mapSymbols a, symbolNamesAll_mapSymbols rest]

end

end

/-! ## Renamings -/

/-- What a macro call replaces the names and numbers of the body by. -/
structure Renaming where
  symbol : String → String
  number : Numbered → Int → Int
  metaLabel : String → String

/-- The action under a renaming.  What an action holds that is neither a name
nor a number stays as it is. -/
def Renaming.op (r : Renaming) : Op → Op
  | .target j => .target (r.number .jump j)
  | .jump j => .jump (r.number .jump j)
  | .jumpIfFalse j => .jumpIfFalse (r.number .jump j)
  | .counterSet c => .counterSet (r.number .counter c)
  | .counterTest c j => .counterTest (r.number .counter c) (r.number .jump j)
  | .counterStep c j => .counterStep (r.number .counter c) (r.number .jump j)
  | .metaLabel name => .metaLabel (r.metaLabel name)
  | .goto name => .goto (r.metaLabel name)
  | op => op.mapSymbols r.symbol

/-- The action under a renaming, marked with the call that it comes from. -/
def Renaming.action (r : Renaming) (x : Expansion) (a : Action) : Action :=
  ⟨a.location, r.op a.op, some x⟩

theorem Renaming.symbolNames_op (r : Renaming) (op : Op) :
    (r.op op).symbolNames = op.symbolNames.map r.symbol := by
  cases op with
  | target | jump | jumpIfFalse | counterSet | counterTest | counterStep | metaLabel | goto => rfl
  | _ => exact Op.symbolNames_mapSymbols r.symbol _

/-! ## Macros as they are written -/

/-- A macro definition as it is written. -/
structure WrittenMacro where
  location : Location
  name : String
  params : List String
  body : List Action

/-- The `.LABEL`s of actions, in order. -/
def metaLabelNames (acts : List Action) : List String :=
  acts.filterMap fun a => match a.op with
    | .metaLabel name => some name
    | _ => none

namespace WrittenMacro

/-- The definition that calls are expanded by. -/
def define (w : WrittenMacro) : MacroDef := MacroDef.make w.location w.name w.params w.body

/-- The names that belong to each call: the parameters, and what the body
assigns or labels. -/
def defined (w : WrittenMacro) : List String := w.params ++ definedNamesAll w.body

/-- The names that are written in the definition. -/
def names (w : WrittenMacro) : List String :=
  w.name :: w.params ++ symbolNamesAll w.body ++ metaLabelNames w.body

/-- What a call with a sequence number replaces names and numbers by, if the
numbers `ids` are the next to be given out. -/
def callRenaming (w : WrittenMacro) (seq : Nat) (ids : Ids) : Renaming where
  symbol name :=
    if name ∈ w.defined then anchorName w.name seq ++ localMark ++ MacroDef.hide name else name
  number κ n := (ids.next κ + (given κ w.body).idxOf n : Nat)
  metaLabel name :=
    if name ∈ metaLabelNames w.body then name ++ "$" ++ Text.decimal seq else name

/-- The numbers after a call. -/
def idsAfter (w : WrittenMacro) (ids : Ids) : Ids :=
  { ids with
    jump := ids.jump + (given .jump w.body).length
    counter := ids.counter + (given .counter w.body).length }

/-- Each argument, and the assignment to its parameter. -/
def bindings (w : WrittenMacro) (r : Renaming) (call : Location) (args : List (List Action)) :
    List Action :=
  (w.params.zip args).flatMap fun b => b.2 ++ [Action.set call (r.symbol b.1)]

/-- The builder has put the definition together, out of expressions that
compute values and of names as source text can have them. -/
structure Collected (w : WrittenMacro) : Prop where
  built : ∃ lines ids b x, (∀ l ∈ lines, l.statement.Computes) ∧
    Builder.issueAll lines { ids := ids } = .ok () b ∧
    ⟨w.location, .defineMacro w.name w.params w.body, x⟩ ∈ b.actions.toList
  written : ∀ name ∈ w.names, IsWritten name

/-- What a call relies on: the body is linked and stands for itself, and all
names are as source text can have them. -/
structure Sound (w : WrittenMacro) : Prop where
  linked : Linked w.body
  inner : ∀ a ∈ w.body, a.op.isOutermost = false
  written : ∀ name ∈ w.names, IsWritten name

theorem Collected.sound {w : WrittenMacro} (h : w.Collected) : w.Sound := by
  obtain ⟨lines, ids, b, x, hlines, hissue, hmem⟩ := h.built
  have hnumbered := (Builder.issueAll_numbered hlines (.start ids) hissue).2
  obtain ⟨hlinked, hinner⟩ := hnumbered.bodies _ hmem _ _ _ rfl
  exact ⟨hlinked, hinner, h.written⟩

theorem Sound.written_of_defined {w : WrittenMacro} (h : w.Sound) {name : String}
    (hname : name ∈ w.defined) : IsWritten name := by
  refine h.written name (List.mem_append_left _ ?_)
  rcases List.mem_append.mp hname with hname | hname
  · exact List.mem_append_left _ (List.mem_cons_of_mem _ hname)
  · exact List.mem_append_right _ (mem_symbolNamesAll w.body hname)

/-! ## Names and numbers of a call -/

/-- Hide the names that belong to each call. -/
def hideOwn (w : WrittenMacro) (name : String) : String :=
  if w.defined.contains name then MacroDef.hide name else name

/-- Hiding a name and binding it to a call is what the renaming does at once. -/
theorem bindName_hidden {w : WrittenMacro} {name : String} (hname : IsWritten name) (seq : Nat)
    (ids : Ids) :
    w.define.bindName seq (w.hideOwn name) = (w.callRenaming seq ids).symbol name := by
  unfold MacroDef.bindName hideOwn callRenaming
  show (if (w.defined.map MacroDef.hide).contains _ = true then _ else _) = _
  by_cases hdefined : name ∈ w.defined
  · have hhidden : MacroDef.hide name ∈ w.defined.map MacroDef.hide := List.mem_map_of_mem hdefined
    simp only [List.contains_iff_mem, hdefined, hhidden, if_true]
    rfl
  · have hhidden : name ∉ w.defined.map MacroDef.hide := by
      intro hmem
      obtain ⟨other, hother, heq⟩ := List.mem_map.mp hmem
      obtain rfl := MacroDef.eq_of_hide_eq hname heq
      exact hdefined hother
    simp only [List.contains_iff_mem, hdefined, hhidden, if_false]

theorem map_fst_freshNumbers (next : Nat) (numbers : List Int) :
    (MacroDef.freshNumbers next numbers).map Prod.fst = numbers.reverse := by
  induction numbers generalizing next with
  | nil => rfl
  | cons n rest ih =>
      rw [MacroDef.freshNumbers, List.map_append, ih, List.reverse_cons]
      rfl

/-- Each number gets the fresh one at its place. -/
theorem lookup_freshNumbers {next : Nat} {numbers : List Int} {n : Int} (hapart : numbers.Nodup)
    (hn : n ∈ numbers) :
    (MacroDef.freshNumbers next numbers).lookup n = some (next + numbers.idxOf n) := by
  induction numbers generalizing next with
  | nil => cases hn
  | cons m rest ih =>
      obtain ⟨hm, hrest⟩ := List.nodup_cons.mp hapart
      rw [MacroDef.freshNumbers, List.lookup_append]
      by_cases hmn : n = m
      · subst hmn
        -- the numbers are apart, so the tail does not give this one again
        have hnone : (MacroDef.freshNumbers (next + 1) rest).lookup n = none := by
          refine List.lookup_eq_none_iff.mpr fun p hp => ?_
          have hfst := List.mem_map_of_mem (f := Prod.fst) hp
          rw [map_fst_freshNumbers, List.mem_reverse] at hfst
          have hne : n ≠ p.1 := fun heq => hm (heq ▸ hfst)
          simpa using hne
        simp [hnone]
      · have hmem := (List.mem_cons.mp hn).resolve_left hmn
        rw [ih hrest hmem, List.idxOf_cons_ne _ (Ne.symm hmn)]
        simp
        omega

/-- Hiding names changes nothing that has no names. -/
theorem filterMap_body {α : Type} (w : WrittenMacro) {f : Action → Option α}
    (hf : ∀ loc op x, f ⟨loc, op.mapSymbols w.hideOwn, x⟩ = f ⟨loc, op, x⟩) :
    w.define.body.filterMap f = w.body.filterMap f := by
  show (mapSymbolsAll w.hideOwn w.body).filterMap f = _
  rw [mapSymbolsAll_eq_map, List.filterMap_map]
  congr 1
  funext ⟨loc, op, x⟩
  rw [Function.comp_apply, Action.mapSymbols, hf]

theorem given_body (w : WrittenMacro) (κ : Numbered) : given κ w.define.body = given κ w.body :=
  w.filterMap_body fun loc op x => by cases κ <;> cases op <;> simp [Op.mapSymbols, Op.given?]

theorem targets_define (w : WrittenMacro) : w.define.targets = given .jump w.body := by
  rw [← w.given_body]
  unfold MacroDef.targets given
  congr 1
  funext ⟨loc, op, x⟩
  cases op <;> rfl

theorem counters_define (w : WrittenMacro) : w.define.counters = given .counter w.body := by
  rw [← w.given_body]
  unfold MacroDef.counters given
  congr 1
  funext ⟨loc, op, x⟩
  cases op <;> rfl

theorem metaLabels_define (w : WrittenMacro) : w.define.metaLabels = metaLabelNames w.body := by
  unfold MacroDef.metaLabels metaLabelNames
  exact w.filterMap_body fun loc op x => by cases op <;> simp [Op.mapSymbols]

section

variable {w : WrittenMacro} {a : Action} (seq : Nat) (ids : Ids)

/-- A call finds the new number of each number in the body. -/
theorem lookup_number (hw : w.Sound) (ha : a ∈ w.body) (κ : Numbered) {n : Int}
    (hn : a.op.given? κ = some n ∨ a.op.taken? κ = some n) :
    (MacroDef.freshNumbers (ids.next κ) (given κ w.body)).lookup n =
      some (ids.next κ + (given κ w.body).idxOf n) := by
  obtain ⟨hapart, htaken⟩ := hw.linked
  refine lookup_freshNumbers (hapart κ) ?_
  rcases hn with hn | hn
  · exact List.mem_filterMap.mpr ⟨a, ha, hn⟩
  · exact htaken κ n (List.mem_filterMap.mpr ⟨a, ha, hn⟩)

/-- Hiding and binding the symbols of an action is what the renaming does at
once. -/
theorem bind_hidden (hw : w.Sound) (ha : a ∈ w.body) :
    (a.op.mapSymbols w.hideOwn).mapSymbols (w.define.bindName seq) =
      a.op.mapSymbols (w.callRenaming seq ids).symbol := by
  rw [Op.mapSymbols_comp]
  refine Op.mapSymbols_congr a.op fun name hname => bindName_hidden (hw.written name ?_) seq ids
  refine List.mem_append_left _ (List.mem_append_right _ ?_)
  obtain ⟨loc, op, x⟩ := a
  exact mem_symbolNamesAll_iff.mpr ⟨_, ha, hname⟩

/-- A call finds the numbers and names of each action of the body. -/
theorem renumber_hidden (hw : w.Sound) (ha : a ∈ w.body) :
    ∃ op, w.define.renumber seq (MacroDef.freshNumbers ids.jump w.define.targets)
        (MacroDef.freshNumbers ids.counter w.define.counters) (a.mapSymbols w.hideOwn) = .ok op ∧
      op.mapSymbols (w.define.bindName seq) = (w.callRenaming seq ids).op a.op := by
  have hjump : ∀ n, a.op.given? .jump = some n ∨ a.op.taken? .jump = some n →
      (MacroDef.freshNumbers ids.jump (given .jump w.body)).lookup n =
        some (ids.jump + (given .jump w.body).idxOf n) :=
    fun n => lookup_number ids hw ha .jump
  have hcounter : ∀ n, a.op.given? .counter = some n ∨ a.op.taken? .counter = some n →
      (MacroDef.freshNumbers ids.counter (given .counter w.body)).lookup n =
        some (ids.counter + (given .counter w.body).idxOf n) :=
    fun n => lookup_number ids hw ha .counter
  have hbind := bind_hidden seq ids hw ha
  -- the hidden definition lists the same metalabels, so it binds the same ones
  have hmeta : ∀ name, w.define.bindMetaLabel seq name = (w.callRenaming seq ids).metaLabel name := by
    intro name
    simp only [MacroDef.bindMetaLabel, metaLabels_define, List.contains_iff_mem]
    rfl
  rw [targets_define, counters_define]
  obtain ⟨loc, op, x⟩ := a
  rw [Action.mapSymbols]
  cases op with
  | target j =>
      simp [MacroDef.renumber, Op.mapSymbols, hjump j (.inl rfl), Renaming.op, callRenaming, Ids.next]
  | jump j =>
      simp [MacroDef.renumber, Op.mapSymbols, hjump j (.inr rfl), Renaming.op, callRenaming, Ids.next]
  | jumpIfFalse j =>
      simp [MacroDef.renumber, Op.mapSymbols, hjump j (.inr rfl), Renaming.op, callRenaming, Ids.next]
  | counterSet c =>
      simp [MacroDef.renumber, Op.mapSymbols, hcounter c (.inl rfl), Renaming.op, callRenaming,
        Ids.next]
  | counterTest c j =>
      simp [MacroDef.renumber, Op.mapSymbols, hjump j (.inr rfl), hcounter c (.inr rfl), Renaming.op,
        callRenaming, Ids.next]
  | counterStep c j =>
      simp [MacroDef.renumber, Op.mapSymbols, hjump j (.inr rfl), hcounter c (.inr rfl), Renaming.op,
        callRenaming, Ids.next]
  | metaLabel name => simp [MacroDef.renumber, Op.mapSymbols, Renaming.op, hmeta]
  | goto name => simp [MacroDef.renumber, Op.mapSymbols, Renaming.op, hmeta]
  | _ => exact ⟨_, rfl, hbind⟩

end

/-- The body as a call sees it. -/
theorem bindBody_eq {w : WrittenMacro} (hw : w.Sound) (seq : Nat) (ids : Ids) (x : Expansion)
    {acts : List Action} (hacts : ∀ a ∈ acts, a ∈ w.body) :
    w.define.bindBody seq (MacroDef.freshNumbers ids.jump w.define.targets)
        (MacroDef.freshNumbers ids.counter w.define.counters) x (mapSymbolsAll w.hideOwn acts) =
      .ok (acts.map ((w.callRenaming seq ids).action x)) := by
  induction acts with
  | nil => rfl
  | cons a rest ih =>
      obtain ⟨ha, hrest⟩ := List.forall_mem_cons.mp hacts
      obtain ⟨op, hop, hbind⟩ := renumber_hidden seq ids hw ha
      rw [mapSymbolsAll, MacroDef.bindBody, hop]
      simp only [ih hrest, hbind]
      obtain ⟨loc, op', y⟩ := a
      rw [Action.mapSymbols]
      rfl

/-- The arguments as a call sees them. -/
theorem bindArgs_eq {w : WrittenMacro} (seq : Nat) (ids : Ids) (call : Location)
    {params : List String} {args : List (List Action)} (hparams : ∀ p ∈ params, p ∈ w.defined)
    (hargs : args.length = params.length) :
    MacroDef.bindArgs call (w.define.anchor seq) (params.map MacroDef.hide) args =
      (params.zip args).flatMap fun b =>
        b.2 ++ [Action.set call ((w.callRenaming seq ids).symbol b.1)] := by
  induction params generalizing args with
  | nil =>
      obtain rfl := List.length_eq_zero_iff.mp hargs
      rfl
  | cons p params ih =>
      cases args with
      | nil => cases hargs
      | cons arg args =>
          obtain ⟨hp, hparams⟩ := List.forall_mem_cons.mp hparams
          have hsymbol : (w.callRenaming seq ids).symbol p =
              w.define.anchor seq ++ localMark ++ MacroDef.hide p := if_pos hp
          rw [List.map_cons, MacroDef.bindArgs, ih hparams (Nat.succ.inj hargs), List.zip_cons_cons,
            List.flatMap_cons, hsymbol, List.append_assoc]
          rfl

/-- A call is the synthetic label, the arguments and the renamed body. -/
theorem instantiate_eq {w : WrittenMacro} (hw : w.Sound) (call : Location)
    {args : List (List Action)} (hargs : args.length = w.params.length) (seq : Nat) (ids : Ids) :
    w.define.instantiate call args seq ids =
      .ok (⟨call, .label (anchorName w.name seq) true, some ⟨w.name, call, seq⟩⟩ ::
          (w.bindings (w.callRenaming seq ids) call args ++
            w.body.map ((w.callRenaming seq ids).action ⟨w.name, call, seq⟩)))
        (w.idsAfter ids) := by
  have hparams : w.define.params = w.params.map MacroDef.hide := rfl
  have hbody := bindBody_eq hw seq ids ⟨w.name, call, seq⟩ fun _ h => h
  have hbind := bindArgs_eq seq ids call (w := w) (fun _ h => List.mem_append_left _ h) hargs
  -- the arguments are as many as the parameters, so the call is accepted
  have hcount : (args.length != w.define.params.length) = false := by
    rw [hparams, List.length_map, hargs, bne_self_eq_false]
  unfold MacroDef.instantiate
  rw [hcount]
  simp only [Bool.false_eq_true, if_false]
  rw [show w.define.body = mapSymbolsAll w.hideOwn w.body from rfl,
    show w.define.name = w.name from rfl, hbody, hparams, hbind]
  simp only [targets_define, counters_define]
  rfl

/-! ## No confusion -/

section

variable {w : WrittenMacro} (hw : w.Sound) (seq : Nat) (ids : Ids)

theorem symbol_of_mem {name : String} (h : name ∈ w.defined) :
    (w.callRenaming seq ids).symbol name =
      anchorName w.name seq ++ localMark ++ MacroDef.hide name :=
  if_pos h

theorem symbol_of_not_mem {name : String} (h : name ∉ w.defined) :
    (w.callRenaming seq ids).symbol name = name :=
  if_neg h

/-- A name of a call has a dollar sign, so it is no written name. -/
theorem not_plain_private (name : String) (p : String) :
    ¬ Plain (anchorName name seq ++ localMark ++ p) := by
  intro h
  refine h ?_
  rw [toList_private]
  exact List.mem_append_right _ List.mem_cons_self

/-- No two written names become one. -/
theorem symbol_injective (hw : w.Sound) :
    Set.InjOn (w.callRenaming seq ids).symbol {name | IsWritten name} := by
  intro n hn m hm h
  by_cases hnd : n ∈ w.defined <;> by_cases hmd : m ∈ w.defined
  · rw [symbol_of_mem seq ids hnd, symbol_of_mem seq ids hmd] at h
    have hname : Plain w.name := (hw.written _ List.mem_cons_self).plain
    exact MacroDef.hide_injective hn hm (private_injective hname hname h).2.2
  · rw [symbol_of_mem seq ids hnd, symbol_of_not_mem seq ids hmd] at h
    exact absurd hm.plain (h ▸ not_plain_private seq w.name _)
  · rw [symbol_of_not_mem seq ids hnd, symbol_of_mem seq ids hmd] at h
    exact absurd hn.plain (h ▸ not_plain_private seq w.name _)
  · rwa [symbol_of_not_mem seq ids hnd, symbol_of_not_mem seq ids hmd] at h

/-- No two numbers of the body become one. -/
theorem number_injective (κ : Numbered) :
    Set.InjOn ((w.callRenaming seq ids).number κ) {n | n ∈ given κ w.body} := by
  intro n hn m _ h
  have hidx : (given κ w.body).idxOf n = (given κ w.body).idxOf m := by
    have h : ((ids.next κ + (given κ w.body).idxOf n : Nat) : Int) =
      (ids.next κ + (given κ w.body).idxOf m : Nat) := h
    omega
  exact (List.idxOf_inj hn).mp hidx

/-- The new numbers are those that the call uses up. -/
theorem number_between (κ : Numbered) {n : Int} (hn : n ∈ given κ w.body) :
    (ids.next κ : Int) ≤ (w.callRenaming seq ids).number κ n ∧
      (w.callRenaming seq ids).number κ n < (w.idsAfter ids).next κ := by
  have hlt := List.idxOf_lt_length_of_mem hn
  have hafter : (w.idsAfter ids).next κ = ids.next κ + (given κ w.body).length := by
    cases κ <;> rfl
  rw [hafter]
  show ((ids.next κ : Nat) : Int) ≤ (ids.next κ + (given κ w.body).idxOf n : Nat) ∧
    ((ids.next κ + (given κ w.body).idxOf n : Nat) : Int) < _
  omega

/-- The symbols that belong to a call. -/
def freshNames (w : WrittenMacro) (seq : Nat) (ids : Ids) : List String :=
  anchorName w.name seq :: w.defined.map (w.callRenaming seq ids).symbol

end

/-- Two calls have no names and numbers in common. -/
structure Apart (w₁ w₂ : WrittenMacro) (seq₁ seq₂ : Nat) (ids₁ ids₂ : Ids) : Prop where
  symbols : (w₁.freshNames seq₁ ids₁).Disjoint (w₂.freshNames seq₂ ids₂)
  metaLabels : ((metaLabelNames w₁.body).map (w₁.callRenaming seq₁ ids₁).metaLabel).Disjoint
    ((metaLabelNames w₂.body).map (w₂.callRenaming seq₂ ids₂).metaLabel)
  numbers : ∀ κ, ((given κ w₁.body).map ((w₁.callRenaming seq₁ ids₁).number κ)).Disjoint
    ((given κ w₂.body).map ((w₂.callRenaming seq₂ ids₂).number κ))

/-- What stands between the first two dollar signs of a name of a call, with
one more at its end, is the sequence number. -/
theorem toList_of_mem_freshNames {w : WrittenMacro} {seq : Nat} {ids : Ids} {name : String}
    (h : name ∈ w.freshNames seq ids) : ∃ rest, name.toList ++ ['$'] =
      w.name.toList ++ '$' :: ((Text.decimal seq).toList ++ '$' :: rest) := by
  rcases List.mem_cons.mp h with rfl | h
  · exact ⟨[], by simp [toList_anchorName]⟩
  · obtain ⟨p, hp, rfl⟩ := List.mem_map.mp h
    rw [symbol_of_mem seq ids hp, toList_private]
    exact ⟨'$' :: (MacroDef.hide p).toList ++ ['$'], by simp⟩

/-- No name of a call looks as if it stood below a parent label. -/
theorem unscoped_of_mem_freshNames {w : WrittenMacro} (hw : w.Sound) {seq : Nat} {ids : Ids}
    {name : String} (h : name ∈ w.freshNames seq ids) : Unscoped name := by
  intro parent rest hparent heq
  obtain ⟨rest', hname⟩ := toList_of_mem_freshNames h
  rw [heq, List.append_assoc, List.cons_append, List.cons_append] at hname
  obtain ⟨-, htail⟩ := split_first hparent (hw.written _ List.mem_cons_self).plain hname
  have hdollar := Text.dollar_not_mem_decimal seq
  cases hdigits : (Text.decimal seq).toList with
  | nil => exact Text.decimal_ne_nil seq hdigits
  | cons c digits =>
      rw [hdigits] at htail hdollar
      obtain ⟨rfl, -⟩ := List.cons.inj htail
      exact hdollar List.mem_cons_self

/-- Nor is it one that source text can have. -/
theorem not_plain_of_mem_freshNames {w : WrittenMacro} {seq : Nat} {ids : Ids} {name : String}
    (h : name ∈ w.freshNames seq ids) : ¬ Plain name := by
  rcases List.mem_cons.mp h with rfl | h
  · intro hplain
    refine hplain ?_
    rw [toList_anchorName]
    exact List.mem_append_right _ List.mem_cons_self
  · obtain ⟨p, hp, rfl⟩ := List.mem_map.mp h
    rw [symbol_of_mem seq ids hp]
    exact not_plain_private seq w.name _

theorem disjoint_freshNames {w₁ w₂ : WrittenMacro} (h₁ : w₁.Sound) (h₂ : w₂.Sound)
    {seq₁ seq₂ : Nat} (hne : seq₁ ≠ seq₂) (ids₁ ids₂ : Ids) :
    (w₁.freshNames seq₁ ids₁).Disjoint (w₂.freshNames seq₂ ids₂) := by
  intro name hn₁ hn₂
  obtain ⟨rest₁, heq₁⟩ := toList_of_mem_freshNames hn₁
  obtain ⟨rest₂, heq₂⟩ := toList_of_mem_freshNames hn₂
  obtain ⟨-, hlist⟩ := split_first (h₁.written _ List.mem_cons_self).plain
    (h₂.written _ List.mem_cons_self).plain (heq₁.symm.trans heq₂)
  obtain ⟨hseq, -⟩ := split_first (Text.dollar_not_mem_decimal seq₁)
    (Text.dollar_not_mem_decimal seq₂) hlist
  exact hne (Text.decimal_injective (String.toList_inj.mp hseq))

theorem disjoint_metaLabels {w₁ w₂ : WrittenMacro} (h₁ : w₁.Sound) (h₂ : w₂.Sound)
    {seq₁ seq₂ : Nat} (hne : seq₁ ≠ seq₂) (ids₁ ids₂ : Ids) :
    ((metaLabelNames w₁.body).map (w₁.callRenaming seq₁ ids₁).metaLabel).Disjoint
      ((metaLabelNames w₂.body).map (w₂.callRenaming seq₂ ids₂).metaLabel) := by
  intro name hn₁ hn₂
  obtain ⟨l₁, hl₁, heq₁⟩ := List.mem_map.mp hn₁
  obtain ⟨l₂, hl₂, heq₂⟩ := List.mem_map.mp hn₂
  have hplain : ∀ {w : WrittenMacro}, w.Sound → ∀ {l : String}, l ∈ metaLabelNames w.body →
      Plain l :=
    fun hw l hl => (hw.written l (List.mem_append_right _ hl)).plain
  have hsame : anchorName l₁ seq₁ = anchorName l₂ seq₂ := by
    calc anchorName l₁ seq₁ = (w₁.callRenaming seq₁ ids₁).metaLabel l₁ := (if_pos hl₁).symm
      _ = (w₂.callRenaming seq₂ ids₂).metaLabel l₂ := heq₁.trans heq₂.symm
      _ = anchorName l₂ seq₂ := if_pos hl₂
  exact hne (anchor_injective (hplain h₁ hl₁) (hplain h₂ hl₂) hsame).2

theorem disjoint_numbers {w₁ w₂ : WrittenMacro} (seq₁ seq₂ : Nat) {ids₁ ids₂ : Ids}
    (hle : w₁.idsAfter ids₁ ≤ ids₂) (κ : Numbered) :
    ((given κ w₁.body).map ((w₁.callRenaming seq₁ ids₁).number κ)).Disjoint
      ((given κ w₂.body).map ((w₂.callRenaming seq₂ ids₂).number κ)) := by
  intro n hn₁ hn₂
  obtain ⟨m₁, hm₁, heq₁⟩ := List.mem_map.mp hn₁
  obtain ⟨m₂, hm₂, heq₂⟩ := List.mem_map.mp hn₂
  have hbefore := number_between seq₁ ids₁ κ hm₁
  have hafter := number_between seq₂ ids₂ κ hm₂
  have hnext := Ids.next_mono hle κ
  omega

/-- A macro call is the body under a renaming.  A call of a macro that the
builder has put together, with as many arguments as there are parameters,
succeeds: it is the synthetic label, then the actions of each argument with the
assignment to its parameter, then the body with the names and numbers of
`callRenaming`.  No two names and no two numbers become one; the numbers are
those that the call uses up; and no two calls have any in common. -/
theorem instantiate_renames (w : WrittenMacro) (hw : w.Collected) (call : Location)
    (args : List (List Action)) (hargs : args.length = w.params.length) (seq : Nat) (ids : Ids) :
    w.define.instantiate call args seq ids =
        .ok (⟨call, .label (anchorName w.name seq) true, some ⟨w.name, call, seq⟩⟩ ::
            (w.bindings (w.callRenaming seq ids) call args ++
              w.body.map ((w.callRenaming seq ids).action ⟨w.name, call, seq⟩)))
          (w.idsAfter ids) ∧
      Set.InjOn (w.callRenaming seq ids).symbol {name | IsWritten name} ∧
      (∀ κ, Set.InjOn ((w.callRenaming seq ids).number κ)
          {n | n ∈ given κ w.body ++ taken κ w.body} ∧
        ∀ n ∈ given κ w.body ++ taken κ w.body,
          (ids.next κ : Int) ≤ (w.callRenaming seq ids).number κ n ∧
            (w.callRenaming seq ids).number κ n < (w.idsAfter ids).next κ) ∧
      ∀ (w₂ : WrittenMacro) (seq₂ : Nat) (ids₂ : Ids), w₂.Collected → seq ≠ seq₂ →
        w.idsAfter ids ≤ ids₂ → w.Apart w₂ seq seq₂ ids ids₂ := by
  -- a linked body takes no number that it does not give
  have hgiven : ∀ κ, ∀ n ∈ given κ w.body ++ taken κ w.body, n ∈ given κ w.body := by
    intro κ n hn
    rcases List.mem_append.mp hn with hn | hn
    · exact hn
    · exact hw.sound.linked.taken κ n hn
  refine ⟨instantiate_eq hw.sound _ hargs seq ids, symbol_injective seq ids hw.sound,
    fun κ => ⟨?_, ?_⟩, ?_⟩
  · exact (number_injective seq ids κ).mono (hgiven κ)
  · exact fun n hn => number_between seq ids κ (hgiven κ n hn)
  · intro w₂ seq₂ ids₂ hw₂ hne hle
    exact ⟨disjoint_freshNames hw.sound hw₂.sound hne ids ids₂,
      disjoint_metaLabels hw.sound hw₂.sound hne ids ids₂, disjoint_numbers seq seq₂ hle⟩

/-- A macro with a parameter, a local name, a loop, a message and a way back. -/
def countLines : List Line :=
  [⟨{}, .openMacro "COUNT" ["N"]⟩, ⟨{}, .assign "_I" [.get {} "N"]⟩, ⟨{}, .metaLabel "AGAIN"⟩,
    ⟨{}, .openWhile [.get {} "_I"]⟩, ⟨{}, .message .info false [.text "I", .expr [.get {} "_I"]]⟩,
    ⟨{}, .data false [.get {} "BASE"]⟩, ⟨{}, .closeWhile⟩, ⟨{}, .goto "AGAIN"⟩, ⟨{}, .goto "DONE"⟩,
    ⟨{}, .closeMacro⟩]

/-- The macro of `countLines`. -/
def countMacro : WrittenMacro where
  location := {}
  name := "COUNT"
  params := ["N"]
  body :=
    [.get {} "N", .set {} "_I", .plain {} (.metaLabel "AGAIN"), .plain {} (.target 0),
      .get {} "_I", .plain {} (.jumpIfFalse 1),
      .plain {} (.message .info false [[.plain {} (.string "I")], [.get {} "_I"]]),
      .get {} "BASE", .plain {} (.data false), .plain {} (.jump 0), .plain {} (.target 1),
      .plain {} (.goto "AGAIN"), .plain {} (.goto "DONE")]

theorem countMacro_collected : countMacro.Collected where
  built := by
    refine ⟨countLines, {}, ⟨{ jump := 2 }, #[.plain {} (.defineMacro "COUNT" ["N"] countMacro.body)],
      []⟩, none, ?_, rfl, List.mem_cons_self⟩
    have hcomputes : (countLines.all fun l => l.statement.exprs.all fun e =>
        e.all fun a => a.op.computes) = true := by decide
    simpa only [Statement.Computes, Computes, List.all_eq_true] using hcomputes
  written := by decide

theorem instantiate_renames_count :
    countMacro.Collected ∧ [[Action.load {} 3]].length = countMacro.params.length ∧
      countMacro.define.instantiate {} [[Action.load {} 3]] 1 { jump := 2 } =
        .ok (⟨{}, .label "COUNT$1" true, some ⟨"COUNT", {}, 1⟩⟩ :: .load {} 3 ::
          .set {} "COUNT$1$$__N" ::
          [.get "COUNT$1$$__N", .set "COUNT$1$$_I", .metaLabel "AGAIN$1", .target 2,
            .get "COUNT$1$$_I", .jumpIfFalse 3,
            .message .info false [[.plain {} (.string "I")], [.get {} "COUNT$1$$_I"]],
            .get "BASE", .data false, .jump 2, .target 3, .goto "AGAIN$1",
            .goto "DONE"].map fun op => ⟨{}, op, some ⟨"COUNT", {}, 1⟩⟩) { jump := 4 } :=
  ⟨countMacro_collected, rfl, (instantiate_renames countMacro countMacro_collected {}
    [[Action.load {} 3]] rfl 1 { jump := 2 }).1⟩

end WrittenMacro

end Mos6510
