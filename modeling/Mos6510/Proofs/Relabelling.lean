import Mos6510.Proofs.Clauses

/-!
# Other names and numbers

A program can be told over under other names and numbers: its jumps, counters
and macro calls counted from elsewhere, and the names that calls make spelled
accordingly.

* `InStep`: two operations that end alike, with results and states related, or
  with errors related;
* `KeepsUp`: the second operation succeeds where the first one does;
* `Relabelling`: what such a change has to respect, so that no two names become
  one and no name changes its scope;
* `Relabelling.actions_expr`: what the source itself spells out stays as it is.
-/

namespace Mos6510

open Outcome

/-! ## Operations in step -/

section

variable {σ τ α β γ δ : Type}

/-- Two outcomes side by side: two results that `Q` relates, with the states they
leave, or two errors that `E` relates. -/
inductive Outcome.Accord (E : Error → Error → Prop) (Q : α → σ → β → τ → Prop) :
    EStateM.Result Error σ α → EStateM.Result Error τ β → Prop
  | ok {a : α} {s : σ} {b : β} {t : τ} : Q a s b t → Accord E Q (.ok a s) (.ok b t)
  | error {err err' : Error} {s : σ} {t : τ} : E err err' → Accord E Q (.error err s) (.error err' t)

/-- More is known of what is related, once it is known whose outcomes they are. -/
theorem Outcome.Accord.imp {E E' : Error → Error → Prop} {Q Q' : α → σ → β → τ → Prop}
    {r : EStateM.Result Error σ α} {r' : EStateM.Result Error τ β} (h : Accord E Q r r')
    (hE : ∀ err s err', r = .error err s → E err err' → E' err err')
    (hQ : ∀ a s b t, r = .ok a s → r' = .ok b t → Q a s b t → Q' a s b t) : Accord E' Q' r r' := by
  cases h with
  | ok h => exact .ok (hQ _ _ _ _ rfl rfl h)
  | error h => exact .error (hE _ _ _ rfl h)

theorem Outcome.Accord.ensure {E : Error → Error → Prop} {Q Q' : α → σ → β → τ → Prop}
    {r : EStateM.Result Error σ α} {r' : EStateM.Result Error τ β} (h : Accord E Q r r')
    (hQ : ∀ a s b t, r = .ok a s → r' = .ok b t → Q a s b t → Q' a s b t) : Accord E Q' r r' :=
  h.imp (fun _ _ _ _ h => h) hQ

/-- Two outcomes that agree with one agree with each other. -/
theorem Outcome.Accord.span {E E' F : Error → Error → Prop} {Q : α → σ → β → τ → Prop}
    {Q' : α → σ → γ → τ → Prop} {S : β → τ → γ → τ → Prop} {r : EStateM.Result Error σ α}
    {r₁ : EStateM.Result Error τ β} {r₂ : EStateM.Result Error τ γ} (h₁ : Accord E Q r r₁)
    (h₂ : Accord E' Q' r r₂) (hE : ∀ err err₁ err₂, E err err₁ → E' err err₂ → F err₁ err₂)
    (hQ : ∀ a s b t c u, r = .ok a s → Q a s b t → Q' a s c u → S b t c u) : Accord F S r₁ r₂ := by
  cases h₁ with
  | ok h₁ =>
      cases h₂ with
      | ok h₂ => exact .ok (hQ _ _ _ _ _ _ rfl h₁ h₂)
  | error h₁ =>
      cases h₂ with
      | error h₂ => exact .error (hE _ _ _ h₁ h₂)

/-- What comes after results that are related, and such as the first operation can
have. -/
theorem Outcome.Accord.bind {E : Error → Error → Prop} {m : EStateM Error σ α}
    {m' : EStateM Error τ β} {Q : α → σ → β → τ → Prop} {k : α → EStateM Error σ γ}
    {k' : β → EStateM Error τ δ} {S : γ → σ → δ → τ → Prop} {s : σ} {t : τ}
    (h : Accord E Q (m s) (m' t))
    (hk : ∀ a s' b t', m s = .ok a s' → Q a s' b t' → Accord E S (k a s') (k' b t')) :
    Accord E S ((m >>= k) s) ((m' >>= k') t) := by
  show Accord E S (EStateM.bind m k s) (EStateM.bind m' k' t)
  unfold EStateM.bind
  cases hm : m s <;> cases hm' : m' t <;> rw [hm, hm'] at h <;> cases h
  · rename_i h
    exact hk _ _ _ _ hm h
  · rename_i h
    exact .error h

/-- Two operations whose outcomes agree wherever `P` relates the states before. -/
def InStep (E : Error → Error → Prop) (P : σ → τ → Prop) (m : EStateM Error σ α)
    (m' : EStateM Error τ β) (Q : α → σ → β → τ → Prop) : Prop :=
  ∀ ⦃s t⦄, P s t → Accord E Q (m s) (m' t)

/-- Results that `A` relates, with states that `R` relates. -/
def Both (A : α → β → Prop) (R : σ → τ → Prop) (a : α) (s : σ) (b : β) (t : τ) : Prop :=
  A a b ∧ R s t

/-- The same result, with states that `R` relates. -/
abbrev Same (R : σ → τ → Prop) : α → σ → α → τ → Prop := Both (fun a b => b = a) R

namespace InStep

variable {E : Error → Error → Prop} {P : σ → τ → Prop} {R : σ → τ → Prop}
  {m : EStateM Error σ α} {m' : EStateM Error τ β} {A : α → β → Prop} {Q : α → σ → β → τ → Prop}

theorem pure {a : α} {b : β} (h : ∀ s t, P s t → Q a s b t) : InStep E P (pure a) (pure b) Q :=
  fun s t hst => .ok (h s t hst)

theorem throw {err err' : Error} (h : E err err') : InStep E P (throw err) (throw err') Q :=
  fun _ _ _ => .error h

/-- What is known of every result of the first operation may be used. -/
theorem ensuring {F : α → Prop} (h : InStep E P m m' (Both A R))
    (hF : ∀ s a s', m s = .ok a s' → F a) :
    InStep E P m m' (Both (fun a b => A a b ∧ F a) R) := by
  intro s t hst
  have hagree := h hst
  cases hm : m s <;> cases hm' : m' t <;> rw [hm, hm'] at hagree <;> cases hagree
  · rename_i h
    exact .ok ⟨⟨h.1, hF _ _ _ hm⟩, h.2⟩
  · rename_i h
    exact .error h

theorem bind {k : α → EStateM Error σ γ} {k' : β → EStateM Error τ δ} {S : γ → σ → δ → τ → Prop}
    (h : InStep E P m m' Q) (hk : ∀ a b, InStep E (fun s t => Q a s b t) (k a) (k' b) S) :
    InStep E P (m >>= k) (m' >>= k') S :=
  fun _ _ hst => (h hst).bind fun a _ b _ _ hab => hk a b hab

/-- What comes after related results. -/
theorem andThen {k : α → EStateM Error σ γ} {k' : β → EStateM Error τ δ}
    {S : γ → σ → δ → τ → Prop} (h : InStep E P m m' (Both A R))
    (hk : ∀ a b, A a b → InStep E R (k a) (k' b) S) : InStep E P (m >>= k) (m' >>= k') S :=
  h.bind fun a b _ _ hst => hk a b hst.1 hst.2

/-- Errors that get the same location still agree. -/
theorem located {loc : Location} (h : InStep E P m m' Q)
    (hE : ∀ err err', E err err' → E (err.atLocation loc) (err'.atLocation loc)) :
    InStep E P (tryCatch m fun err => MonadExcept.throw (err.atLocation loc))
      (tryCatch m' fun err => MonadExcept.throw (err.atLocation loc)) Q := by
  intro s t hst
  show Accord E Q (EStateM.tryCatch m _ s) (EStateM.tryCatch m' _ t)
  unfold EStateM.tryCatch
  have hagree := h hst
  cases hm : m s <;> cases hm' : m' t <;> rw [hm, hm'] at hagree <;> cases hagree
  · rename_i h
    exact .ok h
  · rename_i h
    exact .error (hE _ _ h)

end InStep

end

/-! ## Operations that keep up -/

section

variable {σ τ α β γ δ : Type}

/-- Where the first operation succeeds, so does the second in a state that `P` relates to
the first one, and `Q` relates what comes out. -/
def KeepsUp (P : σ → τ → Prop) (m : EStateM Error σ α) (m' : EStateM Error τ β)
    (Q : α → σ → β → τ → Prop) : Prop :=
  ∀ ⦃s t⦄, P s t → ∀ ⦃a s'⦄, m s = .ok a s' → ∃ b t', m' t = .ok b t' ∧ Q a s' b t'

namespace KeepsUp

variable {P : σ → τ → Prop} {R : σ → τ → Prop} {m : EStateM Error σ α} {m' : EStateM Error τ β}
  {A : α → β → Prop} {Q : α → σ → β → τ → Prop}

theorem pure {a : α} {b : β} (h : ∀ s t, P s t → Q a s b t) : KeepsUp P (pure a) (pure b) Q := by
  intro s t hst a' s' hrun
  obtain ⟨rfl, rfl⟩ := pure_eq_ok.mp hrun
  exact ⟨b, t, rfl, h _ _ hst⟩

theorem throw {err : Error} : KeepsUp P (throw err) m' Q :=
  fun _ _ _ _ _ h => absurd h throw_ne_ok

/-- Operations in step keep up with each other. -/
theorem of_inStep {E : Error → Error → Prop} (h : InStep E P m m' Q) : KeepsUp P m m' Q := by
  intro s t hst a s' hrun
  have hagree := h hst
  rw [hrun] at hagree
  generalize m' t = r at hagree ⊢
  cases hagree with
  | ok hQ => exact ⟨_, _, rfl, hQ⟩

theorem bind {k : α → EStateM Error σ γ} {k' : β → EStateM Error τ δ} {S : γ → σ → δ → τ → Prop}
    (h : KeepsUp P m m' Q) (hk : ∀ a b, KeepsUp (fun s t => Q a s b t) (k a) (k' b) S) :
    KeepsUp P (m >>= k) (m' >>= k') S := by
  intro s t hst c s' hrun
  obtain ⟨a, s₁, hm, hrun⟩ := bind_eq_ok.mp hrun
  obtain ⟨b, t₁, hm', hQ⟩ := h hst hm
  obtain ⟨d, t', hrun', hS⟩ := hk a b hQ hrun
  exact ⟨d, t', bind_eq_ok.mpr ⟨b, t₁, hm', hrun'⟩, hS⟩

/-- What comes after related results. -/
theorem andThen {k : α → EStateM Error σ γ} {k' : β → EStateM Error τ δ}
    {S : γ → σ → δ → τ → Prop} (h : KeepsUp P m m' (Both A R))
    (hk : ∀ a b, A a b → KeepsUp R (k a) (k' b) S) : KeepsUp P (m >>= k) (m' >>= k') S :=
  h.bind fun a b _ _ hab => hk a b hab.1 hab.2

end KeepsUp

end

/-! ## Relabellings -/

/-- How much each number is raised. -/
instance : Add Ids :=
  ⟨fun i j => { jump := i.jump + j.jump, counter := i.counter + j.counter, seq := i.seq + j.seq }⟩

/-- Other names and numbers for a program.  No two names become one, names keep
their scope, and those of the source itself stay as they are; only macros may have
other names there.  The names that a macro call makes are those of the call under
its other name and number. -/
structure Relabelling where
  name : String → String
  /-- The names of macros. -/
  call : String → String
  /-- The names of `.LABEL`s, which are not symbols. -/
  mark : String → String
  /-- How much the numbers of jumps, counters and macro calls are raised. -/
  shift : Ids
  name_injective : name.Injective
  call_injective : call.Injective
  mark_injective : mark.Injective
  name_plain : ∀ {n}, Plain n → name n = n
  mark_plain : ∀ {n}, Plain n → mark n = n
  call_written : ∀ {n}, IsWritten n → IsWritten (call n)
  isLocalName_name : ∀ n, isLocalName (name n) = isLocalName n
  isQualifiedName_name : ∀ n, isQualifiedName (name n) = isQualifiedName n
  /-- A local name changes like the label that it stands below. -/
  name_local : ∀ {n}, isLocalName n = true → ∀ p,
    name (p ++ localMark ++ n) = name p ++ localMark ++ name n
  name_anchor : ∀ {n}, Plain n → ∀ k, name (anchorName n k) = anchorName (call n) (k + shift.seq)
  mark_anchor : ∀ {n}, Plain n → ∀ k, mark (anchorName n k) = anchorName n (k + shift.seq)

namespace Relabelling

/-- The new number of a jump or a counter.  Negative ones are nobody's. -/
def number (θ : Relabelling) (κ : Numbered) (n : Int) : Int := if n < 0 then n else n + θ.shift.next κ

variable (θ : Relabelling)

theorem number_natCast (κ : Numbered) (n : Nat) : θ.number κ n = (n + θ.shift.next κ : Nat) := by
  unfold number
  rw [if_neg (by omega)]
  omega

theorem number_neg {κ : Numbered} {n : Int} : θ.number κ n < 0 ↔ n < 0 := by
  unfold number
  split <;> omega

theorem number_injective (κ : Numbered) : (θ.number κ).Injective := by
  intro n m h
  unfold number at h
  split at h <;> split at h <;> omega

theorem toNat_number {κ : Numbered} {n : Int} (hn : 0 ≤ n) :
    (θ.number κ n).toNat = n.toNat + θ.shift.next κ := by
  unfold number
  rw [if_neg (by omega)]
  omega

theorem number_eq_noJump {n : Int} : θ.number .jump n = noJump ↔ n = noJump := by
  unfold number noJump
  split <;> omega

/-- The call under its other name and number. -/
def expansion (θ : Relabelling) (x : Expansion) : Expansion :=
  { x with name := θ.call x.name, seq := x.seq + θ.shift.seq }

mutual

/-- The action under other names and numbers, those in its arguments included. -/
def action (θ : Relabelling) : Action → Action
  | ⟨loc, op, x⟩ => ⟨loc, θ.op op, x.map θ.expansion⟩

/-- What the action does, under other names and numbers. -/
def op (θ : Relabelling) : Op → Op
  | .get name => .get (θ.name name)
  | .set name => .set (θ.name name)
  | .label name synthetic => .label (θ.name name) synthetic
  | .target j => .target (θ.number .jump j)
  | .jump j => .jump (θ.number .jump j)
  | .jumpIfFalse j => .jumpIfFalse (θ.number .jump j)
  | .counterSet c => .counterSet (θ.number .counter c)
  | .counterTest c j => .counterTest (θ.number .counter c) (θ.number .jump j)
  | .counterStep c j => .counterStep (θ.number .counter c) (θ.number .jump j)
  | .message level formatted args => .message level formatted (θ.arguments args)
  | .defineMacro name params body => .defineMacro (θ.call name) params (θ.actions body)
  | .callMacro name args => .callMacro (θ.call name) (θ.arguments args)
  | .metaLabel name => .metaLabel (θ.mark name)
  | .goto name => .goto (θ.mark name)
  | .includeBinary name args => .includeBinary name (θ.arguments args)
  | op => op

/-- Arguments under other names and numbers. -/
def arguments (θ : Relabelling) : List (List Action) → List (List Action)
  | [] => []
  | a :: rest => θ.actions a :: θ.arguments rest

/-- Actions under other names and numbers. -/
def actions (θ : Relabelling) : List Action → List Action
  | [] => []
  | a :: rest => θ.action a :: θ.actions rest

end

/-- The error under other names and numbers. -/
def error (θ : Relabelling) : Error → Error
  | .undefinedSymbol name => .undefinedSymbol (θ.name name)
  | .uninitialized name => .uninitialized (θ.name name)
  | .duplicateLabel name => .duplicateLabel (θ.name name)
  | .conflict name => .conflict (θ.name name)
  | .localWithoutParent name => .localWithoutParent (θ.name name)
  | .unknownMetaLabel name => .unknownMetaLabel (θ.mark name)
  | .duplicateMetaLabel name => .duplicateMetaLabel (θ.mark name)
  | .unknownMacro name => .unknownMacro (θ.call name)
  | .duplicateMacro name => .duplicateMacro (θ.call name)
  | .macroArgs name expected got => .macroArgs (θ.call name) expected got
  | .unknownJump j => .unknownJump (θ.number .jump j)
  | .unknownCounter c => .unknownCounter (θ.number .counter c)
  | .located loc err => .located loc (θ.error err)
  | .expanding name loc err => .expanding (θ.call name) loc (θ.error err)
  | .inSource loc err => .inSource loc (θ.error err)
  | .inScript text err => .inScript text (θ.error err)
  | .running address loc err => .running address loc (θ.error err)
  | .inFile name err => .inFile name (θ.error err)
  | .onPath operation path err => .onPath operation path (θ.error err)
  | .inDefine text err => .inDefine text (θ.error err)
  | .inNumeral digits err => .inNumeral digits (θ.error err)
  | err => err

/-! ### Actions -/

theorem actions_eq_map (acts : List Action) : θ.actions acts = acts.map θ.action := by
  induction acts with
  | nil => simp [actions]
  | cons a rest ih => simp [actions, ih]

theorem arguments_eq_map (args : List (List Action)) : θ.arguments args = args.map θ.actions := by
  induction args with
  | nil => simp [arguments]
  | cons a rest ih => simp [arguments, ih]

@[simp] theorem actions_nil : θ.actions [] = [] := by simp [actions]

@[simp] theorem actions_cons (a : Action) (rest : List Action) :
    θ.actions (a :: rest) = θ.action a :: θ.actions rest := by simp [actions]

@[simp] theorem actions_append (as bs : List Action) :
    θ.actions (as ++ bs) = θ.actions as ++ θ.actions bs := by
  simp [actions_eq_map]

theorem actions_flatten (args : List (List Action)) :
    θ.actions args.flatten = (θ.arguments args).flatten := by
  induction args with
  | nil => simp [arguments]
  | cons a rest ih => simp [arguments, ih]

@[simp] theorem location_action (a : Action) : (θ.action a).location = a.location := by
  obtain ⟨loc, op, x⟩ := a
  rw [action]

@[simp] theorem op_action (a : Action) : (θ.action a).op = θ.op a.op := by
  obtain ⟨loc, op, x⟩ := a
  rw [action]

@[simp] theorem expansion_action (a : Action) :
    (θ.action a).expansion = a.expansion.map θ.expansion := by
  obtain ⟨loc, op, x⟩ := a
  rw [action]

theorem action_plain (loc : Location) (op : Op) :
    θ.action (Action.plain loc op) = Action.plain loc (θ.op op) := by
  rw [Action.plain, action]
  rfl

theorem action_set (loc : Location) (name : String) :
    θ.action (Action.set loc name) = Action.set loc (θ.name name) := by
  rw [Action.set, action_plain]
  rfl

@[simp] theorem kind_op (op : Op) : (θ.op op).kind = op.kind := by
  cases op <;> rfl

theorem given_op (κ : Numbered) (op : Op) : (θ.op op).given? κ = (op.given? κ).map (θ.number κ) := by
  cases κ <;> cases op <;> rfl

theorem taken_op (κ : Numbered) (op : Op) : (θ.op op).taken? κ = (op.taken? κ).map (θ.number κ) := by
  cases κ <;> cases op <;> rfl

theorem given_actions (κ : Numbered) (acts : List Action) :
    given κ (θ.actions acts) = (given κ acts).map (θ.number κ) := by
  rw [actions_eq_map, given, given, List.filterMap_map, List.map_filterMap]
  congr 1
  funext a
  simp [given_op]

theorem taken_actions (κ : Numbered) (acts : List Action) :
    taken κ (θ.actions acts) = (taken κ acts).map (θ.number κ) := by
  rw [actions_eq_map, taken, taken, List.filterMap_map, List.map_filterMap]
  congr 1
  funext a
  simp [taken_op]

/-- An expression over written names stays as it is. -/
theorem actions_expr {e : List Action} (h : IsExprOver IsWritten e) : θ.actions e = e := by
  obtain ⟨x, rfl, hx⟩ := h
  induction x with
  | number loc value => simp [Expr.actions, Action.load, action_plain, Relabelling.op]
  | symbol loc name =>
      have hname := θ.name_plain (hx name (by simp [Expr.names])).plain
      simp [Expr.actions, Action.get, action_plain, Relabelling.op, hname]
  | unary loc op x ih =>
      have hxs := ih fun n hn => hx n (by simpa [Expr.names] using hn)
      simp [Expr.actions, action_plain, Relabelling.op, hxs]
  | binary loc op x y ihx ihy =>
      have hxs := ihx fun n hn => hx n (by simp [Expr.names, hn])
      have hys := ihy fun n hn => hx n (by simp [Expr.names, hn])
      simp [Expr.actions, action_plain, Relabelling.op, hxs, hys]

/-- So do arguments, be they texts or expressions. -/
theorem arguments_written {args : List (List Action)} (h : ∀ arg ∈ args, IsWrittenArg arg) :
    θ.arguments args = args := by
  rw [arguments_eq_map]
  refine (List.map_congr_left fun arg harg => ?_).trans (List.map_id' args)
  rcases h arg harg with ⟨loc, s, rfl⟩ | hexpr
  · simp [action_plain, Relabelling.op]
  · exact θ.actions_expr hexpr

/-! ### Errors -/

/-- The errors inside an error change one by one. -/
theorem chain_error (err : Error) : (θ.error err).chain = err.chain.map θ.error := by
  induction err with
  | located _ _ ih | expanding _ _ _ ih | inSource _ _ ih | inScript _ _ ih | running _ _ _ ih
  | inFile _ _ ih | onPath _ _ _ ih | inDefine _ _ ih | inNumeral _ _ ih => exact congrArg _ ih
  | _ => rfl

theorem isLocated_error (err : Error) : (θ.error err).isLocated = err.isLocated := by
  cases err <;> rfl

theorem isExpanding_error (err : Error) : (θ.error err).isExpanding = err.isExpanding := by
  cases err <;> rfl

theorem any_isLocated_error (err : Error) :
    (θ.error err).chain.any Error.isLocated = err.chain.any Error.isLocated := by
  rw [chain_error, List.any_map]
  exact congrArg _ (funext θ.isLocated_error)

theorem any_isExpanding_error (err : Error) :
    (θ.error err).chain.any Error.isExpanding = err.chain.any Error.isExpanding := by
  rw [chain_error, List.any_map]
  exact congrArg _ (funext θ.isExpanding_error)

theorem error_atLocation (loc : Location) (err : Error) :
    θ.error (err.atLocation loc) = (θ.error err).atLocation loc := by
  unfold Error.atLocation
  rw [any_isLocated_error]
  split <;> rfl

theorem error_atAction (a : Action) (err : Error) :
    θ.error (err.atAction a) = (θ.error err).atAction (θ.action a) := by
  unfold Error.atAction
  rw [location_action, expansion_action, ← error_atLocation]
  cases a.expansion with
  | none => rfl
  | some x =>
      simp only [Option.map_some, any_isExpanding_error]
      split <;> rfl

end Relabelling

end Mos6510
