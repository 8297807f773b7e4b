import Mos6510.Proofs.Causes
import Mos6510.Proofs.Emissions
import Mos6510.Proofs.Roster

/-!
# Bytes that operations store

An operation stores bytes whether it succeeds or fails, and when it fails the bytes
before stay stored: a byte at the top of memory is there although the program counter
wraps, and so is the opcode of a branch that does not reach.  `Stores es e r` says that
`r`, the outcome of an operation on the engine `e`, has stored the bytes `es` and done
nothing else to the regions; such outcomes compose (`Stores.bind`).

What is stored can be said beforehand, from the action and the engine alone
(`Visit.output`): the bytes that the action has for its operands go to the program
counter and on from there, as many as there is memory for.

* `Action.run_stores`: the outcome of an action has stored what its visits put out.
-/

namespace Mos6510

open Outcome EngineM

variable {α β : Type}

/-! ## Receiving bytes -/

/-- A byte that goes to an address, and the location of the action that puts it there. -/
structure Deposit where
  emission : Emission
  location : Location
  deriving DecidableEq, Repr

def Cell.IsAddress (c : Cell) : Prop := 0 ≤ c.value.toInt ∧ c.value.toInt < 0x10000

/-- Regions with one more byte. -/
def Emission.extend (x : Emission) (rs : List Region) : List Region :=
  Engine.extendRegions x.kind x.address x.byte rs

namespace Engine

/-- From one engine to the other some bytes were stored, and nothing else was done to the
regions.  In the final pass the source map remembers where each byte came from. -/
structure Receives (ds : List Deposit) (e e' : Engine) : Prop where
  regions : e'.regions = ds.foldl (fun rs d => d.emission.extend rs) e.regions
  source : e'.source =
    if e.isFinal then (ds.map fun d => (d.emission.address, d.location)).reverse ++ e.source
    else e.source
  pass : e'.pass = e.pass
  pc : e.pc.IsAddress → e'.pc.IsAddress

/-- What bytes are stored in, and what steers where they go. -/
def shown (e : Engine) : List Region × List (UInt16 × Location) × Pass × Location × Int64 :=
  (e.regions, e.source, e.pass, e.location, e.pc.value)

namespace Receives

variable {ds ds' : List Deposit} {e e₁ e' : Engine}

theorem of_same (hregions : e'.regions = e.regions) (hsource : e'.source = e.source)
    (hpass : e'.pass = e.pass) (hpc : e.pc.IsAddress → e'.pc.IsAddress) : Receives [] e e' where
  regions := hregions
  source := by rw [hsource]; exact (ite_self _).symm
  pass := hpass
  pc := hpc

theorem of_shown (h : e'.shown = e.shown) : Receives [] e e' := by
  simp only [shown, Prod.mk.injEq] at h
  obtain ⟨hregions, hsource, hpass, -, hpc⟩ := h
  exact .of_same hregions hsource hpass fun hold => by
    unfold Cell.IsAddress
    rw [hpc]
    exact hold

theorem trans (h : Receives ds e e₁) (h' : Receives ds' e₁ e') : Receives (ds ++ ds') e e' where
  regions := by rw [h'.regions, h.regions, List.foldl_append]
  source := by
    have hfinal : e₁.isFinal = e.isFinal := by
      unfold isFinal
      rw [h.pass]
    rw [h'.source, h.source, hfinal]
    cases e.isFinal with
    | false => rfl
    | true => simp
  pass := h'.pass.trans h.pass
  pc := fun hold => h'.pc (h.pc hold)

end Receives

/-- A byte at an address is stored, and the program counter moves on. -/
theorem receives_emitted (e : Engine) (kind : RegionKind) (a : UInt16) (b : UInt8) :
    Receives [⟨⟨a, kind, b⟩, e.location⟩] e (e.emitted kind a b) where
  regions := rfl
  source := rfl
  pass := rfl
  pc := fun _ => by
    have hlt := (a + 1).toNat_lt
    have hvalue : (Int64.ofNat (a + 1).toNat).toInt = ((a + 1).toNat : Int) :=
      Int64.toInt_ofNat_of_lt (by simp only [Nat.reducePow] at hlt ⊢; omega)
    show 0 ≤ (Int64.ofNat (a + 1).toNat).toInt ∧ (Int64.ofNat (a + 1).toNat).toInt < 0x10000
    rw [hvalue]
    simp only [Nat.reducePow] at hlt
    omega

end Engine

/-! ## Outcomes -/

namespace Error

/-- No error in it says that a region is full. -/
def Fits (err : Error) : Prop := regionOverflow ∉ err.chain

theorem fits_of_isBare {err : Error} (h : err.isBare = true) (hne : err ≠ .regionOverflow) :
    err.Fits := by
  unfold Fits
  rw [chain_of_isBare h]
  simpa using hne.symm

theorem Fits.atLocation {err : Error} (h : err.Fits) (loc : Location) : (err.atLocation loc).Fits := by
  unfold Error.atLocation
  split
  · exact h
  · simpa [Fits, chain] using h

theorem Fits.atAction {err : Error} (h : err.Fits) (a : Action) : (err.atAction a).Fits := by
  have hlocated := h.atLocation a.location
  unfold Error.atAction
  cases a.expansion with
  | none => exact hlocated
  | some x =>
      dsimp only
      split
      · exact hlocated
      · simpa [Fits, chain] using hlocated

end Error

/-- The outcome of an operation on an engine: be it a success or not, some bytes were
stored for the action in progress.  If it is a failure, then not for want of room. -/
structure Stores (es : List Emission) (e : Engine) (r : EStateM.Result Error Engine α) : Prop where
  receives : e.Receives (es.map fun x => ⟨x, e.location⟩) (last r)
  location : (last r).location = e.location
  fits : ∀ err e', r = .error err e' → err.Fits

namespace Stores

variable {es fs : List Emission} {e e₁ : Engine} {r : EStateM.Result Error Engine α}

theorem ok {a : α} (h : e.Receives (es.map fun x => ⟨x, e.location⟩) e₁)
    (hloc : e₁.location = e.location) : Stores es e (.ok a e₁ : EStateM.Result Error Engine α) :=
  ⟨h, hloc, fun _ _ hr => by cases hr⟩

theorem error {err : Error} (h : e.Receives (es.map fun x => ⟨x, e.location⟩) e₁)
    (hloc : e₁.location = e.location) (hfits : err.Fits) :
    Stores es e (.error err e₁ : EStateM.Result Error Engine α) := by
  refine ⟨h, hloc, fun err' e' heq => ?_⟩
  cases heq
  exact hfits

theorem of_shown (h : (last r).shown = e.shown) (hfits : ∀ err e', r = .error err e' → err.Fits) :
    Stores [] e r where
  receives := .of_shown h
  location := by
    simp only [Engine.shown, Prod.mk.injEq] at h
    exact h.2.2.2.1
  fits := hfits

/-- A success that changes nothing of what is shown. -/
theorem done {a : α} (h : e₁.shown = e.shown) :
    Stores [] e (.ok a e₁ : EStateM.Result Error Engine α) :=
  .ok (.of_shown h) (congrArg (·.2.2.2.1) h)

/-- A failure before anything is done. -/
theorem failed {err : Error} (hfits : err.Fits) :
    Stores [] e (.error err e : EStateM.Result Error Engine α) :=
  .error (.of_shown rfl) rfl hfits

theorem failed_bare {err : Error} (hbare : err.isBare = true) (hne : err ≠ .regionOverflow) :
    Stores [] e (.error err e : EStateM.Result Error Engine α) :=
  .failed (Error.fits_of_isBare hbare hne)

theorem pure (a : α) (e : Engine) : Stores [] e ((Pure.pure a : EngineM α) e) := .done rfl

theorem throw (err : Error) (hfits : err.Fits) (e : Engine) :
    Stores [] e ((MonadExcept.throw err : EngineM α) e) := .failed hfits

/-- What was done to the engine before does not matter if it is not shown. -/
theorem from_shown (hr : Stores es e₁ r) (h : e₁.shown = e.shown) : Stores es e r := by
  have hbefore : e.Receives [] e₁ := .of_shown h
  simp only [Engine.shown, Prod.mk.injEq] at h
  obtain ⟨-, -, -, hloc, -⟩ := h
  have hreceives := hr.receives
  rw [hloc] at hreceives
  exact ⟨hbefore.trans hreceives, hr.location.trans hloc, hr.fits⟩

/-- A composed operation stores the bytes of its first part, and if that is a success those
of the second. -/
theorem bind {m : EngineM α} {f : α → EngineM β} (hm : Stores es e (m e))
    (hok : ∀ a e₁, m e = .ok a e₁ → Stores fs e₁ (f a e₁))
    (herror : ∀ err e₁, m e = .error err e₁ → fs = []) : Stores (es ++ fs) e ((m >>= f) e) := by
  show Stores (es ++ fs) e (EStateM.bind m f e)
  unfold EStateM.bind
  cases hr : m e with
  | ok a e₁ =>
      rw [hr] at hm
      have hrest := hok a e₁ hr
      have hloc : e₁.location = e.location := hm.location
      have hreceives := hrest.receives
      rw [hloc] at hreceives
      refine ⟨?_, hrest.location.trans hloc, hrest.fits⟩
      rw [List.map_append]
      exact hm.receives.trans hreceives
  | error err e₁ =>
      rw [hr] at hm
      rw [herror err e₁ hr, List.append_nil]
      exact .error hm.receives hm.location (hm.fits err e₁ rfl)

/-- What comes after a failure is not done. -/
theorem bind_of_error {m : EngineM α} {f : α → EngineM β} {err : Error} (hr : m e = .error err e₁)
    (hm : Stores es e (m e)) : Stores es e ((m >>= f) e) := by
  have hbind := hm.bind (f := f) (fun a e₂ hok => by rw [hr] at hok; cases hok) fun _ _ _ => rfl
  rw [List.append_nil] at hbind
  exact hbind

theorem locating (loc : Location) {m : EngineM α} (hm : Stores es e (m e)) :
    Stores es e (EngineM.locating loc m e) := by
  show Stores es e (EStateM.tryCatch m _ e)
  unfold EStateM.tryCatch
  cases hr : m e with
  | ok a e₁ =>
      rw [hr] at hm
      exact hm
  | error err e₁ =>
      rw [hr] at hm
      exact .error hm.receives hm.location ((hm.fits err e₁ rfl).atLocation loc)

end Stores

/-- The operation stores nothing. -/
def StoresNone (m : EngineM α) : Prop := ∀ e, Stores [] e (m e)

/-- Nothing is stored after what is stored. -/
theorem Stores.bind_storesNone {es : List Emission} {e : Engine} {m : EngineM α} {f : α → EngineM β}
    (hm : Stores es e (m e)) (hf : ∀ a, StoresNone (f a)) : Stores es e ((m >>= f) e) := by
  have hbind := hm.bind (fun a e₁ _ => hf a e₁) fun _ _ _ => rfl
  rw [List.append_nil] at hbind
  exact hbind

namespace StoresNone

variable {m : EngineM α} {f : α → EngineM β}

theorem of_shown (h : ∀ e, (last (m e)).shown = e.shown)
    (hbare : Raises (fun err => err.isBare = true ∧ err ≠ .regionOverflow) m) : StoresNone m :=
  fun e => .of_shown (h e) fun _ _ hr => Error.fits_of_isBare (hbare hr).1 (hbare hr).2

theorem pure (a : α) : StoresNone (Pure.pure a) := Stores.pure a

theorem throw {err : Error} (h : err.Fits) : StoresNone (MonadExcept.throw err : EngineM α) :=
  Stores.throw err h

theorem bind (hm : StoresNone m) (hf : ∀ a, StoresNone (f a)) : StoresNone (m >>= f) :=
  fun e => (hm e).bind_storesNone hf

theorem tryCatch {handler : Error → EngineM α} (hm : StoresNone m)
    (hh : ∀ err, err.Fits → StoresNone (handler err)) :
    StoresNone (MonadExcept.tryCatch m handler) := by
  intro e
  have h := hm e
  show Stores [] e (EStateM.tryCatch m handler e)
  unfold EStateM.tryCatch
  cases hr : m e with
  | ok a e₁ =>
      rw [hr] at h
      exact h
  | error err e₁ =>
      rw [hr] at h
      have hrest := hh err (h.fits err e₁ rfl) e₁
      have hloc : e₁.location = e.location := h.location
      refine ⟨?_, hrest.location.trans hloc, hrest.fits⟩
      exact h.receives.trans hrest.receives

end StoresNone

/-! ## Operations that store nothing -/

namespace Engine

theorem push_storesNone (v : Int64) : StoresNone (push v) := by
  refine .of_shown (fun e => ?_) fun e err e' h => ?_
  · unfold push
    split <;> rfl
  · rw [(push_eq_error h).1]
    exact ⟨rfl, nofun⟩

theorem pop_storesNone : StoresNone pop := by
  refine .of_shown (fun e => ?_) fun e err e' h => ?_
  · unfold pop
    split <;> rfl
  · rw [(pop_eq_error h).1]
    exact ⟨rfl, nofun⟩

theorem peek_storesNone : StoresNone peek := by
  refine .of_shown (fun e => ?_) fun e err e' h => ?_
  · unfold peek
    split <;> rfl
  · rw [(peek_eq_error h).1]
    exact ⟨rfl, nofun⟩

theorem popPair_storesNone : StoresNone popPair := by
  refine .of_shown (fun e => ?_) fun e err e' h => ?_
  · unfold popPair
    split <;> rfl
  · rw [(popPair_eq_error h).1]
    exact ⟨rfl, nofun⟩

theorem counter_storesNone (c : Int) : StoresNone (counter c) := by
  refine .of_shown (fun e => ?_) fun e err e' h => ?_
  · unfold counter
    split <;> rfl
  · rw [(counter_eq_error h).1]
    exact ⟨rfl, nofun⟩

/-- An operation that succeeds on every engine. -/
theorem storesNone_of_ok {m : EngineM α} {f : Engine → Engine} {a : α} (hm : ∀ e, m e = .ok a (f e))
    (hf : ∀ e, (f e).shown = e.shown) : StoresNone m := by
  intro e
  rw [hm]
  exact .done (hf e)

theorem startOperand_storesNone : StoresNone startOperand :=
  storesNone_of_ok (fun _ => rfl) fun _ => rfl

theorem requestJump_storesNone (j : Int) : StoresNone (requestJump j) :=
  storesNone_of_ok (fun _ => rfl) fun _ => rfl

theorem setCounter_storesNone (c : Int) (v : Int64) : StoresNone (setCounter c v) :=
  storesNone_of_ok (fun _ => rfl) fun _ => rfl

theorem loadCounter_storesNone (c : Int) : StoresNone (loadCounter c) :=
  (counter_storesNone c).bind fun _ =>
    .tryCatch (pop_storesNone.bind fun v => setCounter_storesNone c v) fun _ hfits =>
      (setCounter_storesNone c 0).bind fun _ => .throw hfits

/-- A jump that is asked for on a condition. -/
theorem requestJump_if_storesNone (j : Int) (p : Prop) [Decidable p] :
    StoresNone (if p then requestJump j else Pure.pure ()) := by
  split
  · exact requestJump_storesNone j
  · exact .pure _

theorem applyBinary_storesNone (op : BinaryOp) : StoresNone (applyBinary op) := by
  refine popPair_storesNone.bind fun p => ?_
  dsimp only
  split
  · exact push_storesNone _
  · exact .throw (Error.fits_of_isBare rfl nofun)

theorem fits_of_qualify {name parent : String} {err : Error} (h : qualify name parent = .error err) :
    err.Fits := by
  unfold qualify at h
  split at h
  · cases h
  · split at h
    · cases h
      exact Error.fits_of_isBare rfl nofun
    · cases h

theorem shown_markRead (e : Engine) (full : String) (c : Cell) :
    (e.markRead full c).shown = e.shown := by
  obtain ⟨vars, labels, pc, heq, -, -, hpc⟩ := markRead_eq e full c
  rw [heq]
  unfold shown
  rw [hpc.1]

theorem readSymbol_storesNone (name : String) : StoresNone (readSymbol name) := by
  intro e
  unfold readSymbol
  split
  · rename_i err hq
    exact .failed (fits_of_qualify hq)
  · split
    · exact .failed_bare rfl nofun
    · rename_i full _ _ c _
      have hread : (e.markRead full c).shown = e.shown := shown_markRead e full c
      split
      · exact .done hread
      · split
        · exact .failed_bare rfl nofun
        · exact .done hread

/-- An assignment stores nothing; the program counter is cut to an address. -/
theorem assign_storesNone (name : String) (v : Int64) : StoresNone (assign name v) := by
  intro e
  unfold assign
  split
  · rename_i err hq
    exact .failed (fits_of_qualify hq)
  · split
    · refine .ok (.of_same rfl rfl rfl fun _ => ?_) rfl
      have hvalue : (v &&& 0xFFFF).toInt = v.toInt % 0x10000 := toInt_and_low v
      show 0 ≤ (v &&& 0xFFFF).toInt ∧ (v &&& 0xFFFF).toInt < 0x10000
      omega
    · split
      · exact .done rfl
      · exact .failed_bare rfl nofun

theorem placeLabel_storesNone (name : String) (synthetic : Bool) :
    StoresNone (placeLabel name synthetic) := by
  intro e
  unfold placeLabel
  split
  · rename_i err hq
    exact .failed (fits_of_qualify hq)
  · split
    · split
      · exact .failed_bare rfl nofun
      · exact .done rfl
    · exact .failed_bare rfl nofun

theorem fits_of_messageText {formatted : Bool} {args : List Text.Template.Arg} {err : Error}
    (h : messageText formatted args = .error err) : err.Fits := by
  unfold messageText at h
  split at h
  · split at h
    · cases h
    · cases h
      exact Error.fits_of_isBare rfl nofun
  · cases h

theorem report_storesNone (loc : Location) (level : Level) (formatted : Bool)
    (args : List Text.Template.Arg) : StoresNone (report loc level formatted args) := by
  intro e
  unfold report
  split
  · rename_i err ht
    exact .failed (fits_of_messageText ht)
  · split
    · exact .failed_bare rfl nofun
    · exact .done rfl

theorem declareVariable_storesNone (name parent : String) :
    StoresNone (declareVariable name parent) := by
  intro e
  unfold declareVariable
  split
  · exact .done rfl
  · split
    · rename_i err hq
      exact .failed (fits_of_qualify hq)
    · split
      · exact .failed_bare rfl nofun
      · split
        · exact .done rfl
        · exact .done rfl

theorem declareLabel_storesNone (name : String) (synthetic : Bool) (parent : String) :
    StoresNone (declareLabel name synthetic parent) := by
  intro e
  unfold declareLabel
  split
  · rename_i err hq
    exact .failed (fits_of_qualify hq)
  · split
    · exact .failed_bare rfl nofun
    · split
      · exact .failed_bare rfl nofun
      · exact .done rfl

/-! ## Operations that store bytes -/

/-- What becomes of bytes of a kind that are emitted one after the other: they go to the
program counter and on from there, as many as there is memory for, and none while the
counter is not set. -/
def output (e : Engine) (kind : RegionKind) (bs : List UInt8) : List Emission :=
  match e.pcAddress? with
  | some a => consecutive kind a (bs.take (0x10000 - a.toNat))
  | none => []

@[simp] theorem output_nil (e : Engine) (kind : RegionKind) : e.output kind [] = [] := by
  unfold output
  cases e.pcAddress? <;> simp [consecutive]

theorem output_of_none {e : Engine} (h : e.pcAddress? = none) (kind : RegionKind) (bs : List UInt8) :
    e.output kind bs = [] := by
  unfold output
  rw [h]

/-- The first byte always has a place, the others go on behind it. -/
theorem output_cons {e : Engine} {a : UInt16} (h : e.pcAddress? = some a) (kind : RegionKind)
    (b : UInt8) (bs : List UInt8) :
    e.output kind (b :: bs) =
      ⟨a, kind, b⟩ :: if a + 1 = 0 then [] else (e.emitted kind a b).output kind bs := by
  have hlt := a.toNat_lt
  have htake : (b :: bs).take (0x10000 - a.toNat) = b :: bs.take (0x10000 - (a.toNat + 1)) := by
    have hroom : 0x10000 - a.toNat = (0x10000 - (a.toNat + 1)) + 1 := by
      simp only [Nat.reducePow] at hlt
      omega
    rw [hroom]
    rfl
  unfold output
  rw [h, pcAddress?_emitted]
  show consecutive kind a ((b :: bs).take (0x10000 - a.toNat)) = _
  rw [htake, consecutive]
  by_cases hwrap : a + 1 = 0
  · have hlast : 0x10000 - (a.toNat + 1) = 0 := by
      have := mt address_succ_ne_zero.mpr (not_not.mpr hwrap)
      omega
    rw [if_pos hwrap, hlast]
    rfl
  · rw [if_neg hwrap, ← toNat_address_succ (address_succ_ne_zero.mp hwrap)]

theorem emit_of_none {e : Engine} (h : e.pcAddress? = none) (kind : RegionKind) (v : Int64) :
    emit kind v e = .error .pcUnset e := by
  unfold emit
  rw [h]

/-- A byte is stored wherever the program counter is, also where it then wraps. -/
theorem emit_of_some {e : Engine} {a : UInt16} (h : e.pcAddress? = some a) (kind : RegionKind)
    (v : Int64) :
    emit kind v e =
      if a + 1 = 0 then .error .pcWrap (e.emitted kind a v.toUInt64.toUInt8)
      else .ok () (e.emitted kind a v.toUInt64.toUInt8) := by
  unfold emit advancePc emitted
  by_cases hwrap : a + 1 = 0 <;> by_cases hfinal : e.pass = .final <;>
    simp [h, noRoom_eq_false, hwrap, hfinal, isFinal]

end Engine

/-- A byte is stored and then what follows, if the program counter does not wrap. -/
theorem Stores.emit_then (kind : RegionKind) (v : Int64) (bs : List UInt8) {f : Unit → EngineM β}
    {e : Engine} (hf : ∀ a, e.pcAddress? = some a → a + 1 ≠ 0 →
      Stores ((e.emitted kind a v.toUInt64.toUInt8).output kind bs)
        (e.emitted kind a v.toUInt64.toUInt8) (f () (e.emitted kind a v.toUInt64.toUInt8))) :
    Stores (e.output kind (v.toUInt64.toUInt8 :: bs)) e ((Engine.emit kind v >>= f) e) := by
  cases ha : e.pcAddress? with
  | none =>
      have hrun := Engine.emit_of_none ha kind v
      rw [Engine.output_of_none ha]
      refine .bind_of_error hrun ?_
      rw [hrun]
      exact .failed_bare rfl nofun
  | some a =>
      have hstored := e.receives_emitted kind a v.toUInt64.toUInt8
      have hrun := Engine.emit_of_some ha kind v
      rw [Engine.output_cons ha]
      -- at the end of memory the byte is stored, but nothing behind it
      by_cases hwrap : a + 1 = 0
      · rw [if_pos hwrap] at hrun ⊢
        refine .bind_of_error hrun ?_
        rw [hrun]
        exact .error hstored rfl (Error.fits_of_isBare rfl nofun)
      · rw [if_neg hwrap] at hrun ⊢
        have hbyte : Stores [⟨a, kind, v.toUInt64.toUInt8⟩] e (Engine.emit kind v e) := by
          rw [hrun]
          exact .ok hstored rfl
        refine hbyte.bind (fun _ e₁ hr => ?_) fun _ _ hr => ?_
        · rw [hrun] at hr
          cases hr
          exact hf a ha hwrap
        · rw [hrun] at hr
          cases hr

/-- A value on the stack is taken, without one nothing happens. -/
theorem Stores.pop_then {f : Int64 → EngineM β} {e : Engine} {es : List Emission}
    (hnil : e.stack.values = [] → es = [])
    (hcons : ∀ v rest, e.stack.values = v :: rest →
      Stores es { e with stack := ⟨rest⟩ } (f v { e with stack := ⟨rest⟩ })) :
    Stores es e ((Engine.pop >>= f) e) := by
  cases hs : e.stack.values with
  | nil =>
      rw [hnil hs]
      cases hpop : Engine.pop e with
      | ok v e₁ =>
          obtain ⟨rest, hsome, -⟩ := Engine.pop_eq_ok.mp hpop
          rw [hs] at hsome
          cases hsome
      | error err e₁ => exact .bind_of_error hpop (Engine.pop_storesNone e)
  | cons v rest =>
      rw [bind_of_ok (Engine.pop_eq_ok.mpr ⟨rest, hs, rfl⟩)]
      exact (hcons v rest hs).from_shown rfl

/-! ### Bytes in a row -/

namespace Engine

/-- Emit bytes one after the other. -/
def emitEach (kind : RegionKind) : List UInt8 → EngineM Unit
  | [] => Pure.pure ()
  | b :: bs => do
    emit kind (Int64.ofNat b.toNat)
    emitEach kind bs

/-- Only the low byte of a value is emitted. -/
theorem emit_low (kind : RegionKind) (v : Int64) :
    emit kind (Int64.ofNat v.toUInt64.toUInt8.toNat) = emit kind v := by
  have hlow : (Int64.ofNat v.toUInt64.toUInt8.toNat).toUInt64.toUInt8 = v.toUInt64.toUInt8 := by
    generalize v.toUInt64.toUInt8 = b
    simp
  funext e
  unfold emit
  rw [hlow]

theorem emitEach_append (kind : RegionKind) (bs cs : List UInt8) :
    emitEach kind (bs ++ cs) = (emitEach kind bs >>= fun _ => emitEach kind cs) := by
  induction bs with
  | nil => rfl
  | cons b bs ih => rw [List.cons_append, emitEach, emitEach, ih, bind_assoc]

theorem emitSized_eq_emitEach (kind : RegionKind) (word : Bool) (v : Int64) :
    emitSized kind word v = emitEach kind (sizedBytes word v) := by
  unfold emitSized emitWord sizedBytes
  cases word with
  | false => simp only [emitEach, emit_low, Bool.false_eq_true, if_false, bind_pure_unit]
  | true => simp only [emitEach, emit_low, if_true, bind_pure_unit]

theorem emitBytes_eq_emitEach (word : Bool) (bs : List UInt8) :
    emitBytes word bs =
      emitEach .data (bs.flatMap fun b => sizedBytes word (Int64.ofNat b.toNat)) := by
  induction bs with
  | nil => rfl
  | cons b bs ih => rw [emitBytes, List.flatMap_cons, emitEach_append, ih, emitSized_eq_emitEach]

theorem emitEach_stores (kind : RegionKind) (bs : List UInt8) (e : Engine) :
    Stores (e.output kind bs) e (emitEach kind bs e) := by
  induction bs generalizing e with
  | nil =>
      rw [output_nil]
      exact .pure () e
  | cons b bs ih =>
      have hb : (Int64.ofNat b.toNat).toUInt64.toUInt8 = b := by simp
      have hcons := Stores.emit_then kind (Int64.ofNat b.toNat) bs (f := fun _ => emitEach kind bs)
        (e := e) fun _ _ _ => ih _
      rw [hb] at hcons
      exact hcons

theorem emitSized_stores (kind : RegionKind) (word : Bool) (v : Int64) (e : Engine) :
    Stores (e.output kind (sizedBytes word v)) e (emitSized kind word v e) := by
  rw [emitSized_eq_emitEach]
  exact emitEach_stores kind _ e

theorem emitBytes_stores (word : Bool) (bs : List UInt8) (e : Engine) :
    Stores (e.output .data (bs.flatMap fun b => sizedBytes word (Int64.ofNat b.toNat))) e
      (emitBytes word bs e) := by
  rw [emitBytes_eq_emitEach]
  exact emitEach_stores .data _ e

/-! ### Instructions -/

/-- Is the value of the current expression to be relied on?  Before the strict passes it is
not if a symbol without a value was read for it. -/
def isResolved (e : Engine) : Bool := e.strict || !e.unresolved

end Engine

namespace Opcode

/-- What a branch has after its opcode, at an address: the distance to its operand, or
nothing if that is too far; zero if the operand is not known yet. -/
def branchBytes (resolved : Bool) (a : UInt16) (v : Int64) : List UInt8 :=
  let d := Engine.branchDistance v a
  if resolved then (if d < -128 || 127 < d then [] else [d.toUInt64.toUInt8]) else [0]

/-- The bytes that an instruction has for its operand, at an address, be it one that can be
encoded or not. -/
def written (op : Opcode) (resolved : Bool) (a : UInt16) (v : Int64) : List UInt8 :=
  op.code :: if op.mode = .relative then branchBytes resolved (a + 1) v else op.operandBytes a v

end Opcode

namespace Engine

theorem emitBranch_stores {e : Engine} {a : UInt16} (h : e.pcAddress? = some a) (v : Int64) :
    Stores (e.output .code (Opcode.branchBytes e.isResolved a v)) e (emitBranch v e) := by
  unfold emitBranch Opcode.branchBytes isResolved
  rw [bind_of_ok (pcAddress_eq_ok.mpr ⟨h, rfl⟩), bind_of_ok (get_eq_ok.mpr ⟨rfl, rfl⟩)]
  dsimp only
  split
  · split
    · rw [output_nil]
      exact .throw (.branchReach _) (Error.fits_of_isBare rfl nofun) e
    · exact emitSized_stores .code false _ e
  · exact emitSized_stores .code false 0 e

/-- What an instruction puts out once it has its operand. -/
def encoded (e : Engine) (op : Opcode) (v : Int64) : List Emission :=
  match e.pcAddress? with
  | some a => e.output .code (op.written e.isResolved a v)
  | none => []

theorem encoded_of_some {e : Engine} {a : UInt16} (h : e.pcAddress? = some a) (op : Opcode)
    (v : Int64) :
    e.encoded op v = e.output .code (op.written e.isResolved a v) := by
  unfold encoded
  rw [h]

theorem encoded_of_none {e : Engine} (h : e.pcAddress? = none) (op : Opcode) (v : Int64) :
    e.encoded op v = [] := by
  unfold encoded
  rw [h]

/-- The opcode is stored, then what it has for its operand. -/
theorem emitOperand_stores (op : Opcode) (hmode : op.mode ≠ .implied) (v : Int64) (e : Engine) :
    Stores (e.encoded op v) e ((emit .code (Int64.ofNat op.code.toNat) >>= fun _ =>
      if op.mode == .relative then emitBranch v else emitSized .code (op.mode.size == 2) v) e) := by
  have hcode : (Int64.ofNat op.code.toNat).toUInt64.toUInt8 = op.code := by simp
  have hthen := fun bs => Stores.emit_then .code (Int64.ofNat op.code.toNat) bs
    (f := fun _ => if op.mode == .relative then emitBranch v
      else emitSized .code (op.mode.size == 2) v) (e := e)
  rw [hcode] at hthen
  cases ha : e.pcAddress? with
  | none =>
      rw [encoded_of_none ha, ← output_of_none ha .code [op.code]]
      refine hthen [] fun a ha' _ => ?_
      rw [ha] at ha'
      cases ha'
  | some a =>
      rw [encoded_of_some ha]
      refine hthen _ fun a' ha' _ => ?_
      obtain rfl := Option.some.inj (ha.symm.trans ha')
      have hnext := pcAddress?_emitted e .code a op.code
      -- the opcode byte comes first; the operand goes one address further
      by_cases hrelative : op.mode = .relative
      · have hbeq : (op.mode == .relative) = true := by simpa using hrelative
        rw [if_pos hrelative, if_pos hbeq]
        exact emitBranch_stores hnext v
      · have hbeq : ¬(op.mode == .relative) = true := by simpa using hrelative
        rw [if_neg hrelative, if_neg hbeq, Opcode.operandBytes, if_neg hmode, if_neg hrelative]
        exact emitSized_stores .code _ v _

/-- What an instruction puts out: nothing as long as there is no operand for it. -/
def encodeOutput (e : Engine) (op : Opcode) : List Emission :=
  match op.takeOperand? e.stack with
  | some (v, _) => e.encoded op v
  | none => []

theorem encode_stores (op : Opcode) (e : Engine) : Stores (e.encodeOutput op) e (encode op e) := by
  unfold encode encodeOutput Opcode.takeOperand?
  -- one byte and no operand, or an operand taken from the stack first
  by_cases hmode : op.mode = .implied
  · have hbeq : (op.mode == .implied) = true := by simpa using hmode
    have hcode : (Int64.ofNat op.code.toNat).toUInt64.toUInt8 = op.code := by simp
    have hwritten : ∀ a, op.written e.isResolved a 0 = [op.code] := by
      intro a
      unfold Opcode.written Opcode.operandBytes
      rw [hmode]
      rfl
    have hstores := emitSized_stores .code false (Int64.ofNat op.code.toNat) e
    simp only [sizedBytes, Bool.false_eq_true, if_false, hcode] at hstores
    rw [if_pos hmode, if_pos hbeq]
    dsimp only
    cases ha : e.pcAddress? with
    | none =>
        rw [encoded_of_none ha, ← output_of_none ha .code [op.code]]
        exact hstores
    | some a =>
        rw [encoded_of_some ha, hwritten]
        exact hstores
  · have hbeq : ¬(op.mode == .implied) = true := by simpa using hmode
    rw [if_neg hmode, if_neg hbeq]
    refine .pop_then (fun hnil => ?_) fun v rest hcons => ?_
    · rw [hnil]
    · rw [hcons]
      exact emitOperand_stores op hmode v { e with stack := ⟨rest⟩ }

end Engine

/-! ## Actions -/

namespace Visit

/-- The bytes that a visited action has for its operands, be it a success or not. -/
def written (v : Visit) : List UInt8 :=
  match v.instruction? with
  | some i => i.opcode.written v.engine.isResolved i.address i.operand
  | none => v.bytes

/-- What a visit puts out, in any pass, be it a success or not. -/
def output (v : Visit) : List Emission := v.engine.output v.kind v.written

theorem output_eq_nil {v : Visit} (h : v.action.op.emits = false) : v.output = [] := by
  have hinstr : v.action.op.isInstruction = false := (Bool.or_eq_false_iff.mp h).1
  have hbytes : v.bytes = [] := by
    obtain ⟨⟨loc, op, x⟩, e⟩ := v
    cases op with
    | instruction | width | data | text | bytes => cases h
    | _ =>
        unfold bytes
        rw [instruction?_eq_none rfl]
        rfl
  unfold output written
  rw [instruction?_eq_none hinstr, hbytes]
  exact Engine.output_nil _ _

theorem output_of_not_instruction {v : Visit} (h : v.action.op.isInstruction = false) :
    v.output = v.engine.output .data v.bytes := by
  have hkind : v.kind = .data := by
    unfold kind
    rw [h]
    rfl
  unfold output written
  rw [instruction?_eq_none h, hkind]

theorem output_of_instruction?_none {v : Visit} (h : v.action.op.isInstruction = true)
    (hnone : v.instruction? = none) : v.output = [] := by
  have hbytes : v.bytes = [] := by
    obtain ⟨⟨loc, op, x⟩, e⟩ := v
    cases op with
    | instruction | width =>
        unfold bytes
        rw [hnone]
        rfl
    | _ => cases h
  unfold output written
  rw [hnone, hbytes]
  exact Engine.output_nil _ _

/-- A visit of an instruction puts out what the encoding does that it chooses. -/
theorem output_of_instruction {v : Visit} (h : v.action.op.isInstruction = true) :
    v.output = (v.opcode?.map v.engine.encodeOutput).getD [] := by
  cases hop : v.opcode? with
  | none => exact output_of_instruction?_none h (by rw [instruction?, hop]; rfl)
  | some op =>
      show v.output = v.engine.encodeOutput op
      unfold Engine.encodeOutput Engine.encoded
      cases htake : op.takeOperand? v.engine.stack with
      | none =>
          refine output_of_instruction?_none h ?_
          rw [instruction?, hop, Option.bind_some, htake]
          cases v.engine.pcAddress? <;> rfl
      | some taken =>
          cases ha : v.engine.pcAddress? with
          | none =>
              refine output_of_instruction?_none h ?_
              rw [instruction?, hop, Option.bind_some, ha]
              rfl
          | some a =>
              have hwhole : v.instruction? = some ⟨a, op, taken.1⟩ := by
                rw [instruction?, hop, Option.bind_some, ha, Option.bind_some, htake]
                rfl
              have hkind : v.kind = .code := if_pos h
              unfold output written
              rw [hwhole, hkind]

end Visit

/-- An action that emits no byte stores none. -/
theorem Op.run_storesNone (op : Op) (loc : Location) (hemits : op.emits = false)
    (hmsg : op.isMessage = false) : StoresNone (op.run loc) := by
  cases hmeta : op.isMeta with
  | true =>
      rw [Op.run_of_isMeta hmeta]
      exact .throw (Error.fits_of_isBare rfl nofun)
  | false =>
      cases op with
      | load v => exact Engine.startOperand_storesNone.bind fun _ => Engine.push_storesNone v
      | get name =>
          exact Engine.startOperand_storesNone.bind fun _ =>
            (Engine.readSymbol_storesNone name).bind fun v => Engine.push_storesNone v
      | set name => exact Engine.pop_storesNone.bind fun v => Engine.assign_storesNone name v
      | unary op => exact Engine.pop_storesNone.bind fun v => Engine.push_storesNone _
      | binary op => exact Engine.applyBinary_storesNone op
      | label name synthetic => exact Engine.placeLabel_storesNone name synthetic
      | jump j => exact Engine.requestJump_storesNone j
      | jumpIfFalse j => exact Engine.pop_storesNone.bind fun v => Engine.requestJump_if_storesNone j _
      | counterSet c => exact Engine.loadCounter_storesNone c
      | counterTest c j =>
          exact (Engine.counter_storesNone c).bind fun v => Engine.requestJump_if_storesNone j _
      | counterStep c j =>
          exact (Engine.counter_storesNone c).bind fun v =>
            (Engine.setCounter_storesNone c _).bind fun _ => Engine.requestJump_storesNone j
      | instruction | width | data | text | bytes => cases hemits
      | message => cases hmsg
      | _ => cases hmeta

namespace Visit

variable (loc : Location) (x : Option Expansion) (e : Engine)

theorem data_stores (word : Bool) :
    Stores (Visit.output ⟨⟨loc, .data word, x⟩, e⟩) e ((Op.data word).run loc e) := by
  rw [output_of_not_instruction rfl]
  unfold bytes
  refine .pop_then (fun hnil => ?_) fun v rest hcons => ?_
  · dsimp only
    rw [hnil, instruction?_eq_none rfl]
    exact Engine.output_nil _ _
  · dsimp only
    rw [hcons]
    exact Engine.emitSized_stores .data word v { e with stack := ⟨rest⟩ }

theorem bytes_stores (name : String) (bs : List UInt8) :
    Stores (Visit.output ⟨⟨loc, .bytes name bs, x⟩, e⟩) e ((Op.bytes name bs).run loc e) := by
  rw [output_of_not_instruction rfl]
  unfold bytes
  refine .pop_then (fun hnil => ?_) fun length above hlength => ?_
  · dsimp only
    rw [hnil, instruction?_eq_none rfl]
    exact Engine.output_nil _ _
  · refine .pop_then (fun hnil => ?_) fun skip rest hskip => ?_
    · have hnil : above = [] := hnil
      dsimp only
      rw [hlength, hnil, instruction?_eq_none rfl]
      exact Engine.output_nil _ _
    · have hskip : above = skip :: rest := hskip
      have hstores := Engine.emitBytes_stores false (Engine.selectBytes skip length bs)
        { e with stack := ⟨rest⟩ }
      rw [flatMap_sizedBytes] at hstores
      dsimp only
      rw [hlength, hskip]
      exact hstores

theorem width_stores (mnemonic : String) (index : Index) :
    Stores (Visit.output ⟨⟨loc, .width mnemonic index, x⟩, e⟩) e
      (Engine.encodeWidth mnemonic index e) := by
  rw [output_of_instruction rfl]
  unfold opcode? Engine.encodeWidth
  dsimp only
  cases hs : e.stack.values with
  | nil =>
      cases hpeek : Engine.peek e with
      | ok v e₁ =>
          obtain ⟨⟨rest, hcons⟩, -⟩ := Engine.peek_eq_ok.mp hpeek
          rw [hs] at hcons
          cases hcons
      | error err e₁ => exact .bind_of_error hpeek (Engine.peek_storesNone e)
  | cons v rest =>
      rw [bind_of_ok (Engine.peek_eq_ok.mpr ⟨⟨rest, hs⟩, rfl⟩), List.head?_cons, Option.bind_some]
      cases (Mnemonic.ofName? mnemonic).bind fun m =>
          m.encoding? (Engine.directMode index (decide (v &&& 0xFFFF < 256))) with
      | none => exact .throw .illegalMode (Error.fits_of_isBare rfl nofun) e
      | some op => exact Engine.encode_stores op e

end Visit

/-- An action that is no message stores what its visit puts out. -/
theorem Op.run_stores (op : Op) (loc : Location) (x : Option Expansion) (hmsg : op.isMessage = false)
    (e : Engine) : Stores (Visit.output ⟨⟨loc, op, x⟩, e⟩) e (op.run loc e) := by
  cases hemits : op.emits with
  | false =>
      rw [Visit.output_eq_nil (v := ⟨⟨loc, op, x⟩, e⟩) hemits]
      exact op.run_storesNone loc hemits hmsg e
  | true =>
      cases op with
      | instruction code =>
          rw [Visit.output_of_instruction rfl, Visit.opcode?, Op.run]
          dsimp only
          -- the decoding of the code must not be unfolded here
          generalize Opcode.ofCode code = op
          exact Engine.encode_stores op e
      | width mnemonic index => exact Visit.width_stores loc x e mnemonic index
      | data word => exact Visit.data_stores loc x e word
      | text word bs => exact Engine.emitBytes_stores word bs e
      | bytes name bs => exact Visit.bytes_stores loc x e name bs
      | _ => cases hemits

/-- What an action puts out, with all that it evaluates. -/
def Action.output (a : Action) (e : Engine) : List Emission := (a.visits e).flatMap Visit.output

mutual

/-- Be it a success or not, an action stores what its visits put out. -/
theorem Action.run_stores : ∀ (a : Action) (e : Engine), Stores (a.output e) e (a.run e)
  | ⟨loc, op, x⟩, e => by
      unfold Action.output
      cases op with
      | message level formatted args =>
          have hself : Visit.output ⟨⟨loc, .message level formatted args, x⟩, e⟩ = [] :=
            Visit.output_eq_nil rfl
          rw [Action.visits, Op.nestedVisits, Action.run, Op.run, List.flatMap_cons, hself,
            List.nil_append, bind_of_ok (get_eq_ok.mpr ⟨rfl, rfl⟩)]
          cases e.isFinal with
          | false => exact .pure () e
          | true =>
              exact (argValues_stores args e).bind_storesNone fun values =>
                Engine.report_storesNone loc level formatted values
      | _ =>
          rw [Action.visits, Op.nestedVisits, List.flatMap_singleton, Action.run]
          · exact Op.run_stores _ loc x rfl e
          · nofun

theorem argValues_stores : ∀ (args : List (List Action)) (e : Engine),
    Stores ((argVisits args e).flatMap Visit.output) e (argValues args e)
  | [], e => by
      rw [argVisits, argValues]
      exact .pure [] e
  | expr :: rest, e => by
      rcases argValues_cons expr rest with ⟨loc, s, x, rfl, heq⟩ | ⟨hne, heq⟩
      · rw [heq, argVisits]
        exact (argValues_stores rest e).bind_storesNone fun values => .pure (.text s :: values)
      · have hvalue := (runEach_stores expr e).bind_storesNone fun _ => Engine.pop_storesNone
        rw [heq, ← bind_assoc, argVisits, List.flatMap_append]
        · refine hvalue.bind (fun v e₁ hrun => ?_) fun err e₁ hrun => ?_
          · rw [hrun]
            exact (argValues_stores rest e₁).bind_storesNone fun values => .pure (.int v :: values)
          · rw [hrun]
            rfl
        · exact hne

theorem runEach_stores : ∀ (acts : List Action) (e : Engine),
    Stores ((eachVisits acts e).flatMap Visit.output) e (runEach acts e)
  | [], e => by
      rw [eachVisits, runEach]
      exact .pure () e
  | a :: rest, e => by
      rw [eachVisits, runEach, List.flatMap_append]
      have hfirst := (Action.run_stores a e).locating a.location
      refine hfirst.bind (fun u e₁ hrun => ?_) fun err e₁ hrun => ?_
      · rw [locating_eq_ok.mp hrun]
        exact runEach_stores rest e₁
      · cases ha : a.run e with
        | ok u e' =>
            rw [locating_eq_ok.mpr ha] at hrun
            cases hrun
        | error err e' => rfl

end

end Mos6510
