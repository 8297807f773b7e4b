import Mos6510.Proofs.Failure

/-!
# What the error of an action is

Running an action fails with a *cause*, an error that says nothing about where
it came up (`Error.isRuntime`).  Only messages run actions of their own, those
of their arguments, and give a cause the location of the action that raised it.
So an error has at most one location in it, that of an action that a message
holds, and never the limits of a pass.

* `Action.run_cause`: the error of an action is a cause, or a cause at an action
  that it holds.  This is for all actions, however they were put together.
-/

namespace Mos6510

open Outcome EngineM

namespace Error

/-- Errors that running an action raises, before they are given a location. -/
def isRuntime : Error → Bool
  | stackEmpty | stackFull | unknownCounter _ | branchReach _ | metaExecuted _ => true
  | err => err.isOrdinary

theorem isRuntime_of_isOrdinary {err : Error} (h : err.isOrdinary = true) :
    err.isRuntime = true := by
  cases err <;> first | rfl | cases h

/-- An error with no other error in it. -/
def isBare (err : Error) : Bool := err.inner?.isNone

theorem isBare_of_isRuntime {err : Error} (h : err.isRuntime = true) : err.isBare = true := by
  cases err <;> first | rfl | cases h

theorem chain_of_isBare {err : Error} (h : err.isBare = true) : err.chain = [err] := by
  cases err <;> first | rfl | cases h

/-- Then it does not say where it came up. -/
theorem isLocated_of_isBare {err : Error} (h : err.isBare = true) :
    err.isLocated = false ∧ err.isExpanding = false := by
  cases err <;> first | exact ⟨rfl, rfl⟩ | cases h

theorem atLocation_of_isBare {err : Error} (h : err.isBare = true) (loc : Location) :
    err.atLocation loc = .located loc err := by
  unfold atLocation
  rw [chain_of_isBare h]
  simp [(isLocated_of_isBare h).1]

/-- Where an error has a location, it is not given another. -/
theorem atLocation_located (loc loc₀ : Location) (err : Error) :
    (located loc₀ err).atLocation loc = .located loc₀ err := by
  unfold atLocation
  exact if_pos rfl

end Error

theorem Op.Fails.isRuntime {op : Op} {e : Engine} {err : Error} (h : op.Fails e err) :
    err.isRuntime = true := by
  cases h with
  | ordinary h => exact Error.isRuntime_of_isOrdinary h
  | _ => rfl

/-- An action is itself, and holds what the arguments of a message hold. -/
inductive Action.Holds : Action → Action → Prop
  | self (a : Action) : Action.Holds a a
  | inside {loc : Location} {level : Level} {formatted : Bool} {args : List (List Action)}
      {x : Option Expansion} {arg : List Action} {a b : Action} : arg ∈ args → a ∈ arg →
      Action.Holds a b → Action.Holds ⟨loc, .message level formatted args, x⟩ b

/-- The error is a cause, or a cause at an action that some actions hold. -/
def CauseIn (acts : List Action) (err : Error) : Prop :=
  ∃ cause, cause.isRuntime = true ∧
    (err = cause ∨ ∃ a ∈ acts, ∃ b, a.Holds b ∧ err = .located b.location cause)

namespace CauseIn

variable {acts acts' : List Action} {err : Error}

theorem of_isRuntime (h : err.isRuntime = true) : CauseIn acts err := ⟨err, h, .inl rfl⟩

theorem mono (h : CauseIn acts err) (hsub : acts ⊆ acts') : CauseIn acts' err := by
  obtain ⟨cause, hcause, h⟩ := h
  refine ⟨cause, hcause, h.imp_right ?_⟩
  rintro ⟨a, ha, hb⟩
  exact ⟨a, hsub ha, hb⟩

/-- A cause is given the location of the action, any other error has one. -/
theorem atLocation {a : Action} (h : CauseIn [a] err) : CauseIn [a] (err.atLocation a.location) := by
  obtain ⟨cause, hcause, rfl | ⟨c, hc, b, hb, rfl⟩⟩ := h
  · rw [Error.atLocation_of_isBare (Error.isBare_of_isRuntime hcause)]
    exact ⟨err, hcause, .inr ⟨a, List.mem_singleton_self a, a, .self a, rfl⟩⟩
  · rw [Error.atLocation_located]
    exact ⟨cause, hcause, .inr ⟨c, hc, b, hb, rfl⟩⟩

/-- What the arguments of a message hold, the message holds. -/
theorem message {loc : Location} {level : Level} {formatted : Bool} {args : List (List Action)}
    {x : Option Expansion} (h : CauseIn args.flatten err) :
    CauseIn [⟨loc, .message level formatted args, x⟩] err := by
  obtain ⟨cause, hcause, h⟩ := h
  refine ⟨cause, hcause, h.imp_right ?_⟩
  rintro ⟨a, ha, b, hb, rfl⟩
  obtain ⟨arg, harg, ha⟩ := List.mem_flatten.mp ha
  exact ⟨_, List.mem_singleton_self _, b, .inside harg ha hb, rfl⟩

end CauseIn

theorem Raises.isRuntime {α : Type} {m : EngineM α} (hm : RaisesOrdinary m) (acts : List Action) :
    Raises (CauseIn acts) m :=
  hm.imp fun _ h => .of_isRuntime (Error.isRuntime_of_isOrdinary h)

mutual

/-- The error of an action is a cause, or a cause at an action that it holds. -/
theorem Action.run_cause : ∀ (a : Action), Raises (CauseIn [a]) a.run
  | ⟨loc, op, x⟩ => by
      intro e err e' h
      cases op with
      | message level formatted args =>
          rw [Action.run, Op.run, bind_of_ok (get_eq_ok.mpr ⟨rfl, rfl⟩)] at h
          split at h
          · have hargs : Raises (CauseIn args.flatten) (argValues args) := argValues_cause args
            have hboth := hargs.bind fun values =>
              Raises.isRuntime (Engine.report_raises loc level formatted values) args.flatten
            exact CauseIn.message (hboth h)
          · cases h
      | _ => exact .of_isRuntime (Op.run_fails rfl h).isRuntime

theorem argValues_cause : ∀ (args : List (List Action)),
    Raises (CauseIn args.flatten) (argValues args)
  | [] => by
      rw [argValues]
      exact Raises.pure _
  | expr :: rest => by
      have hrest : Raises (CauseIn (expr :: rest).flatten) (argValues rest) :=
        (argValues_cause rest).imp fun _ h => h.mono (List.subset_append_right _ _)
      rcases argValues_cons expr rest with ⟨loc, s, x, rfl, heq⟩ | ⟨-, heq⟩
      · rw [heq]
        exact hrest.bind fun _ => Raises.pure _
      · rw [heq]
        have hexpr : Raises (CauseIn (expr :: rest).flatten) (runEach expr) :=
          (runEach_cause expr).imp fun _ h => h.mono (List.subset_append_left _ _)
        refine hexpr.bind fun _ => Raises.bind ?_ fun _ => hrest.bind fun _ => Raises.pure _
        intro e err e' h
        rw [(Engine.pop_eq_error h).1]
        exact .of_isRuntime rfl

theorem runEach_cause : ∀ (acts : List Action), Raises (CauseIn acts) (runEach acts)
  | [] => by
      rw [runEach]
      exact Raises.pure _
  | a :: rest => by
      rw [runEach]
      refine Raises.bind ?_ fun _ => ?_
      · refine (Raises.locating (P := CauseIn [a]) _ (fun _ h => h.atLocation) ?_).imp fun _ h =>
          h.mono (List.cons_subset_cons a (List.nil_subset rest))
        exact Action.run_cause a
      · exact (runEach_cause rest).imp fun _ h => h.mono (List.subset_cons_self a rest)

end

end Mos6510
