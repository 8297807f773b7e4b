import Mathlib.Data.List.Chain
import Mos6510.Proofs.Images
import Mos6510.Proofs.Naming
import Mos6510.Proofs.Storing

/-!
# The regions of an engine

Whatever is done to an engine, and whether it succeeds or fails, the regions hold just the
bytes that were emitted since the last start of a pass, in the order of their emission.
Each region has bytes and lies in memory, and none goes on with the one before it.

* `Engine.Records`: this invariant, with the program counter an address, and the source
  map of the final pass;
* `Code.execute_receives`: what execution stores, action by action;
* `Program.lookup_source`: of each address, the map of a program keeps what was noted last;
* `performOps_records`: any sequence of operations on a new engine keeps the invariant, no
  operation finds a region full, and after a final pass the source map has just the
  addresses of the regions, each with the location of the last action that emitted a byte
  there.
-/

namespace Mos6510

open Outcome EngineM

variable {α : Type}

/-! ## Regions in a row -/

namespace Region

/-- The second region does not go on with the first. -/
def Apart (r s : Region) : Prop := r.kind ≠ s.kind ∨ r.stop ≠ s.start.toNat

/-- Regions in the order in which they were opened: each has bytes and lies in memory, and
none goes on with the one before it. -/
structure Tiled (rs : List Region) : Prop where
  placed : ∀ r ∈ rs, r.Placed
  apart : rs.IsChain Apart

end Region

/-- A byte opens a new region only if it does not go on with the latest one. -/
theorem Emission.extend_tiled (x : Emission) {rs : List Region} (h : Region.Tiled rs.reverse) :
    Region.Tiled (x.extend rs).reverse := by
  have hplaced : ∀ r ∈ x.extend rs, r.Placed :=
    Engine.extendRegions_placed x.kind x.address x.byte fun r hr => h.placed r (List.mem_reverse.mpr hr)
  refine ⟨fun r hr => hplaced r (List.mem_reverse.mp hr), ?_⟩
  have hapart := List.isChain_reverse.mp h.apart
  rw [List.isChain_reverse]
  unfold Emission.extend
  cases rs with
  | nil => exact List.isChain_singleton _
  | cons r rest =>
      cases hgoes : Engine.goesOn x.kind x.address r with
      | true =>
          rw [Engine.extendRegions, hgoes, if_pos rfl]
          -- the region keeps its kind and its start
          exact List.isChain_cons.mpr (List.isChain_cons.mp hapart)
      | false =>
          rw [Engine.extendRegions, hgoes]
          refine List.isChain_cons_cons.mpr ⟨?_, hapart⟩
          unfold Engine.goesOn at hgoes
          rcases Bool.and_eq_false_iff.mp hgoes with hkind | hstop
          · exact .inl (beq_eq_false_iff_ne.mp hkind)
          · exact .inr (beq_eq_false_iff_ne.mp hstop)

/-- Bytes that are stored one after the other leave the regions tiled. -/
theorem Region.Tiled.store (ds : List Deposit) {rs : List Region} (h : Tiled rs.reverse) :
    Tiled (ds.foldl (fun rs d => d.emission.extend rs) rs).reverse := by
  induction ds generalizing rs with
  | nil => exact h
  | cons d ds ih => exact ih (d.emission.extend_tiled h)

theorem Region.emissions_store (ds : List Deposit) (rs : List Region) :
    (ds.foldl (fun rs d => d.emission.extend rs) rs).reverse.flatMap emissions =
      rs.reverse.flatMap emissions ++ ds.map (·.emission) := by
  induction ds generalizing rs with
  | nil => exact (List.append_nil _).symm
  | cons d ds ih =>
      have hone : (d.emission.extend rs).reverse.flatMap emissions =
          rs.reverse.flatMap emissions ++ [d.emission] :=
        Engine.extendRegions_emissions d.emission.kind d.emission.address d.emission.byte rs
      rw [List.foldl_cons, ih, hone, List.append_assoc]
      rfl

/-- An address is in a region just if a byte of the region is there. -/
theorem Region.mem_addresses_iff {rs : List Region} (h : ∀ r ∈ rs, r.Placed) {a : UInt16} :
    a ∈ (rs.flatMap emissions).map Emission.address ↔ ∃ r ∈ rs, r.contains a = true := by
  have hcontains : ∀ r : Region, r.contains a = true ↔ r.start.toNat ≤ a.toNat ∧ a.toNat < r.stop := by
    intro r
    rw [contains, Bool.and_eq_true, decide_eq_true_eq, decide_eq_true_eq, UInt16.le_iff_toNat_le]
  simp only [List.mem_map, List.mem_flatMap, hcontains]
  constructor
  · rintro ⟨x, ⟨r, hr, hx⟩, rfl⟩
    exact ⟨r, hr, within_of_mem (h r hr).stop_le hx⟩
  · rintro ⟨r, hr, hlo, hhi⟩
    obtain ⟨x, hx, heq⟩ := exists_mem_emissions (h r hr).stop_le hlo hhi
    exact ⟨x, ⟨r, hr, hx⟩, UInt16.toNat_inj.mp heq⟩

namespace Engine

/-- The regions hold just the bytes that were stored, in the order of their emission, and
the program counter is an address.  In the final pass the source map tells where each byte
came from. -/
structure Records (ds : List Deposit) (e : Engine) : Prop where
  pc : e.pc.IsAddress
  tiled : Region.Tiled e.regions.reverse
  emissions : e.emissions = ds.map (·.emission)
  source : e.isFinal = true → e.source = (ds.map fun d => (d.emission.address, d.location)).reverse

theorem Records.of_fresh {e : Engine} (hpc : e.pc = {}) (hregions : e.regions = [])
    (hsource : e.isFinal = true → e.source = []) : e.Records [] where
  pc := by
    rw [hpc]
    exact ⟨Int.le_refl 0, by decide⟩
  tiled := by
    rw [hregions]
    exact ⟨nofun, List.isChain_nil⟩
  emissions := by
    unfold Engine.emissions
    rw [hregions]
    rfl
  source := hsource

/-- Bytes that are stored go on record. -/
theorem Records.receives {ds ds' : List Deposit} {e e' : Engine} (h : e.Records ds)
    (hreceives : e.Receives ds' e') : e'.Records (ds ++ ds') where
  pc := hreceives.pc h.pc
  tiled := by
    rw [hreceives.regions]
    exact h.tiled.store ds'
  emissions := by
    unfold Engine.emissions
    rw [hreceives.regions, Region.emissions_store, List.map_append, ← h.emissions]
    rfl
  source := by
    intro hfinal
    have hbefore : e.isFinal = true := by
      unfold isFinal at hfinal ⊢
      rwa [← hreceives.pass]
    rw [hreceives.source, if_pos hbefore, h.source hbefore, List.map_append, List.reverse_append]

end Engine

/-! ## Execution -/

/-- The bytes that visited actions store, each with the location of the action. -/
def deposits (vs : List Visit) : List Deposit :=
  vs.flatMap fun v => (v.action.output v.engine).map fun x => ⟨x, v.action.location⟩

theorem deposits_cons (v : Visit) (vs : List Visit) :
    deposits (v :: vs) =
      ((v.action.output v.engine).map fun x => ⟨x, v.action.location⟩) ++ deposits vs :=
  List.flatMap_cons

namespace Code

/-- The actions up to the first that fails or asks for a jump, each with the engine that it
is run on. -/
def stretchSteps : List Action → Engine → List Visit
  | [], _ => []
  | a :: rest, e =>
    ⟨a, e.atAction a⟩ ::
      match a.run (e.atAction a) with
      | .error _ _ => []
      | .ok _ e =>
        match e.jump with
        | none => stretchSteps rest e
        | some _ => []

/-- The actions that are run, one after the other, jumps included. -/
def steps (code : Code) : Nat → List Action → Engine → List Visit
  | budget, k, e =>
    stretchSteps k e ++
      match runStretch k e with
      | .jumped _ j e =>
        match budget, code.target? j with
        | budget + 1, some k => steps code budget k { e with jumps := e.jumps + 1 }
        | _, _ => []
      | _ => []

/-- The actions that execution runs.  A jump that is pending from before is made first. -/
def executed (code : Code) (e : Engine) : List Visit :=
  match e.jump with
  | none => code.steps (jumpLimit - e.jumps) code.actions e
  | some j =>
    match code.target? j with
    | none => []
    | some k =>
      if jumpLimit < e.jumps + 1 then [] else code.steps (jumpLimit - (e.jumps + 1)) k e.afterJump

theorem steps_nil (code : Code) (n : Nat) (e : Engine) : code.steps n [] e = [] := by
  unfold steps
  rfl

/-- The steps one action at a time. -/
theorem steps_cons (code : Code) (n : Nat) (a : Action) (k : List Action) (e : Engine) :
    code.steps n (a :: k) e =
      ⟨a, e.atAction a⟩ ::
        match a.run (e.atAction a) with
        | .error _ _ => []
        | .ok _ e₁ =>
          match e₁.jump with
          | none => code.steps n k e₁
          | some j =>
            match n, code.target? j with
            | n + 1, some k' => code.steps n k' e₁.afterJump
            | _, _ => [] := by
  conv => lhs; unfold steps
  rw [stretchSteps, runStretch_cons]
  cases a.run (e.atAction a) with
  | error err e₁ => rfl
  | ok u e₁ =>
      cases hj : e₁.jump with
      | none =>
          simp only [hj, List.cons_append]
          conv => rhs; unfold steps
      | some j =>
          simp only [hj, List.cons_append, List.nil_append]
          rfl

/-- Be it a success or not, execution stores what the actions that it runs put out. -/
theorem runFrom_receives (code : Code) (n : Nat) (k : List Action) (e : Engine) :
    e.Receives (deposits (code.steps n k e)) (last (code.runFrom n k e)) := by
  induction n, k using runFrom_induction generalizing e with
  | nil n =>
      rw [runFrom_nil, steps_nil]
      exact .of_shown rfl
  | cons n a k ih ihn =>
      obtain ⟨hregions, hsource, hpass, hpc⟩ := (a.run_stores (e.atAction a)).receives
      -- the action itself, be it a success or not; what follows is the rest of the run
      have hstep : e.Receives
          ((a.output (e.atAction a)).map fun x => ⟨x, a.location⟩) (last (a.run (e.atAction a))) :=
        ⟨hregions, hsource, hpass, hpc⟩
      rw [runFrom_cons, steps_cons, deposits_cons]
      cases ha : a.run (e.atAction a) with
      | error err e₁ =>
          rw [ha] at hstep
          exact hstep.trans (.of_shown rfl)
      | ok u e₁ =>
          rw [ha] at hstep
          dsimp only
          refine hstep.trans ?_
          cases hj : e₁.jump with
          | none => exact ih e₁
          | some j =>
              dsimp only
              have hjumped : e₁.Receives [] e₁.afterJump := .of_shown rfl
              cases ht : code.target? j with
              | none => cases n <;> exact .of_shown rfl
              | some k' =>
                  cases n with
                  | zero => exact hjumped
                  | succ n => exact hjumped.trans (ihn n rfl k' e₁.afterJump)

theorem runFrom_fits {code : Code} {n : Nat} {k : List Action} {e e' : Engine} {err : Error}
    (h : code.runFrom n k e = .error err e') : err.Fits := by
  obtain ⟨m, a, l, d, -, hfails⟩ := runFrom_eq_error h
  cases hfails with
  | run hrun => exact ((a.run_stores _).fits _ _ hrun).atAction a
  | @jump j =>
      have hfits : (Error.unknownJump j).Fits := Error.fits_of_isBare rfl nofun
      exact hfits.atAction a
  | limit =>
      have hfits : Error.loopLimit.Fits := Error.fits_of_isBare rfl nofun
      exact hfits.atAction a

theorem execute_receives (code : Code) (e : Engine) :
    e.Receives (deposits (code.executed e)) (last (code.execute e)) := by
  unfold execute executed
  cases hj : e.jump with
  | none => exact code.runFrom_receives _ _ e
  | some j =>
      dsimp only
      cases code.target? j with
      | none => exact .of_shown rfl
      | some k =>
          have hjumped : e.Receives [] e.afterJump := .of_shown rfl
          dsimp only
          split
          · exact hjumped
          · exact hjumped.trans (code.runFrom_receives _ k e.afterJump)

theorem execute_fits {code : Code} {e e' : Engine} {err : Error}
    (h : code.execute e = .error err e') : err.Fits := by
  unfold execute at h
  split at h
  · exact runFrom_fits h
  · dsimp only at h
    split at h
    · cases h
      exact Error.fits_of_isBare rfl nofun
    · split at h
      · cases h
        exact Error.fits_of_isBare rfl nofun
      · exact runFrom_fits h

end Code

namespace Assembler

variable {verbose : Bool} {code : Code} {pass : Pass} {e e' : Engine} {err : Error}

/-- Be it a success or not, a pass stores what the actions that it runs put out. -/
theorem runPass_receives (verbose : Bool) (code : Code) (pass : Pass) (e : Engine) :
    (code.start pass e).Receives (deposits (code.executed (code.start pass e)))
      (last (runPass verbose code pass e)) := by
  have hexecute := code.execute_receives (code.start pass e)
  rw [code.execute_start] at hexecute
  cases hrun : runPass verbose code pass e with
  | ok u e₁ =>
      obtain ⟨vs, d, hpasses, rfl⟩ := runPass_eq_ok_iff.mp hrun
      rw [Code.runFrom_eq_ok_iff.mpr ⟨vs, hpasses⟩] at hexecute
      -- the report of the pass goes to the log
      exact ⟨hexecute.regions, hexecute.source, hexecute.pass, hexecute.pc⟩
  | error err e₁ =>
      rw [runPass_eq_error hrun] at hexecute
      exact hexecute

theorem runPass_fits (h : runPass verbose code pass e = .error err e') : err.Fits :=
  Code.runFrom_fits (runPass_eq_error h)

end Assembler

/-! ## The source map -/

/-- The location of the last byte that was stored at an address. -/
def lastAt? (ds : List Deposit) (a : UInt16) : Option Location :=
  (ds.reverse.find? fun d => d.emission.address == a).map (·.location)

theorem lookup_consKey {κ : Type} [BEq κ] [LawfulBEq κ] (e : κ × α) (es : List (κ × α)) (k : κ) :
    (consKey e es).lookup k = (e :: es).lookup k := by
  cases es with
  | nil => rfl
  | cons f rest =>
      rw [consKey]
      split
      · rename_i heq
        rw [List.lookup_cons, List.lookup_cons, List.lookup_cons, ← eq_of_beq heq]
        split <;> rfl
      · rfl

/-- Of entries with one key only the first counts. -/
theorem lookup_dedupKeys {κ : Type} [BEq κ] [LawfulBEq κ] (es : List (κ × α)) (k : κ) :
    (dedupKeys es).lookup k = es.lookup k := by
  induction es with
  | nil => rfl
  | cons e es ih =>
      show (consKey e (dedupKeys es)).lookup k = _
      rw [lookup_consKey, List.lookup_cons, List.lookup_cons, ih]

theorem consKey_sublist {κ : Type} [BEq κ] (e : κ × α) (es : List (κ × α)) :
    (consKey e es).Sublist (e :: es) := by
  cases es with
  | nil => exact .refl _
  | cons f rest =>
      rw [consKey]
      split
      · exact (List.sublist_cons_self f rest).cons_cons e
      · exact .refl _

theorem dedupKeys_sublist {κ : Type} [BEq κ] (es : List (κ × α)) : (dedupKeys es).Sublist es := by
  induction es with
  | nil => exact .refl _
  | cons e es ih => exact (consKey_sublist e (dedupKeys es)).trans (ih.cons_cons e)

/-- Of entries in order of their addresses, one stays for each address. -/
theorem dedupKeys_strict {es : List (UInt16 × α)} (h : es.Pairwise fun x y => x.1 ≤ y.1) :
    (dedupKeys es).Pairwise fun x y => x.1 < y.1 := by
  induction es with
  | nil => exact .nil
  | cons e es ih =>
      obtain ⟨he, hes⟩ := List.pairwise_cons.mp h
      have hstrict := ih hes
      have hle : ∀ x ∈ dedupKeys es, e.1 ≤ x.1 := fun x hx => he x ((dedupKeys_sublist es).subset hx)
      have hcons : dedupKeys (e :: es) = _ := Program.consKey_eq_filter hstrict hle
      rw [hcons]
      refine List.pairwise_cons.mpr ⟨fun x hx => ?_, hstrict.filter _⟩
      obtain ⟨hx, hne⟩ := List.mem_filter.mp hx
      exact UInt16.lt_of_le_of_ne (hle x hx) (bne_iff_ne.mp hne).symm

theorem lookup_eq_find? {κ : Type} [BEq κ] [LawfulBEq κ] (es : List (κ × α)) (k : κ) :
    es.lookup k = (es.find? fun e => e.1 == k).map (·.2) := by
  induction es with
  | nil => rfl
  | cons e es ih =>
      rw [List.lookup_cons, List.find?_cons, BEq.comm]
      split
      · rfl
      · exact ih

namespace Program

/-- The order of entries by their addresses, on which the sorting depends. -/
theorem addressLe_trans (x y z : UInt16 × α) (hxy : decide (x.1 ≤ y.1) = true)
    (hyz : decide (y.1 ≤ z.1) = true) : decide (x.1 ≤ z.1) = true :=
  decide_eq_true (UInt16.le_trans (of_decide_eq_true hxy) (of_decide_eq_true hyz))

theorem addressLe_total (x y : UInt16 × α) : (decide (x.1 ≤ y.1) || decide (y.1 ≤ x.1)) = true := by
  rw [Bool.or_eq_true, decide_eq_true_eq, decide_eq_true_eq]
  exact UInt16.le_total _ _

/-- Sorting is stable: entries of one address keep their order. -/
theorem lookup_mergeSort (es : List (UInt16 × α)) (a : UInt16) :
    (es.mergeSort fun x y => decide (x.1 ≤ y.1)).lookup a = es.lookup a := by
  have hperm := List.mergeSort_perm es fun x y => decide (x.1 ≤ y.1)
  have hsub : (es.filter fun e => e.1 == a).Sublist (es.mergeSort fun x y => decide (x.1 ≤ y.1)) := by
    refine List.sublist_mergeSort addressLe_trans addressLe_total ?_ List.filter_sublist
    refine List.pairwise_of_forall_mem_list fun x hx y hy => ?_
    have hkeys : x.1 = y.1 :=
      (eq_of_beq (List.mem_filter.mp hx).2).trans (eq_of_beq (List.mem_filter.mp hy).2).symm
    exact decide_eq_true (hkeys ▸ UInt16.le_refl _)
  have hfilter : (es.mergeSort fun x y => decide (x.1 ≤ y.1)).filter (fun e => e.1 == a) =
      es.filter fun e => e.1 == a := by
    have hkeep := hsub.filter fun e => e.1 == a
    rw [List.filter_filter] at hkeep
    simp only [Bool.and_self] at hkeep
    exact (hkeep.eq_of_length (hperm.filter _).length_eq.symm).symm
  rw [lookup_eq_find?, lookup_eq_find?, ← List.head?_filter, ← List.head?_filter, hfilter]

/-- The map of a program tells of each address what was noted last. -/
theorem lookup_source (e : Engine) (a : UInt16) : (ofEngine e).source.lookup a = e.source.lookup a :=
  (lookup_dedupKeys _ a).trans (lookup_mergeSort e.source a)

theorem source_strict (e : Engine) : (ofEngine e).source.Pairwise fun x y => x.1 < y.1 := by
  have hsorted := List.pairwise_mergeSort addressLe_trans addressLe_total e.source
  exact dedupKeys_strict (hsorted.imp of_decide_eq_true)

end Program

/-- The last visited action that stores a byte at an address. -/
def lastStoring? (vs : List Visit) (a : UInt16) : Option Visit :=
  vs.reverse.find? fun v => (v.action.output v.engine).any fun x => x.address == a

theorem lastAt?_append (ds ds' : List Deposit) (a : UInt16) :
    lastAt? (ds ++ ds') a = (lastAt? ds' a).or (lastAt? ds a) := by
  unfold lastAt?
  rw [List.reverse_append, List.find?_append, Option.map_or]

/-- The bytes of an action have one location. -/
theorem lastAt?_map (es : List Emission) (loc : Location) (a : UInt16) :
    lastAt? (es.map fun x => ⟨x, loc⟩) a = if es.any (·.address == a) then some loc else none := by
  unfold lastAt?
  rw [← List.map_reverse, List.find?_map, Option.map_map]
  cases hfind : es.reverse.find? ((fun d : Deposit => d.emission.address == a) ∘ fun x => ⟨x, loc⟩) with
  | none =>
      have hany : ¬es.any (·.address == a) = true := by simpa using hfind
      exact (if_neg hany).symm
  | some x =>
      have hx := List.find?_some hfind
      have hany : es.any (·.address == a) = true :=
        List.any_eq_true.mpr ⟨x, List.mem_reverse.mp (List.mem_of_find?_eq_some hfind), hx⟩
      exact (if_pos hany).symm

/-- The last byte at an address is from the last action that stores one there. -/
theorem lastAt?_deposits (vs : List Visit) (a : UInt16) :
    lastAt? (deposits vs) a = (lastStoring? vs a).map (·.action.location) := by
  induction vs using List.reverseRecOn with
  | nil => rfl
  | append_singleton vs v ih =>
      have hlast : lastStoring? (vs ++ [v]) a =
          if (v.action.output v.engine).any (·.address == a) then some v else lastStoring? vs a := by
        unfold lastStoring?
        rw [List.reverse_append, List.reverse_singleton, List.singleton_append, List.find?_cons]
        cases (v.action.output v.engine).any (·.address == a) <;> rfl
      unfold deposits at ih ⊢
      rw [List.flatMap_append, List.flatMap_singleton, lastAt?_append, lastAt?_map, hlast, ih]
      split
      · rfl
      · rfl

/-- An address has a last byte just if a byte was stored there. -/
theorem isSome_lastAt? (ds : List Deposit) (a : UInt16) :
    (lastAt? ds a).isSome = true ↔ a ∈ ds.map (·.emission.address) := by
  unfold lastAt?
  rw [Option.isSome_map, List.find?_isSome, List.mem_map]
  simp

theorem isSome_lookup {κ : Type} [BEq κ] [LawfulBEq κ] (es : List (κ × α)) (k : κ) :
    (es.lookup k).isSome = true ↔ k ∈ es.map (·.1) := by
  rw [lookup_eq_find?, Option.isSome_map, List.find?_isSome, List.mem_map]
  simp

namespace Engine.Records

variable {ds : List Deposit} {e : Engine}

theorem lookup_source_eq (h : e.Records ds) (hfinal : e.isFinal = true) (a : UInt16) :
    e.source.lookup a = lastAt? ds a := by
  rw [h.source hfinal, ← List.map_reverse, lookup_eq_find?, List.find?_map, Option.map_map]
  rfl

/-- The map of a program tells of each address where the last byte there came from. -/
theorem locationOf_eq (h : e.Records ds) (hfinal : e.isFinal = true) (a : UInt16) :
    (Program.ofEngine e).locationOf a = lastAt? ds a :=
  (Program.lookup_source e a).trans (h.lookup_source_eq hfinal a)

/-- The map of a program has the addresses of the regions. -/
theorem mem_source_iff (h : e.Records ds) (hfinal : e.isFinal = true) (a : UInt16) :
    a ∈ (Program.ofEngine e).source.map (·.1) ↔ ∃ r ∈ e.regions, r.contains a = true := by
  have hreverse : (∃ r ∈ e.regions, r.contains a = true) ↔
      ∃ r ∈ e.regions.reverse, r.contains a = true := by
    simp only [List.mem_reverse]
  rw [← isSome_lookup, Program.lookup_source, h.lookup_source_eq hfinal, isSome_lastAt?, hreverse,
    ← Region.mem_addresses_iff h.tiled.placed]
  show _ ↔ a ∈ e.emissions.map Emission.address
  rw [h.emissions, List.map_map]
  rfl

end Engine.Records

/-! ## Operations -/

/-- What can be done to an engine. -/
inductive Operation where
  /-- Start a pass. -/
  | begin (p : Pass)
  /-- Make loop counters. -/
  | counters (n : Nat)
  | declareVariable (name parent : String)
  | declareLabel (name : String) (synthetic : Bool) (parent : String)
  | push (v : Int64)
  | pop
  | get (name : String)
  | set (name : String) (v : Int64)
  | placeLabel (name : String) (synthetic : Bool)
  /-- Emit a byte or a word. -/
  | emit (kind : RegionKind) (word : Bool) (v : Int64)
  | jump (j : Int)
  /-- Run a single action. -/
  | run (a : Action)
  | evaluate (expr : List Action)
  /-- Execute code in the pass that is in progress. -/
  | execute (code : Code)
  /-- Execute code in a pass of its own. -/
  | pass (verbose : Bool) (code : Code) (p : Pass)

namespace Operation

/-- The effect of an operation. -/
def perform : Operation → EngineM Unit
  | begin p => modify (Engine.begin p)
  | counters n => modify fun e => { e with counters := Array.replicate n 0 }
  | declareVariable name parent => Engine.declareVariable name parent
  | declareLabel name synthetic parent => do
    let _ ← Engine.declareLabel name synthetic parent
  | push v => Engine.push v
  | pop => do
    let _ ← Engine.pop
  | get name => do
    let _ ← Engine.readSymbol name
  | set name v => Engine.assign name v
  | placeLabel name synthetic => Engine.placeLabel name synthetic
  | emit kind word v => Engine.emitSized kind word v
  | jump j => Engine.requestJump j
  | run a => a.run
  | evaluate expr => do
    let _ ← Mos6510.evaluate expr
  | execute code => code.execute
  | pass verbose code p => Assembler.runPass verbose code p

/-- Does the operation start a pass? -/
def isStart : Operation → Bool
  | begin _ | pass _ _ _ => true
  | _ => false

/-- The engine with which an operation begins, cleared if it starts a pass. -/
def startFrom : Operation → Engine → Engine
  | begin p, e => e.begin p
  | pass _ code p, e => code.start p e
  | _, e => e

/-- The bytes that an operation stores, be it a success or not, each with the location of
the action in progress. -/
def deposits : Operation → Engine → List Deposit
  | emit kind word v, e => (e.output kind (Engine.sizedBytes word v)).map fun x => ⟨x, e.location⟩
  | run a, e => (a.output e).map fun x => ⟨x, e.location⟩
  | evaluate expr, e => ((eachVisits expr e).flatMap Visit.output).map fun x => ⟨x, e.location⟩
  | execute code, e => Mos6510.deposits (code.executed e)
  | pass _ code p, e => Mos6510.deposits (code.executed (code.start p e))
  | _, _ => []

theorem perform_receives (op : Operation) (e : Engine) :
    (op.startFrom e).Receives (op.deposits e) (last (op.perform e)) ∧
      ∀ err e', op.perform e = .error err e' → err.Fits := by
  -- an operation that starts no pass only adds what it stores
  have hstores : ∀ {es : List Emission} {r : EStateM.Result Error Engine Unit}, Stores es e r →
      e.Receives (es.map fun x => ⟨x, e.location⟩) (last r) ∧ ∀ err e', r = .error err e' → err.Fits :=
    fun h => ⟨h.receives, h.fits⟩
  cases op with
  | begin p => exact ⟨.of_shown rfl, fun _ _ hr => by cases hr⟩
  | counters n => exact ⟨.of_shown rfl, fun _ _ hr => by cases hr⟩
  | declareVariable name parent => exact hstores (Engine.declareVariable_storesNone name parent e)
  | declareLabel name synthetic parent =>
      exact hstores (((Engine.declareLabel_storesNone name synthetic parent).bind fun _ => .pure ()) e)
  | push v => exact hstores (Engine.push_storesNone v e)
  | pop => exact hstores ((Engine.pop_storesNone.bind fun _ => .pure ()) e)
  | get name => exact hstores (((Engine.readSymbol_storesNone name).bind fun _ => .pure ()) e)
  | set name v => exact hstores (Engine.assign_storesNone name v e)
  | placeLabel name synthetic => exact hstores (Engine.placeLabel_storesNone name synthetic e)
  | emit kind word v => exact hstores (Engine.emitSized_stores kind word v e)
  | jump j => exact hstores (Engine.requestJump_storesNone j e)
  | run a => exact hstores (a.run_stores e)
  | evaluate expr =>
      have hvalue := (runEach_stores expr e).bind_storesNone fun _ => Engine.pop_storesNone
      exact hstores (hvalue.bind_storesNone fun _ => .pure ())
  | execute code => exact ⟨code.execute_receives e, fun _ _ => Code.execute_fits⟩
  | pass verbose code p =>
      exact ⟨Assembler.runPass_receives verbose code p e, fun _ _ => Assembler.runPass_fits⟩

theorem startFrom_records {ds : List Deposit} {e : Engine} (h : e.Records ds) (op : Operation) :
    (op.startFrom e).Records (if op.isStart then [] else ds) := by
  cases op with
  | begin p => exact .of_fresh rfl rfl fun hfinal => if_pos hfinal
  | pass verbose code p => exact .of_fresh rfl rfl fun hfinal => if_pos hfinal
  | _ => exact h

end Operation

/-- An engine, and the bytes that were stored since the last start of a pass. -/
structure History where
  engine : Engine
  deposits : List Deposit

namespace History

/-- What comes of an operation.  Those that fail have an effect, too. -/
def perform (h : History) (op : Operation) : History where
  engine := last (op.perform h.engine)
  deposits := (if op.isStart then [] else h.deposits) ++ op.deposits h.engine

/-- Whatever operation is performed, the engine keeps record. -/
theorem perform_records {h : History} (hrecords : h.engine.Records h.deposits) (op : Operation) :
    (h.perform op).engine.Records (h.perform op).deposits :=
  (op.startFrom_records hrecords).receives (op.perform_receives h.engine).1

end History

/-- What comes of operations on a new engine. -/
def performOps (verbose : Bool) (ops : List Operation) : History :=
  ops.foldl History.perform ⟨{ verbose := verbose }, []⟩

theorem records_of_performOps (verbose : Bool) (ops : List Operation) :
    (performOps verbose ops).engine.Records (performOps verbose ops).deposits := by
  induction ops using List.reverseRecOn with
  | nil => exact .of_fresh rfl rfl nofun
  | append_singleton ops op ih =>
      unfold performOps at ih ⊢
      rw [List.foldl_append]
      exact History.perform_records ih op

/-- Whatever is done to a new engine, and whether it succeeds or fails, the program counter
is an address, the regions have bytes, lie in memory and do not go on with one another, and
they hold just the bytes that were emitted since the last start of a pass, in order.  So no
operation finds a region full.  After a final pass the source map has just the addresses of
the regions, each with the location of the last action that stored a byte there. -/
theorem performOps_records (verbose : Bool) (ops : List Operation) :
    let h := performOps verbose ops
    h.engine.Records h.deposits ∧
      (∀ (op : Operation) err e', op.perform h.engine = .error err e' → .regionOverflow ∉ err.chain) ∧
      ∀ verbose code e', Assembler.runPass verbose code .final h.engine = .ok () e' →
        let p := Program.ofEngine e'
        let vs := code.executed (code.start .final h.engine)
        p.source.Pairwise (fun x y => x.1 < y.1) ∧
          (∀ a, a ∈ p.source.map (·.1) ↔ ∃ r ∈ e'.regions, r.contains a = true) ∧
          ∀ a, p.locationOf a = (lastStoring? vs a).map (·.action.location) := by
  intro h
  have hrecords : h.engine.Records h.deposits := records_of_performOps verbose ops
  refine ⟨hrecords, fun op => (op.perform_receives h.engine).2, ?_⟩
  intro verbose code e' hrun p vs
  have hreceives := Assembler.runPass_receives verbose code .final h.engine
  rw [hrun] at hreceives
  -- a pass starts with no region, so all that it shows is its own
  have hstart : (code.start .final h.engine).Records [] := .of_fresh rfl rfl fun _ => rfl
  have hend : e'.Records (deposits vs) := hstart.receives hreceives
  have hfinal : e'.isFinal = true := by
    unfold Engine.isFinal
    rw [show e'.pass = .final from hreceives.pass]
    rfl
  refine ⟨Program.source_strict e', hend.mem_source_iff hfinal, fun a => ?_⟩
  rw [hend.locationOf_eq hfinal, lastAt?_deposits]

/-- A byte below the top of memory, where the program counter is cut to sixteen bits. -/
def belowTop : List Operation := [.begin .first, .set "@" 0x2FFFE, .emit .data false 1]

/-- Two actions that store a byte at one address, and one that stores one elsewhere. -/
def storedTwice : Code where
  actions := [.load ⟨"a", 1⟩ 0x1000, .set ⟨"a", 1⟩ "@", .plain ⟨"a", 2⟩ (.text false [7, 8]),
    .load ⟨"a", 3⟩ 0x1000, .set ⟨"a", 3⟩ "@", .plain ⟨"a", 4⟩ (.text false [9])]
  targets := #[]
  counters := 0

theorem performOps_records_belowTop :
    let h := performOps false belowTop
    h.engine.Records [⟨⟨0xFFFE, .data, 1⟩, {}⟩] ∧
      (∃ err e', (Operation.emit .data true 0x302).perform h.engine = .error err e' ∧
        .regionOverflow ∉ err.chain ∧
        e'.emissions = [⟨0xFFFE, .data, 1⟩, ⟨0xFFFF, .data, 2⟩]) ∧
      ∃ e', Assembler.runPass false storedTwice .final h.engine = .ok () e' ∧
        (Program.ofEngine e').locationOf 0x1000 = some ⟨"a", 4⟩ ∧
        (Program.ofEngine e').locationOf 0x1001 = some ⟨"a", 2⟩ := by
  intro h
  obtain ⟨hrecords, hfits, hsource⟩ := performOps_records false belowTop
  have hdeposits : h.deposits = [⟨⟨0xFFFE, .data, 1⟩, {}⟩] := by decide +kernel
  refine ⟨hdeposits ▸ hrecords, ?_, ?_⟩
  · have hend : (last ((Operation.emit .data true 0x302).perform h.engine)).emissions =
        [⟨0xFFFE, .data, 1⟩, ⟨0xFFFF, .data, 2⟩] := by
      decide +kernel
    have hfails : isOkWith (fun _ _ => true)
        ((Operation.emit .data true 0x302).perform h.engine) = false := by
      decide +kernel
    cases hemit : (Operation.emit .data true 0x302).perform h.engine with
    | ok u e' =>
        rw [hemit] at hfails
        cases hfails
    | error err e' =>
        rw [hemit] at hend
        exact ⟨err, e', rfl, hfits _ err e' hemit, hend⟩
  · have hrun : isOkWith (fun _ _ => true)
        (Assembler.runPass false storedTwice .final h.engine) = true := by
      decide +kernel
    obtain ⟨u, e', hok, -⟩ := exists_of_isOkWith hrun
    obtain ⟨-, -, hlocation⟩ := hsource false storedTwice e' hok
    refine ⟨e', hok, ?_, ?_⟩
    · rw [hlocation]
      decide +kernel
    · rw [hlocation]
      decide +kernel

end Mos6510
