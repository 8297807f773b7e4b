import Mos6510.Proofs.Disassembly

/-!
# The bytes of a pass

Every visit of the final pass emits some bytes, from the program counter on
(`Visit.emissions`).  The regions hold just these bytes, in the order in which
they were emitted (`Code.Passes.emissions_eq`), and no region leaves memory.
-/

namespace Mos6510

open Outcome

/-! ## Bytes at addresses -/

/-- A byte that goes to an address. -/
structure Emission where
  address : UInt16
  kind : RegionKind
  byte : UInt8
  deriving DecidableEq, Repr

/-- Bytes of one kind at consecutive addresses. -/
def consecutive (kind : RegionKind) : UInt16 → List UInt8 → List Emission
  | _, [] => []
  | a, b :: bs => ⟨a, kind, b⟩ :: consecutive kind (a + 1) bs

theorem add_ofNat_succ (a : UInt16) (n : Nat) :
    a + UInt16.ofNat (n + 1) = a + 1 + UInt16.ofNat n := by
  rw [UInt16.ofNat_add, UInt16.add_assoc, UInt16.add_comm 1]
  rfl

theorem consecutive_append (kind : RegionKind) (a : UInt16) (bs cs : List UInt8) :
    consecutive kind a (bs ++ cs) =
      consecutive kind a bs ++ consecutive kind (a + UInt16.ofNat bs.length) cs := by
  induction bs generalizing a with
  | nil => simp [consecutive]
  | cons b bs ih =>
      rw [List.cons_append, consecutive, consecutive, ih, List.length_cons, add_ofNat_succ]
      rfl

/-- The bytes of a region at their addresses. -/
def Region.emissions (r : Region) : List Emission := consecutive r.kind r.start r.bytes.toList

/-- The region has bytes, and all of them are in memory. -/
structure Region.Placed (r : Region) : Prop where
  size_pos : 0 < r.size
  stop_le : r.stop ≤ 0x10000

namespace Engine

/-- The bytes that the regions hold, in the order in which they were emitted. -/
def emissions (e : Engine) : List Emission := e.regions.reverse.flatMap Region.emissions

/-- The place of a byte that goes on with a region is right behind it. -/
theorem address_of_goesOn {kind : RegionKind} {a : UInt16} {r : Region} (h : goesOn kind a r = true) :
    r.start + UInt16.ofNat r.bytes.toList.length = a := by
  simp only [goesOn, Bool.and_eq_true, beq_iff_eq, Region.stop, Region.size] at h
  have hlt := a.toNat_lt
  rw [← UInt16.toNat_inj, UInt16.toNat_add, UInt16.toNat_ofNat', Array.length_toList, ← h.2]
  simp only [Nat.reducePow]
  omega

theorem extendRegions_emissions (kind : RegionKind) (a : UInt16) (b : UInt8) (rs : List Region) :
    (extendRegions kind a b rs).reverse.flatMap Region.emissions =
      rs.reverse.flatMap Region.emissions ++ [⟨a, kind, b⟩] := by
  have hnew : (({ start := a, kind := kind } : Region).push b :: rs).reverse.flatMap
      Region.emissions = rs.reverse.flatMap Region.emissions ++ [⟨a, kind, b⟩] := by
    rw [List.reverse_cons, List.flatMap_append]
    rfl
  cases rs with
  | nil => exact hnew
  | cons r rest =>
      cases h : goesOn kind a r with
      | false =>
          rw [extendRegions, h]
          exact hnew
      | true =>
          have hkind : r.kind = kind := by
            simp only [goesOn, Bool.and_eq_true, beq_iff_eq] at h
            exact h.1
          have hpush : (r.push b).emissions = r.emissions ++ [⟨a, kind, b⟩] := by
            show consecutive r.kind r.start (r.bytes.push b).toList = _
            rw [Array.toList_push, consecutive_append, address_of_goesOn h, hkind, ← hkind]
            rfl
          rw [extendRegions, h, if_pos rfl]
          simp [List.flatMap_append, hpush]

theorem extendAll_emissions (kind : RegionKind) (a : UInt16) (bs : List UInt8) (rs : List Region) :
    (extendAll kind a bs rs).reverse.flatMap Region.emissions =
      rs.reverse.flatMap Region.emissions ++ consecutive kind a bs := by
  induction bs generalizing a rs with
  | nil => simp [extendAll, consecutive]
  | cons b bs ih => simp [extendAll, consecutive, ih, extendRegions_emissions]

theorem Emits.emissions {kind : RegionKind} {bs : List UInt8} {e e' : Engine} (h : Emits kind bs e e') :
    ∃ a, e.pcAddress? = some a ∧ e'.emissions = e.emissions ++ consecutive kind a bs := by
  obtain ⟨a, ha, -, rfl⟩ := h
  refine ⟨a, ha, ?_⟩
  unfold Engine.emissions
  rw [regions_emittedAll, extendAll_emissions]

/-! ## Regions stay in memory -/

theorem extendRegions_placed (kind : RegionKind) (a : UInt16) (b : UInt8) {rs : List Region}
    (h : ∀ r ∈ rs, r.Placed) : ∀ r ∈ extendRegions kind a b rs, r.Placed := by
  have hlt := a.toNat_lt
  -- one byte at an address below the end of memory
  have hnew : (({ start := a, kind := kind } : Region).push b).Placed := by
    refine ⟨Nat.one_pos, ?_⟩
    show a.toNat + 1 ≤ 0x10000
    omega
  cases rs with
  | nil =>
      intro r hr
      rw [List.mem_singleton.mp hr]
      exact hnew
  | cons r rest =>
      obtain ⟨hr, hrest⟩ := List.forall_mem_cons.mp h
      cases hgoes : goesOn kind a r with
      | false =>
          rw [extendRegions, hgoes]
          exact List.forall_mem_cons.mpr ⟨hnew, h⟩
      | true =>
          rw [extendRegions, hgoes, if_pos rfl]
          refine List.forall_mem_cons.mpr ⟨⟨?_, ?_⟩, hrest⟩
          · simp [Region.size, Region.push]
          · simp only [goesOn, Bool.and_eq_true, beq_iff_eq] at hgoes
            -- the region that goes on is one longer, and ends behind the new byte
            have hsize : (r.push b).stop = r.stop + 1 := by
              simp only [Region.stop, Region.size, Region.push, Array.size_push]
              omega
            omega

theorem extendAll_placed (kind : RegionKind) (a : UInt16) (bs : List UInt8) {rs : List Region}
    (h : ∀ r ∈ rs, r.Placed) : ∀ r ∈ extendAll kind a bs rs, r.Placed := by
  induction bs generalizing a rs with
  | nil => exact h
  | cons b bs ih => exact ih (a + 1) (extendRegions_placed kind a b h)

theorem Emits.placed {kind : RegionKind} {bs : List UInt8} {e e' : Engine} (h : Emits kind bs e e')
    (hplaced : ∀ r ∈ e.regions, r.Placed) : ∀ r ∈ e'.regions, r.Placed := by
  obtain ⟨a, -, -, rfl⟩ := h
  rw [regions_emittedAll]
  exact extendAll_placed kind a bs hplaced

/-- The bytes of a text are emitted one after the other. -/
theorem emitBytes_eq_ok {word : Bool} {bs : List UInt8} {e e' : Engine} {u : Unit}
    (h : emitBytes word bs e = .ok u e') :
    (bs = [] ∧ e' = e) ∨
      Emits .data (bs.flatMap fun b => sizedBytes word (Int64.ofNat b.toNat)) e e' := by
  induction bs generalizing e with
  | nil => exact .inl ⟨rfl, (pure_eq_ok.mp h).2⟩
  | cons b rest ih =>
      obtain ⟨_, e₁, hfirst, hrest⟩ := bind_eq_ok.mp h
      have hemits := emitSized_eq_ok.mp hfirst
      right
      rw [List.flatMap_cons]
      rcases ih hrest with ⟨rfl, rfl⟩ | hlast
      · simpa using hemits
      · exact (emits_append _ _).mpr ⟨e₁, hemits, hlast⟩

end Engine

/-! ## What a visit emits -/

namespace Visit

/-- The bytes that a visit emits. -/
def bytes (v : Visit) : List UInt8 :=
  match v.action.op, v.engine.stack.values with
  | .data word, x :: _ => Engine.sizedBytes word x
  | .text word bytes, _ => bytes.flatMap fun b => Engine.sizedBytes word (Int64.ofNat b.toNat)
  | .bytes _ bytes, length :: skip :: _ => Engine.selectBytes skip length bytes
  | _, _ => (v.instruction?.map Instruction.bytes).getD []

/-- Instructions are code, all else is data. -/
def kind (v : Visit) : RegionKind := if v.action.op.isInstruction then .code else .data

/-- The bytes go to the program counter and on from there. -/
def emissions (v : Visit) : List Emission :=
  match v.engine.pcAddress? with
  | some a => consecutive v.kind a v.bytes
  | none => []

end Visit

/-- What some visits emit. -/
def emissions (vs : List Visit) : List Emission := vs.flatMap Visit.emissions

/-- A byte is its own lowest byte. -/
theorem flatMap_sizedBytes (bs : List UInt8) :
    (bs.flatMap fun b => Engine.sizedBytes false (Int64.ofNat b.toNat)) = bs := by
  induction bs with
  | nil => rfl
  | cons b rest ih =>
      have hbyte : Engine.sizedBytes false (Int64.ofNat b.toNat) = [b] := by
        simp [Engine.sizedBytes]
      rw [List.flatMap_cons, hbyte, ih]
      rfl

theorem regions_overlooks : Overlooks Engine.regions where
  stack := fun _ _ => rfl
  jump := fun _ _ => rfl
  counters := fun _ _ => rfl
  log := fun _ _ => rfl

/-- Does the action emit bytes? -/
def Op.emits (op : Op) : Bool := op.isInstruction || op.isData

theorem Op.run_regions (op : Op) (loc : Location) (hemits : op.emits = false)
    (hmsg : op.isMessage = false) : Keeps Engine.regions (op.run loc) := by
  have hkeeps := regions_overlooks
  have hdata : op.isData = true → ∀ v, Keeps Engine.regions (Engine.emit .data v) := by
    intro hdata
    rw [Op.emits, hdata, Bool.or_true] at hemits
    cases hemits
  cases op with
  | load v => exact (startOperand_keeps fun _ _ => rfl).bind fun _ => hkeeps.push v
  | get name =>
      refine (startOperand_keeps fun _ _ => rfl).bind fun _ => Keeps.bind ?_ fun v => hkeeps.push v
      intro e v e' h
      obtain ⟨full, c, -, -, -, hcase⟩ := Engine.readSymbol_eq_ok.mp h
      obtain ⟨vars, labels, pc, heq, -⟩ := e.markRead_eq full c
      rcases hcase with ⟨-, rfl⟩ | ⟨-, -, rfl⟩ <;> rw [heq]
  | set name =>
      refine hkeeps.pop.bind fun v e u e' h => ?_
      obtain ⟨full, -, ⟨-, rfl⟩ | ⟨-, -, rfl⟩⟩ := Engine.assign_eq_ok.mp h <;> rfl
  | label name synthetic =>
      intro e u e' h
      obtain ⟨full, a, -, -, -, rfl⟩ := Engine.placeLabel_eq_ok.mp h
      rfl
  | instruction | width | data | text | bytes => cases hemits
  | message => cases hmsg
  | _ => exact Op.run_routine hkeeps.toDisregards _ hdata loc rfl

namespace Visit

theorem emissions_eq_nil {v : Visit} (h : v.action.op.emits = false) : v.emissions = [] := by
  have hbytes : v.bytes = [] := by
    obtain ⟨⟨loc, op, x⟩, e⟩ := v
    cases op with
    | instruction | width | data | text | bytes => cases h
    | _ =>
        unfold bytes
        rw [instruction?_eq_none rfl]
        rfl
  unfold emissions
  rw [hbytes]
  cases v.engine.pcAddress? <;> rfl

/-- What an operation does to the regions at a visit. -/
def Adds (v : Visit) (e' : Engine) : Prop :=
  e'.emissions = v.engine.emissions ++ v.emissions ∧
    ((∀ r ∈ v.engine.regions, r.Placed) → ∀ r ∈ e'.regions, r.Placed)

/-- The bytes of a visit were emitted after its operands were taken. -/
theorem Adds.of_emits {v : Visit} {e' : Engine} {s : Stack}
    (h : Engine.Emits v.kind v.bytes { v.engine with stack := s } e') : v.Adds e' := by
  obtain ⟨a, ha, heq⟩ := h.emissions
  have haddress : v.engine.pcAddress? = some a := ha
  refine ⟨?_, fun hplaced => h.placed hplaced⟩
  unfold emissions
  rw [haddress]
  exact heq

/-- In the final pass a visit adds to the regions what it emits. -/
theorem adds_of_run {v : Visit} {e' : Engine} (hpass : v.engine.pass = .final)
    (hmsg : v.action.op.isMessage = false) (hrun : v.action.run v.engine = .ok () e') :
    v.Adds e' := by
  obtain ⟨⟨loc, op, x⟩, e⟩ := v
  cases hemits : op.emits with
  | false =>
      have hregions : e'.regions = e.regions := Op.run_regions op loc hemits hmsg hrun
      have hnone := emissions_eq_nil (v := ⟨⟨loc, op, x⟩, e⟩) hemits
      unfold Adds Engine.emissions
      rw [hnone, hregions, List.append_nil]
      exact ⟨rfl, id⟩
  | true =>
      -- in the final pass a branch is written with its displacement, so its bytes can be told
      have hstrict : e.strict = true := Engine.strict_of_final hpass
      -- an instruction with its operand on the stack, be its width given or chosen
      have hencoded : ∀ opcode, (Visit.mk ⟨loc, op, x⟩ e).opcode? = some opcode →
          op.isInstruction = true → Engine.encode opcode e = .ok () e' →
          (Visit.mk ⟨loc, op, x⟩ e).Adds e' := by
        intro opcode hopcode hinstr hencode
        obtain ⟨y, s, a, htake, ha, -, hbytes⟩ := (Engine.encode_eq_ok_iff hstrict).mp hencode
        have hwhole : (Visit.mk ⟨loc, op, x⟩ e).instruction? = some ⟨a, opcode, y⟩ := by
          rw [instruction?, hopcode, Option.bind_some, ha, Option.bind_some, htake]
          rfl
        have hsame : (Visit.mk ⟨loc, op, x⟩ e).bytes = opcode.bytes a y := by
          unfold bytes
          rw [hwhole]
          cases op with
          | instruction | width => rfl
          | _ => cases hinstr
        have hkind : (Visit.mk ⟨loc, op, x⟩ e).kind = .code := if_pos hinstr
        refine .of_emits (s := s) ?_
        rw [hsame, hkind]
        exact hbytes
      cases op with
      | instruction code => exact hencoded _ rfl rfl hrun
      | width mnemonic index =>
          obtain ⟨y, rest, opcode, hs, hopcode, hencode⟩ := Engine.encodeWidth_eq_ok.mp hrun
          refine hencoded opcode ?_ rfl hencode
          have hs : e.stack.values = y :: rest := hs
          show e.stack.values.head?.bind _ = _
          rw [hs]
          exact hopcode
      | data word =>
          obtain ⟨y, e₁, hpop, hemit⟩ := bind_eq_ok.mp hrun
          obtain ⟨rest, hs, rfl⟩ := Engine.pop_eq_ok.mp hpop
          have hbytes : (Visit.mk ⟨loc, .data word, x⟩ e).bytes = Engine.sizedBytes word y := by
            unfold bytes
            rw [hs]
          refine .of_emits (s := ⟨rest⟩) ?_
          rw [hbytes]
          exact Engine.emitSized_eq_ok.mp hemit
      | text word bs =>
          rcases Engine.emitBytes_eq_ok hrun with ⟨rfl, rfl⟩ | hemit
          · unfold Adds emissions bytes
            refine ⟨?_, id⟩
            cases (Visit.mk ⟨loc, .text word [], x⟩ e').engine.pcAddress? <;> simp [consecutive]
          · exact .of_emits (s := e.stack) hemit
      | bytes name bs =>
          obtain ⟨length, e₁, hlength, hrest⟩ := bind_eq_ok.mp hrun
          obtain ⟨skip, e₂, hskip, hemit⟩ := bind_eq_ok.mp hrest
          obtain ⟨above, hs, rfl⟩ := Engine.pop_eq_ok.mp hlength
          obtain ⟨below, hs', rfl⟩ := Engine.pop_eq_ok.mp hskip
          have hs' : above = skip :: below := hs'
          have hbytes : (Visit.mk ⟨loc, .bytes name bs, x⟩ e).bytes =
              Engine.selectBytes skip length bs := by
            unfold bytes
            rw [hs, hs']
          rcases Engine.emitBytes_eq_ok hemit with ⟨hnone, rfl⟩ | hemit
          · unfold Adds emissions
            rw [hbytes, hnone]
            refine ⟨?_, id⟩
            cases (Visit.mk ⟨loc, .bytes name bs, x⟩ e).engine.pcAddress? <;> simp [consecutive] <;> rfl
          · refine .of_emits (s := ⟨below⟩) ?_
            rw [hbytes]
            rw [flatMap_sizedBytes] at hemit
            exact hemit
      | _ => cases hemits

end Visit

/-! ## The final pass -/

/-- The regions hold what the visits so far have emitted. -/
theorem emissions_traced : Traced fun past e =>
    e.pass = .final ∧ e.emissions = emissions past ∧ ∀ r ∈ e.regions, r.Placed where
  op := by
    rintro past e e' ⟨loc, op, x⟩ hmsg ⟨hpass, hpast, hplaced⟩ hrun
    obtain ⟨heq, hkeep⟩ := Visit.adds_of_run (v := ⟨⟨loc, op, x⟩, e⟩) hpass hmsg hrun
    refine ⟨(Op.run_symbolStep loc hmsg hrun).2.trans hpass, ?_, hkeep hplaced⟩
    rw [heq, hpast]
    simp [emissions]
  enter := by
    rintro past e a hmsg ⟨hpass, hpast, hplaced⟩
    -- only a message is entered, and it emits nothing
    have hemits : a.op.emits = false := by
      obtain ⟨loc, op, x⟩ := a
      cases op with
      | message => rfl
      | _ => cases hmsg
    refine ⟨hpass, ?_, hplaced⟩
    rw [hpast, emissions, emissions, List.flatMap_append, List.flatMap_singleton,
      Visit.emissions_eq_nil (v := ⟨a, e⟩) hemits, List.append_nil]
  pop := by
    rintro past e e' v h hrun
    obtain ⟨rest, -, rfl⟩ := Engine.pop_eq_ok.mp hrun
    exact h
  report := by
    rintro past e e' loc level formatted args h hrun
    obtain ⟨text, -, -, rfl⟩ := Engine.report_eq_ok.mp hrun
    exact h

/-- A final pass leaves in the regions just what its visits emit. -/
theorem Code.Passes.emissions_eq {code : Code} {e e' : Engine} {vs : List Visit}
    (h : code.Passes .final e vs e') :
    e'.emissions = emissions vs ∧ ∀ r ∈ e'.regions, r.Placed := by
  have hstart : (code.start .final e).pass = .final ∧
      (code.start .final e).emissions = emissions [] ∧
      ∀ r ∈ (code.start .final e).regions, r.Placed := ⟨rfl, rfl, nofun⟩
  obtain ⟨-, -, hend⟩ :=
    h.along emissions_traced (fun _ _ _ hpast => hpast) (fun _ _ hpast => hpast) hstart
  exact hend

end Mos6510
