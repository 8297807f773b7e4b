import Mos6510.Proofs.Scope
import Mos6510.Proofs.Stages

/-!
# References to labels

A read of a label before it is placed sees the value of the pass before, and
a read after that sees the value of this pass.  For a label that is placed at
most once the two agree with each other and with the program: the final pass
ends with the layout of the first, and nothing but a placement changes a
label (`labelValue_symbolTraced`).
-/

namespace Mos6510

open Outcome

/-! ## Placements among the visits -/

namespace Visit

/-- Is this a placement of the label with a full name? -/
def places (full : String) (v : Visit) : Bool :=
  match v.action.op with
  | .label name _ =>
    match qualify name v.engine.parent with
    | .ok name => name == full
    | .error _ => false
  | _ => false

/-- The value that a placement gives to its label. -/
def placement (v : Visit) : Int64 :=
  match v.action.op with
  | .label _ synthetic =>
    match v.engine.labelAddress? synthetic with
    | some a => Int64.ofNat a.toNat
    | none => 0
  | _ => 0

/-- Is this a read of the symbol with a full name? -/
def reads (full : String) (v : Visit) : Bool :=
  match v.action.op with
  | .get name =>
    match qualify name v.engine.parent with
    | .ok name => name == full
    | .error _ => false
  | _ => false

theorem reads_iff {full : String} {v : Visit} :
    v.reads full = true ↔
      ∃ name, v.action.op = .get name ∧ qualify name v.engine.parent = .ok full := by
  unfold reads
  cases hop : v.action.op with
  | get name => cases hq : qualify name v.engine.parent <;> simp [hq]
  | _ => simp

end Visit

/-- The value of a label after some visits: that of its latest placement, or
else the one it had before. -/
def latestValue (full : String) (before : Int64) (vs : List Visit) : Int64 :=
  vs.foldl (fun x v => if v.places full then v.placement else x) before

theorem latestValue_append (full : String) (x : Int64) (vs ws : List Visit) :
    latestValue full x (vs ++ ws) = latestValue full (latestValue full x vs) ws :=
  List.foldl_append

/-- Without a placement the value stays. -/
theorem latestValue_of_countP_eq_zero {full : String} {vs : List Visit}
    (h : vs.countP (·.places full) = 0) (x : Int64) : latestValue full x vs = x := by
  induction vs with
  | nil => rfl
  | cons v rest ih =>
      rw [List.countP_eq_zero] at h
      obtain ⟨hv, hrest⟩ := List.forall_mem_cons.mp h
      show latestValue full (if v.places full then v.placement else x) rest = x
      rw [if_neg hv]
      exact ih (List.countP_eq_zero.mpr hrest)

/-- With at most one placement, the value at any time is the first one or the
last one. -/
theorem latestValue_of_countP_le_one {full : String} {vs ws : List Visit}
    (h : (vs ++ ws).countP (·.places full) ≤ 1) (x : Int64) :
    latestValue full x vs = x ∨ latestValue full x vs = latestValue full x (vs ++ ws) := by
  rw [List.countP_append] at h
  rcases Nat.eq_zero_or_pos (vs.countP (·.places full)) with hvs | hvs
  · exact .inl (latestValue_of_countP_eq_zero hvs x)
  · have hws : ws.countP (·.places full) = 0 := by omega
    right
    rw [latestValue_append, latestValue_of_countP_eq_zero hws]

theorem latestValue_of_not_label {full : String} {a : Action} {e : Engine} {x : Int64}
    (h : ∀ name synthetic, a.op ≠ .label name synthetic) :
    latestValue full x [⟨a, e⟩] = x := by
  refine latestValue_of_countP_eq_zero ?_ x
  rw [List.countP_eq_zero]
  intro v hv
  obtain rfl := List.mem_singleton.mp hv
  unfold Visit.places
  split
  · exact absurd ‹_› (h _ _)
  · exact Bool.false_ne_true

theorem latestValue_of_label {full n name : String} {synthetic : Bool} {a : Action} {e : Engine}
    {addr : UInt16} {x : Int64} (hop : a.op = .label name synthetic)
    (hq : qualify name e.parent = .ok n) (haddr : e.labelAddress? synthetic = some addr) :
    latestValue full x [⟨a, e⟩] = if n = full then Int64.ofNat addr.toNat else x := by
  show (if Visit.places full ⟨a, e⟩ then Visit.placement ⟨a, e⟩ else x) = _
  simp only [Visit.places, Visit.placement, hop, hq, haddr, beq_iff_eq]

/-! ## Values of labels along a run -/

def Engine.labelValue? (e : Engine) (full : String) : Option Int64 :=
  (e.labels.find? full).map Cell.value

theorem SymbolTable.Pointwise.value?_eq {r : String → Cell → Cell → Prop} {t u : SymbolTable}
    (h : Pointwise r t u) (hr : ∀ n c d, r n c d → c.value = d.value) (n : String) :
    (u.find? n).map Cell.value = (t.find? n).map Cell.value := by
  rcases h.find? n with ⟨ht, hu⟩ | ⟨c, d, ht, hu, hcd⟩
  · rw [ht, hu]
  · rw [ht, hu, Option.map_some, Option.map_some, hr n c d hcd]

/-- Each name stands for one symbol all along, and a label has the value of
its latest placement. -/
theorem labelValue_symbolTraced (full : String) (x : Int64) :
    SymbolTraced fun past e =>
      e.NamesApart ∧ e.labelValue? full = some (latestValue full x past) where
  scope := by
    intro _ e e' h hpast
    simp only [Engine.scope, Prod.mk.injEq] at h
    obtain ⟨-, hvars, hlabels, -⟩ := h
    refine ⟨hpast.1.of_names (by rw [hvars]) (by rw [hlabels]), ?_⟩
    unfold Engine.labelValue?
    rw [hlabels]
    exact hpast.2
  step := by
    intro past e e' a hpast hstep _
    obtain ⟨hapart, hvalue⟩ := hpast
    unfold Engine.labelValue? at hvalue ⊢
    rw [latestValue_append]
    cases hstep with
    | read hvars hlabels _ hlabel =>
        refine ⟨hapart.of_names hvars.names_eq.symm hlabels.names_eq.symm, ?_⟩
        rw [hlabels.value?_eq (fun _ _ _ hcd => hcd.1), hvalue,
          latestValue_of_not_label hlabel]
    | assign name n v hop hq hc hvars hlabels _ =>
        -- an assignment places nothing, so the latest value stays
        have hlabel : ∀ name synthetic, a.op ≠ .label name synthetic := by
          intro _ _ h
          rw [hop] at h
          cases h
        refine ⟨hapart.of_names (by rw [hvars, SymbolTable.names_update]) (by rw [hlabels]), ?_⟩
        rw [hlabels, hvalue, latestValue_of_not_label hlabel]
    | place name n synthetic addr hop hq hc haddr hlabels hvars _ =>
        refine ⟨hapart.of_names (by rw [hvars]) (by rw [hlabels, SymbolTable.names_update]), ?_⟩
        rw [hlabels, SymbolTable.find?_update, latestValue_of_label hop hq haddr]
        -- the label placed is this one, or the tables agree about it
        by_cases hn : full = n
        · subst hn
          obtain ⟨c, hc, -⟩ := Option.map_eq_some_iff.mp hvalue
          rw [if_pos rfl, if_pos rfl, hc]
          rfl
        · rw [if_neg hn, if_neg (Ne.symm hn)]
          exact hvalue
  enter := by
    intro past e a hmsg hpast
    refine ⟨hpast.1, ?_⟩
    rw [latestValue_append, latestValue_of_not_label]
    · exact hpast.2
    · intro name synthetic h
      rw [h] at hmsg
      cases hmsg

/-- A label is read from its own cell. -/
theorem Engine.NamesApart.cell?_label {e : Engine} (h : e.NamesApart) {full : String} {x : Int64}
    (hx : e.labelValue? full = some x) : ∃ c, e.cell? full = some c ∧ c.value = x := by
  obtain ⟨c, hc, hcx⟩ := Option.map_eq_some_iff.mp hx
  obtain ⟨hpc, hvars⟩ := h.apart full
    (SymbolTable.contains_iff.mp (SymbolTable.contains_of_find? hc))
  refine ⟨c, ?_, hcx⟩
  unfold Engine.cell?
  rw [if_neg (by simpa using hpc)]
  cases hv : e.vars.find? full with
  | some d => exact absurd (SymbolTable.contains_iff.mp (SymbolTable.contains_of_find? hv)) hvars
  | none => exact hc

/-- In a run that ends with the value that it started with, every read of a
label that is placed at most once pushes that value. -/
theorem Code.Runs.read_pushes {code : Code} {n : Nat} {k : List Action} {e e' : Engine}
    {vs : List Visit} (h : code.Runs n k e vs e') (hapart : e.NamesApart) {full : String}
    {v : Int64} (hstart : e.labelValue? full = some v) (hend : e'.labelValue? full = some v)
    (honce : vs.countP (·.places full) ≤ 1) {x : Visit} (hx : x ∈ vs) (hread : x.reads full = true) :
    ∃ e₁, x.action.run x.engine = .ok () e₁ ∧ e₁.stack.values = v :: x.engine.stack.values := by
  obtain ⟨name, hget, hq⟩ := Visit.reads_iff.mp hread
  obtain ⟨before, after, rfl⟩ := List.append_of_mem hx
  obtain ⟨halong, -, hlast⟩ := (labelValue_symbolTraced full v).along h ⟨hapart, hstart⟩
  obtain ⟨⟨hapart', hvalue⟩, e₁, hrun⟩ := halong.visit
  rw [List.nil_append] at hvalue
  -- before the placement the value is that of the start, after it that of the end
  have hv : latestValue full v before = v := by
    rcases latestValue_of_countP_le_one honce v with hfirst | hsame
    · exact hfirst
    · rw [hsame]
      exact Option.some.inj (hlast.symm.trans hend)
  rw [hv] at hvalue
  obtain ⟨c, hc, rfl⟩ := hapart'.cell?_label hvalue
  obtain ⟨⟨loc, op, expansion⟩, engine⟩ := x
  obtain rfl : op = .get name := hget
  obtain ⟨full', c', hq', hc', -, hpush, -⟩ := Op.run_get_eq_ok loc hrun
  obtain rfl : full = full' := Except.ok.inj (hq.symm.trans hq')
  obtain rfl : c = c' := Option.some.inj (hc.symm.trans hc')
  exact ⟨e₁, hrun, hpush⟩

/-! ## The final pass -/

namespace Assembler

/-- The visits of the final pass of an assembly. -/
def finalTrace (asm : Assembler) (actions : List Action) (s : Session) : List Visit :=
  match asm.prepare actions s with
  | .error _ _ => []
  | .ok (code, e₀) s =>
    match (runPass asm.verbose code .warmUp >>= fun _ => runPass asm.verbose code .first)
        { e₀ with log := s.log } with
    | .error _ _ => []
    | .ok _ f => code.passTrace .final f

/-- The final pass of an assembly makes these visits, and reports to the log. -/
theorem exists_passes_finalTrace {asm : Assembler} {actions : List Action} {s s₁ : Session}
    {code : Code} {e₀ w f n : Engine} (hprepare : asm.prepare actions s = .ok (code, e₀) s₁)
    (hstages : Stages asm.verbose code { e₀ with log := s₁.log } w f n) :
    ∃ e entry, code.Passes .final f (asm.finalTrace actions s) e ∧
      n = { e with log := e.log.addIf asm.verbose entry } := by
  obtain ⟨vs, e, hpasses, hreport⟩ := runPass_eq_ok_iff.mp hstages.final
  have htwo : (runPass asm.verbose code .warmUp >>= fun _ => runPass asm.verbose code .first)
      { e₀ with log := s₁.log } = .ok () f :=
    bind_eq_ok.mpr ⟨(), w, hstages.warmUp, hstages.first⟩
  have htrace : asm.finalTrace actions s = vs := by
    unfold finalTrace
    simp only [hprepare, htwo]
    exact hpasses.trace_eq
  rw [htrace]
  exact ⟨e, _, hpasses, hreport⟩

theorem passes_finalTrace {asm : Assembler} {actions : List Action} {s s₁ : Session} {code : Code}
    {e₀ w f n : Engine} (hprepare : asm.prepare actions s = .ok (code, e₀) s₁)
    (hstages : Stages asm.verbose code { e₀ with log := s₁.log } w f n) :
    ∃ e, code.Passes .final f (asm.finalTrace actions s) e ∧ e.labels = n.labels := by
  obtain ⟨e, log, hpasses, rfl⟩ := exists_passes_finalTrace hprepare hstages
  exact ⟨e, hpasses, rfl⟩

/-- The stages keep each name to one symbol. -/
theorem Stages.namesApart {verbose : Bool} {code : Code} {e₀ w f n : Engine}
    (h : Stages verbose code e₀ w f n) (h₀ : e₀.NamesApart) : f.NamesApart ∧ n.NamesApart := by
  obtain ⟨hv₁, hl₁⟩ := runPass_grows h.warmUp
  obtain ⟨hv₂, hl₂⟩ := runPass_grows h.first
  obtain ⟨hv₃, hl₃⟩ := runPass_grows h.final
  have hf := h₀.of_names (hv₁.trans hv₂).names_eq.symm (hl₁.trans hl₂).names_eq.symm
  exact ⟨hf, hf.of_names hv₃.names_eq.symm hl₃.names_eq.symm⟩

/-- A label that is listed in the program has its value at the start and at
the end of the final pass. -/
theorem labelValue?_of_lookup_program {e f : Engine} (he : e.NamesApart) (hf : f.NamesApart)
    (hlayout : Layout.ofEngine e = Layout.ofEngine f) {full : String} {v : Int64}
    (hv : (Program.ofEngine e).labels.lookup full = some v) :
    e.labelValue? full = some v ∧ f.labelValue? full = some v := by
  have hmem : (full, v) ∈ e.labels.values := by
    obtain ⟨before, after, heq, -⟩ := List.lookup_eq_some_iff.mp hv
    have : (full, v) ∈ (Program.ofEngine e).labels := heq ▸ List.mem_append_cons_self
    exact List.mem_mergeSort.mp this
  have hvalues : e.labels.values = f.labels.values := congrArg Layout.labels hlayout
  obtain ⟨c, hc, rfl⟩ := SymbolTable.find?_of_mem_values he.labels hmem
  obtain ⟨d, hd, hdc⟩ := SymbolTable.find?_of_mem_values hf.labels (hvalues ▸ hmem)
  exact ⟨Option.map_eq_some_iff.mpr ⟨c, hc, rfl⟩, Option.map_eq_some_iff.mpr ⟨d, hd, hdc⟩⟩

/-- References use the final address: in the final pass of an assembly, every
read of a label that is placed at most once pushes the value that the program
lists for it, be the read before or after the placement. -/
theorem reads_push_program_value (asm : Assembler) (actions : List Action) (s s' : Session)
    (a : Assembly) (h : asm.assemble actions s = .ok a s') (full : String) (v : Int64)
    (hv : a.program.labels.lookup full = some v)
    (honce : (asm.finalTrace actions s).countP (·.places full) ≤ 1)
    (x : Visit) (hx : x ∈ asm.finalTrace actions s) (hread : x.reads full = true) :
    ∃ e, x.action.run x.engine = .ok () e ∧ e.stack.values = v :: x.engine.stack.values := by
  obtain ⟨e₀, s₁, w, f, hprepare, hstages, hlayout, -⟩ := assemble_eq_ok_iff.mp h
  obtain ⟨n, hpasses, hlabels⟩ := passes_finalTrace hprepare hstages
  have hnames : e₀.NamesApart := (prepare_declared ⟨s, s₁, hprepare⟩).toNamesApart
  obtain ⟨hf, ha⟩ := hstages.namesApart (hnames.of_names rfl rfl)
  obtain ⟨hend, hstart⟩ := labelValue?_of_lookup_program ha hf hlayout hv
  refine hpasses.read_pushes (hf.of_names rfl rfl) hstart ?_ honce hx hread
  unfold Engine.labelValue? at hend ⊢
  rw [hlabels]
  exact hend

/-- A label between two words that hold its address. -/
def wordsAround : List Action :=
  [.load {} 0x1000, .set {} "@", .get {} "mid", .plain {} (.data true),
    .plain {} (.label "mid" false), .get {} "mid", .plain {} (.data true)]

theorem reads_push_program_value_wordsAround :
    ∃ a s', ({} : Assembler).assemble wordsAround {} = .ok a s' ∧
      a.program.labels.lookup "mid" = some 0x1002 ∧
      (({} : Assembler).finalTrace wordsAround {}).countP (·.places "mid") = 1 ∧
      (({} : Assembler).finalTrace wordsAround {}).countP (·.reads "mid") = 2 ∧
      ∀ x ∈ ({} : Assembler).finalTrace wordsAround {}, x.reads "mid" = true →
        ∃ e, x.action.run x.engine = .ok () e ∧
          e.stack.values = 0x1002 :: x.engine.stack.values := by
  have hrun : isOkWith (fun a _ => a.program.labels.lookup "mid" == some 0x1002)
      (({} : Assembler).assemble wordsAround {}) = true := by
    decide +kernel
  obtain ⟨a, s', h, hv⟩ := exists_of_isOkWith hrun
  have hv : a.program.labels.lookup "mid" = some 0x1002 := by simpa using hv
  have honce : (({} : Assembler).finalTrace wordsAround {}).countP (·.places "mid") = 1 := by
    decide +kernel
  refine ⟨a, s', h, hv, honce, by decide +kernel, fun x hx hread => ?_⟩
  exact reads_push_program_value {} wordsAround {} s' a h "mid" 0x1002 hv
    (Nat.le_of_eq honce) x hx hread

end Assembler

end Mos6510
