import MaxSatPrep.Proofs.ReconstructionFrame
import MaxSatPrep.Proofs.Skipping
import MaxSatPrep.Proofs.Freezing
import MaxSatPrep.Proofs.ObjectiveCost
import MaxSatPrep.Proofs.SoftClauses
/-!
Reconstruction after clauses are added to an inprocessing session. An inprocessing engine never
eliminates a clause, so its trace is the fixing of its fixed literals (`Engine.FixesOnly.trace_eq`),
and reconstruction sets each fixed variable to its fixed value over the assignment. A clause added after
a propagation run may mention a fixed variable; nothing simplifies it until the next run, so an
assignment can satisfy it through that variable alone, and reconstruction then overrides it.

What reconstruction does uphold is every clause that the fixed literals and the hard rows on
variables not fixed imply (`Engine.Keeps`). Opening keeps every hard clause given
(`Session.openWith_keeps`), adding a clause none of whose variables is fixed keeps it
(`Engine.Keeps.added`), and every preprocessing step, added variable and added clause keeps what is
kept (`Engine.Keeps.step`, `Engine.Keeps.change`, `Session.Reachable.performAll_keeps`).

Main statement, `reconstruct_satisfies_unfixed_additions`: after any interleaving of preprocessing
calls with added variables and clauses, the reconstruction of an assignment satisfying the hard
clauses of the simplified instance satisfies every hard clause given at opening and every clause
added while none of its variables was fixed.
-/

namespace MaxSatPrep

open Session (intOf)

namespace Engine

/-! ## Traces of fixing events -/

theorem trace_eq_fixes {trace : List Event} (h : ∀ ev ∈ trace, ev.isBlocked = false) :
    trace = (trace.filterMap Event.fixed?).map .fix := by
  induction trace with
  | nil => rfl
  | cons ev trace ih =>
    have ih' := ih (fun ev' hev' => h ev' (List.mem_cons_of_mem _ hev'))
    cases ev with
    | fix l => simp only [List.filterMap_cons, Event.fixed?, List.map_cons, ← ih']
    | blocked c b => simp [Event.isBlocked] at h

/-- The trace of an engine that eliminated nothing fixes its fixed literals, in order. -/
theorem FixesOnly.trace_eq {e : Engine} (h : FixesOnly e) (ht : FixedTraced e) :
    e.trace = e.fixed.map .fix := by
  rw [← ht]
  exact trace_eq_fixes h

/-! ## Clauses an engine keeps -/

/-- no variable of the row is the variable of a fixed literal -/
def Unfixed (e : Engine) (r : Row) : Prop :=
  ∀ z ∈ r.ints, ∀ d ∈ e.fixed, (intOf d).natAbs ≠ z.natAbs

/-- the valuation satisfies every hard row of the engine none of whose variables is fixed -/
def UnfixedTrue (σ : Valuation) (e : Engine) : Prop :=
  ∀ r ∈ e.rows, r.weights = none → Unfixed e r → σ.clause r.ints

/-- The engine keeps the clause: every valuation that makes the fixed literals true and satisfies
the hard rows on variables not fixed satisfies it. -/
def Keeps (e : Engine) (c : List Int) : Prop :=
  ∀ σ : Valuation, (∀ d ∈ e.fixed, σ.lit (intOf d)) → UnfixedTrue σ e → σ.clause c

theorem Keeps.mono {e e' : Engine} {c : List Int} (h : Keeps e c) (hfixed : ∀ d ∈ e.fixed, d ∈ e'.fixed)
    (hrows : ∀ σ : Valuation, (∀ d ∈ e'.fixed, σ.lit (intOf d)) → UnfixedTrue σ e' → UnfixedTrue σ e) :
    Keeps e' c :=
  fun σ hfix hσ => h σ (fun d hd => hfix d (hfixed d hd)) (hrows σ hfix hσ)

theorem keeps_of_row {e : Engine} {r : Row} (hr : r ∈ e.rows) (hw : r.weights = none)
    (hun : Unfixed e r) : Keeps e r.ints :=
  fun _ _ hσ => hσ r hr hw hun

theorem Agrees.hard_of_kept {σ : Valuation} {vs : Fixing} (hvs : FixingWf vs) (h : Agrees σ vs)
    {rows : List Row} (hkept : ∀ r' ∈ rows.filterMap (keptRow vs), r'.weights = none → σ.clause r'.ints) :
    ∀ r ∈ rows, r.weights = none → σ.clause r.ints := by
  intro r hr hw
  cases hk : keptRow vs r with
  | none => exact keptRow_none_hard (h.on r) hk hw
  | some r' =>
    have hw' : r'.weights = none := by
      rw [(keptRow_eq_some hk).1]
      simpa using hw
    exact (keptRow_some_iff hvs (h.on r) hk).1 (hkept r' (List.mem_filterMap.2 ⟨r, hr, hk⟩) hw')

theorem Keeps.propagated {e : Engine} {F : List Int} {c : List Int} (h : Keeps e c)
    (hlits : ∀ d ∈ e.fixed ++ F.map .int, IsLit d) : Keeps (e.propagated F) c := by
  have hvs : FixingWf (fixingOf (e.fixed ++ F.map .int)) := fixingOf_wf hlits
  refine h.mono (fun d hd => List.mem_append_left _ hd) (fun σ hfix hσ r hr hw _ => ?_)
  have hkept : ∀ r' ∈ e.rows.filterMap (keptRow (fixingOf (e.fixed ++ F.map .int))),
      r'.weights = none → σ.clause r'.ints := by
    intro r' hr' hw'
    refine hσ r' hr' hw' (fun z hz d hd => ?_)
    obtain ⟨r₀, -, hk⟩ := List.mem_filterMap.1 hr'
    obtain ⟨x, hx, rfl⟩ := List.mem_map.1 hz
    exact fixLit_fixingOf_eq_none (keptRow_free hvs hk x hx) d hd
  exact (agrees_fixingOf hfix).hard_of_kept hvs hkept r hr hw

theorem Keeps.subsumed {e : Engine} {gone : List Nat} {c : List Int} (h : Keeps e c)
    (hkept : KeptSubset e.rows gone) : Keeps { e with rows := dropAt e.rows gone } c := by
  refine h.mono (fun d hd => hd) (fun σ _ hσ r hr hw hun => ?_)
  rcases mem_dropAt_or hr with hr' | ⟨j, hj, hget⟩
  · exact hσ r hr' hw hun
  · obtain ⟨i, hi, r₀, hget₀, hw₀, hsub⟩ := hkept j hj r hget
    have hints : r₀.ints ⊆ r.ints := List.map_subset intOf hsub
    obtain ⟨z, hz, hl⟩ := hσ r₀ (mem_dropAt hget₀ hi) hw₀ (fun z hz => hun z (hints hz))
    exact ⟨z, hints hz, hl⟩

/-- **Step lemma.** Every step of preprocessing on an inprocessing engine keeps what it kept. -/
theorem Keeps.step {e e' : Engine} {c : List Int} (hin : e.inprocessing = true) (ht : Tabled e)
    (hstep : Step e e') (h : Keeps e c) : Keeps e' c := by
  cases hstep.effect ht with
  | propagate F _ _ _ _ => exact h.propagated (hstep.tabled ht).fixed
  | subsume gone hkept => exact h.subsumed hkept
  | eliminate gone events hin' _ _ _ => exact absurd hin (by simp [hin'])
  | same => exact h
  | note log idle info => exact h

/-- **Run lemma.** Preprocessing steps from an inprocessing engine keep what it kept. -/
theorem Steps.keeps {e e' : Engine} {c : List Int} (h : Steps e e') (ht : Tabled e)
    (hin : e.inprocessing = true) (hk : Keeps e c) : Keeps e' c :=
  (@Steps.invariant (fun e => Tabled e ∧ e.inprocessing = true ∧ Keeps e c)
    (fun _ _ he hstep => ⟨hstep.tabled he.1, (hstep.frame he.1).inprocessing.trans he.2.1,
      he.2.2.step he.2.1 he.1 hstep⟩) _ _ h ⟨ht, hin, hk⟩).2.2

/-- Adding a hard clause none of whose variables is fixed keeps it. -/
theorem Keeps.added {e : Engine} {c : List Lit}
    (hfree : ∀ l ∈ c, ∀ d ∈ e.fixed, (intOf d).natAbs ≠ l.var) :
    Keeps { e with rows := e.rows ++ [streamedRow c none] } (clauseInts c) := by
  have hints : (streamedRow c none).ints = clauseInts c := by
    simp [Row.ints, streamedRow, litData, clauseInts, Function.comp_def]
  rw [← hints]
  refine keeps_of_row (List.mem_append_right _ (List.mem_singleton_self _)) rfl (fun z hz d hd => ?_)
  rw [hints] at hz
  obtain ⟨l, hl, rfl⟩ := List.mem_map.1 hz
  rw [Lit.natAbs_toInt]
  exact hfree l hl d hd

/-- Every call of an inprocessing run (preprocessing, adding a variable or a clause) keeps what an
inprocessing engine in shape kept. -/
theorem Keeps.change {n : Nat} {call : Session.Call} {e e' : Engine} {c : List Int} (hs : Shape n e)
    (hc : Change n call e e') (hcall : call.isInprocessing = true) (hin : e.inprocessing = true)
    (h : Keeps e c) : Keeps e' c := by
  cases hc with
  | keep => exact h
  | preprocess ot ol otl addRemoved _ techniques logLevel timeLimit =>
    obtain ⟨e₁, hsteps, top, p, info, heq, -, -⟩ :=
      preprocess_steps techniques logLevel timeLimit addRemoved e
    rw [heq]
    exact hsteps.keeps hs.tabled hin h
  | addVar => exact h
  | addClause d _ m cl =>
    exact h.mono (fun d hd => hd) (fun σ _ hσ r hr => hσ r (List.mem_append_left _ hr))
  | _ => simp [Session.Call.isInprocessing] at hcall

/-- Replaying the trace of an inprocessing engine in shape on a valuation satisfying its hard rows
satisfies every clause it keeps: the replay makes the fixed literals true and leaves every other
variable as it was. -/
theorem Keeps.replay {n : Nat} {e : Engine} (hs : Shape n e) (htrace : e.trace = e.fixed.map .fix)
    {c : List Int} (h : Keeps e c) {α : Valuation} (hα : HardTrue α e) : (α.replay e.trace).clause c := by
  have hfixed : e.fixed = (e.fixed.map intOf).map .int := by
    conv_lhs => rw [← List.map_id e.fixed]
    rw [List.map_map]
    exact List.map_congr_left (fun d hd => (hs.fixed d hd).eq)
  have hfixes : e.trace = (e.fixed.map intOf).map (fun z => .fix (.int z)) := by
    rw [htrace]
    conv_lhs => rw [hfixed]
    rw [List.map_map]
    rfl
  obtain ⟨hlits, hrest⟩ := replay_fixes hs.fixedVars α
  rw [hfixes]
  refine h _ (fun d hd => hlits _ (List.mem_map_of_mem hd)) (fun r hr hw hun => ?_)
  obtain ⟨z, hz, hl⟩ := hα r hr hw
  refine ⟨z, hz, (Valuation.lit_congr (hrest _ fun hmem => ?_)).2 hl⟩
  obtain ⟨y, hy, hyz⟩ := List.mem_map.1 hmem
  obtain ⟨d, hd, rfl⟩ := List.mem_map.1 hy
  exact hun z hz d hd hyz

end Engine

/-! ## Sessions -/

namespace Session

variable {s : Session}

theorem Ready.preproFixedLits_eq (h : s.Ready) : s.preproFixedLits = .ok (s.engine.fixed.map intOf) := by
  simp only [preproFixedLits, h.shared, bind, Except.bind, pure, Except.pure]

theorem Ready.maxOrigVar_eq (h : s.Ready) : s.maxOrigVar = .ok (intOf s.engine.maxVar).natAbs := by
  simp only [maxOrigVar, h.shared, bind, Except.bind, pure, Except.pure]

theorem Ready.addClause_ok (h : s.Ready) {d : Datum} {c : List Lit} (hc : clauseOf d = .ok c)
    {s' : Session} (hacc : s.addClause d = .ok s') :
    s' = s.withEngine { s.engine with rows := s.engine.rows ++ [streamedRow c none] } ∧
      ∀ l ∈ c, l.var ≤ (intOf s.engine.maxVar).natAbs := by
  rw [addClause_eq h, hc] at hacc
  dsimp only [Except.bind] at hacc
  split_ifs at hacc with hg
  · cases hacc
    exact ⟨rfl, hg.2⟩
  · simp [refuse] at hacc

/-- **Adding a clause.** A reachable session that accepts a clause none of whose variables is
fixed becomes, by the call, one whose engine keeps the clause, on variables it knows. -/
theorem Reachable.addClause_keeps (hs : s.Reachable) {d : Datum} {c : List Lit}
    (hc : clauseOf d = .ok c) {s₁ : Session} (hacc : s.addClause d = .ok s₁)
    (hfree : ∀ l ∈ c, ∀ z ∈ s.engine.fixed.map intOf, z.natAbs ≠ l.var) :
    s.perform (.addClause d) = s₁ ∧ s₁.engine.Keeps (clauseInts c) ∧
      ∀ l ∈ c, l.var ≤ (intOf s₁.engine.maxVar).natAbs := by
  have hperform : s.perform (.addClause d) = s₁ := by
    rw [Session.perform, hacc]
    rfl
  obtain ⟨rfl, hvars⟩ := hs.ready.addClause_ok hc hacc
  exact ⟨hperform, Engine.Keeps.added (fun l hl d' hd' => hfree l hl _ (List.mem_map_of_mem hd')), hvars⟩

theorem Ready.perform_inprocessing (h : s.Ready) (c : Call) : (s.perform c).inprocessing = s.inprocessing := by
  obtain ⟨e', heq, -⟩ := h.perform_change c
  rw [heq]
  rfl

theorem Ready.performAll_inprocessing (h : s.Ready) (calls : List Call) :
    (s.performAll calls).inprocessing = s.inprocessing := by
  induction calls generalizing s with
  | nil => rfl
  | cons c calls ih => rw [performAll_cons, ih (h.perform c).1, h.perform_inprocessing c]

/-- **Step lemma.** A call of an inprocessing run keeps what the engine of a reachable
inprocessing session kept. -/
theorem Reachable.perform_keeps (hs : s.Reachable) (hin : s.inprocessing = true) {call : Call}
    (hcall : call.isInprocessing = true) {c : List Int} (h : s.engine.Keeps c) :
    (s.perform call).engine.Keeps c := by
  obtain ⟨e', heq, hc⟩ := hs.ready.perform_change call
  rw [heq]
  exact h.change hs.ready.shape hc hcall (hs.inprocessing_eq.trans hin)

/-- **Run lemma.** The calls of an inprocessing run keep what the engine of a reachable
inprocessing session kept. -/
theorem Reachable.performAll_keeps (hs : s.Reachable) (hin : s.inprocessing = true)
    {calls : List Call} (hcalls : ∀ c ∈ calls, c.isInprocessing = true) {c : List Int}
    (h : s.engine.Keeps c) : (s.performAll calls).engine.Keeps c := by
  induction calls generalizing s with
  | nil => exact h
  | cons call calls ih =>
    rw [performAll_cons]
    exact ih (hs.perform call) ((hs.ready.perform_inprocessing call).trans hin)
      (fun c' hc' => hcalls c' (List.mem_cons_of_mem _ hc'))
      (hs.perform_keeps hin (hcalls call List.mem_cons_self) h)

/-- **Opening.** A session that opens keeps every hard clause given: nothing is fixed yet, and
its hard rows are those clauses. -/
theorem openWith_keeps {backend : Backend} {config : SessionConfig} {hards : List (List Lit)}
    {objs : List (List (List Lit × Nat))} {inprocessing : Bool} {offsets : Option Datum}
    (h : openWith backend config hards objs inprocessing offsets = .ok s) :
    ∀ c ∈ hards, s.engine.Keeps (clauseInts c) := by
  obtain ⟨top, M, info, -, -, -, -, -, heng, -⟩ := Engine.openWith_engine h
  have hfixed : s.engine.fixed = [] := by rw [heng]; rfl
  have htrace : s.engine.trace = [] := by rw [heng]; rfl
  intro c hc σ _ hσ
  have hhard : Engine.HardTrue σ s.engine :=
    fun r hr hw => hσ r hr hw (fun z _ d hd => by simp [hfixed] at hd)
  have hH := ((openWith_reconstructible h).sound σ hhard).1 _ (List.mem_map_of_mem hc)
  rwa [htrace, Valuation.replay_nil] at hH

/-- **Reconstruction keeps what the engine keeps.** In a reachable inprocessing session, an
assignment satisfying the hard clauses of the simplified instance is reconstructed as one literal
for each variable up to the largest, in order, and these literals satisfy every clause on known
variables that the engine keeps. -/
theorem Reachable.reconstruct_keeps (hs : s.Reachable) (hin : s.inprocessing = true)
    {inst : Simplified} (hinst : s.preproInstance = .ok inst) {tau : List Datum} {a : Assignment}
    (htau : Assignment.ofDatums tau = .ok a) (hsat : ∀ c ∈ inst.hards, ∃ l ∈ c, a.litValue? l = some true) :
    ∃ (model : List Int) (s' : Session), s.reconstruct tau = .ok (model, s') ∧
      model.map Int.natAbs = List.range' 1 (intOf s.engine.maxVar).natAbs ∧
      ∀ c : List Lit, s.engine.Keeps (clauseInts c) →
        (∀ l ∈ c, l.var ≤ (intOf s.engine.maxVar).natAbs) → ∃ l ∈ c, l.toInt ∈ model := by
  have hr := hs.ready
  obtain ⟨t, ht⟩ := hr.shape.top
  have hext : s.engine.extract (.int s.nObj) = .ok inst := by
    simpa [preproInstance, hr.shared, bind, Except.bind] using hinst
  have hα := Engine.hardTrue_of_extract hr.shape.tabled.rows.lits ht hext htau hsat
  obtain ⟨vs, hrec⟩ := hr.reconstruct_eq htau
  refine ⟨_, _, hrec, Valuation.model_natAbs _ _, fun c hk hvars => ?_⟩
  obtain ⟨z, hz, hl⟩ := hk.replay hr.shape ((hs.fixesOnly hin).trace_eq hs.fixedTraced) hα
  obtain ⟨l, hlc, rfl⟩ := List.mem_map.1 hz
  refine ⟨l, hlc, (Valuation.mem_model (Lit.toInt_ne_zero l) ?_).2 hl⟩
  rw [Lit.natAbs_toInt]
  exact hvars l hlc

theorem Reachable.preproInstance_hards_meet (h : s.Reachable)
    (hrows : (s.engine.rows.length : Int) ≤ Datum.wordBound) {T : List Int}
    (hT : ∀ r ∈ s.engine.rows, r.weights = none → ∃ z ∈ r.ints, z ∈ T) :
    ∃ inst, s.preproInstance = .ok inst ∧ ∀ c ∈ inst.hards, ∃ l ∈ c, l.toInt ∈ T := by
  obtain ⟨inst, hinst, hhards, -⟩ := h.preproInstance_rows hrows
  refine ⟨inst, hinst, fun c hc => ?_⟩
  rw [hhards] at hc
  obtain ⟨r, hr, rfl⟩ := List.mem_map.1 hc
  obtain ⟨hr, hw⟩ := List.mem_filter.1 hr
  obtain ⟨z, hz, hzT⟩ := hT r hr (Option.isNone_iff_eq_none.1 hw)
  have hlits : ∀ d ∈ r.lits, IsLit d := fun d hd => (h.ready.shape.rows.lits r hr d hd).1
  rw [← Row.litList_toInt hlits] at hz
  obtain ⟨l, hl, rfl⟩ := List.mem_map.1 hz
  exact ⟨l, List.mem_mergeSort.2 hl, hzT⟩

end Session

/-- **Reconstruction after inprocessing additions.** Open a session to inprocess on hard clauses
and objectives, then preprocess, add variables and add clauses in any order. For every assignment
that satisfies each hard clause of the simplified instance, reconstruction answers with one literal
for each variable from one to the largest original variable, in order; these literals satisfy every
hard clause given at opening and every clause accepted while none of its variables was among the
fixed literals. -/
theorem reconstruct_satisfies_unfixed_additions {backend : Backend} {config : SessionConfig}
    {hards : List (List Lit)} {objs : List (List (List Lit × Nat))} {offsets : Option Datum}
    {s₀ : Session} (hopen : Session.openWith backend config hards objs true offsets = .ok s₀)
    {calls : List Session.Call} (hcalls : ∀ c ∈ calls, c.isInprocessing = true)
    {inst : Simplified} (hinst : (s₀.performAll calls).preproInstance = .ok inst)
    {tau : List Datum} {a : Assignment} (htau : Assignment.ofDatums tau = .ok a)
    (hsat : ∀ c ∈ inst.hards, ∃ l ∈ c, a.litValue? l = some true) :
    ∃ (n : Nat) (model : List Int) (s' : Session),
      (s₀.performAll calls).maxOrigVar = .ok n ∧
      (s₀.performAll calls).reconstruct tau = .ok (model, s') ∧
      model.map Int.natAbs = List.range' 1 n ∧
      (∀ c ∈ hards, ∃ l ∈ c, l.toInt ∈ model) ∧
      ∀ pre d post, calls = pre ++ .addClause d :: post →
        ∀ (c : List Lit) (s₁ : Session) (fixed : List Int), clauseOf d = .ok c →
          (s₀.performAll pre).addClause d = .ok s₁ → (s₀.performAll pre).preproFixedLits = .ok fixed →
          (∀ l ∈ c, ∀ z ∈ fixed, z.natAbs ≠ l.var) → ∃ l ∈ c, l.toInt ∈ model := by
  have h₀ : s₀.Reachable := .opened hopen
  obtain ⟨-, -, -, -, -, -, -, -, -, -, hin₀, -⟩ := Engine.openWith_engine hopen
  have hs := h₀.performAll calls
  obtain ⟨model, s', hrec, hmodel, hkept⟩ :=
    hs.reconstruct_keeps ((h₀.ready.performAll_inprocessing calls).trans hin₀) hinst htau hsat
  refine ⟨_, model, s', hs.ready.maxOrigVar_eq, hrec, hmodel, fun c hc => ?_, ?_⟩
  · refine hkept c (h₀.performAll_keeps hin₀ hcalls (Session.openWith_keeps hopen c hc)) (fun l hl => ?_)
    have hvar := (openWith_reconstructible hopen).hardVars _ (List.mem_map_of_mem hc) _
      (List.mem_map_of_mem hl)
    rw [Lit.natAbs_toInt] at hvar
    exact le_trans hvar (h₀.grows_performAll calls).1.maxVar
  · intro pre d post hsplit c s₁ fixed hc hacc hfixed hfree
    have hpre := h₀.performAll pre
    rw [hpre.ready.preproFixedLits_eq] at hfixed
    cases hfixed
    obtain ⟨hperform, hk₁, hvars⟩ := hpre.addClause_keeps hc hacc hfree
    have hrun : s₀.performAll calls = s₁.performAll post := by
      rw [hsplit, Session.performAll_append, Session.performAll_cons, hperform]
    have h₁ : s₁.Reachable := hperform ▸ hpre.perform _
    have hin₁ : s₁.inprocessing = true := by
      rw [← hperform, hpre.ready.perform_inprocessing, h₀.ready.performAll_inprocessing, hin₀]
    have hpost : ∀ c' ∈ post, c'.isInprocessing = true :=
      fun c' hc' => hcalls c' (by rw [hsplit]; simp [hc'])
    rw [hrun] at hkept
    exact hkept c (h₁.performAll_keeps hin₁ hpost hk₁)
      (fun l hl => le_trans (hvars l hl) (h₁.grows_performAll post).1.maxVar)

/-- A session opened to inprocess on `x1` fixes it, is given the variable `x2` and the clause `x2`;
the assignment `¬x1, x2` satisfies the hard clause `x2` read back, and the general statement
applies to its reconstruction. -/
theorem unfixed_addition_reconstructed :
    ∃ s₀, Session.openWith .reference {} [[⟨1, false, by decide⟩]] [] true none = .ok s₀ ∧
      ∃ (n : Nat) (model : List Int) (s' : Session),
        (s₀.performAll [.preprocess (some (.str "u")) none none false, .addVar,
          .addClause (.list [.int 2])]).maxOrigVar = .ok n ∧
        (s₀.performAll [.preprocess (some (.str "u")) none none false, .addVar,
          .addClause (.list [.int 2])]).reconstruct [.int (-1), .int 2] = .ok (model, s') ∧
        model.map Int.natAbs = List.range' 1 n ∧
        (∀ c ∈ [[(⟨1, false, by decide⟩ : Lit)]], ∃ l ∈ c, l.toInt ∈ model) ∧
        ∀ pre d post, [.preprocess (some (.str "u")) none none false, .addVar,
            .addClause (.list [.int 2])] = pre ++ .addClause d :: post →
          ∀ (c : List Lit) (s₁ : Session) (fixed : List Int), clauseOf d = .ok c →
            (s₀.performAll pre).addClause d = .ok s₁ → (s₀.performAll pre).preproFixedLits = .ok fixed →
            (∀ l ∈ c, ∀ z ∈ fixed, z.natAbs ≠ l.var) → ∃ l ∈ c, l.toInt ∈ model := by
  have hrun : ((Session.openWith .reference {} [[⟨1, false, by decide⟩]] [] true none).toOption.bind
      (fun s => ((s.performAll [.preprocess (some (.str "u")) none none false, .addVar,
        .addClause (.list [.int 2])]).preproInstance).toOption)).map Simplified.hards =
        some [[⟨2, false, by decide⟩]] := by
    decide +kernel
  obtain ⟨inst, hview, hhards⟩ := Option.map_eq_some_iff.1 hrun
  obtain ⟨s₀, hO, hI⟩ := Outcome.exists_of_toOption_bind hview
  refine ⟨s₀, hO, reconstruct_satisfies_unfixed_additions hO (by decide) (Outcome.eq_ok_of_toOption hI)
    rfl ?_⟩
  rw [hhards]
  decide

/-- Unit propagation fixes `x1` in `x1`, `x2 ∨ x3`, and the inprocessing session then accepts the
clause `¬x1 ∨ x2` on the fixed variable as it is. The assignment `¬x1, ¬x2, x3` satisfies both hard
clauses read back, `x2 ∨ x3` and `¬x1 ∨ x2`, yet reconstruction sets `x1` to its fixed value and
answers `x1, ¬x2, x3`, which falsifies the clause added. -/
theorem fixed_variable_addition_lost :
    ∃ s₀, Session.openWith .reference {} [[⟨1, false, by decide⟩], [⟨2, false, by decide⟩,
        ⟨3, false, by decide⟩]] [] true none = .ok s₀ ∧
      (s₀.perform (.preprocess (some (.str "u")) none none false)).preproFixedLits = .ok [1] ∧
      clauseOf (.list [.int (-1), .int 2]) = .ok [⟨1, true, by decide⟩, ⟨2, false, by decide⟩] ∧
      ∃ s₁, (s₀.perform (.preprocess (some (.str "u")) none none false)).addClause
          (.list [.int (-1), .int 2]) = .ok s₁ ∧
        ∃ inst, s₁.preproInstance = .ok inst ∧ (∀ c ∈ inst.hards, ∃ l ∈ c, l.toInt ∈ [-1, -2, 3]) ∧
        ∃ s₂, s₁.reconstruct [.int (-1), .int (-2), .int 3] = .ok ([1, -2, 3], s₂) ∧
          ∀ l ∈ [(⟨1, true, by decide⟩ : Lit), ⟨2, false, by decide⟩], l.toInt ∉ [1, -2, 3] := by
  -- the run is evaluated by the kernel up to the clause's canonical order, which it cannot sort
  have hview : ((Session.openWith .reference {} [[⟨1, false, by decide⟩], [⟨2, false, by decide⟩,
      ⟨3, false, by decide⟩]] [] true none).toOption.map (fun s₀ =>
        let s := s₀.perform (.preprocess (some (.str "u")) none none false)
        let s₁ := s.withEngine { s.engine with
          rows := s.engine.rows ++ [streamedRow [⟨1, true, by decide⟩, ⟨2, false, by decide⟩] none] }
        (s.preproFixedLits.toOption, s.engine.rows.map (fun r => (r.ints, r.weights.isNone)),
          (intOf s.engine.maxVar).natAbs,
          (s₁.reconstruct [.int (-1), .int (-2), .int 3]).toOption.map Prod.fst))) =
      some (some [1], [([2, 3], true)], 3, some [1, -2, 3]) := by
    decide +kernel
  obtain ⟨s₀, hO, hv⟩ := Outcome.exists_of_toOption_map hview
  simp only [Prod.mk.injEq] at hv
  obtain ⟨hfixed, hrows, hmax, hmodel⟩ := hv
  have h₀ : s₀.Reachable := .opened hO
  set s := s₀.perform (.preprocess (some (.str "u")) none none false) with hsdef
  have hs : s.Reachable := h₀.perform _
  obtain ⟨-, -, -, -, -, -, -, -, -, -, hin₀, -⟩ := Engine.openWith_engine hO
  have hin : s.engine.inprocessing = true :=
    hs.inprocessing_eq.trans ((h₀.ready.perform_inprocessing _).trans hin₀)
  have hcl : clauseOf (.list [.int (-1), .int 2]) = .ok [⟨1, true, by decide⟩, ⟨2, false, by decide⟩] := by
    have h : clauseOf (.list [.int (-1), .int 2]) =
        .ok (canonicalClause [⟨1, true, by decide⟩, ⟨2, false, by decide⟩]) := rfl
    rwa [canonicalClause_of_pairwise (by decide)] at h
  have hmut : s.engine.mutable = true := by
    simp [Engine.mutable, hs.ready.shape.finalized, hin]
  have hacc : s.addClause (.list [.int (-1), .int 2]) = .ok (s.withEngine { s.engine with
      rows := s.engine.rows ++ [streamedRow [⟨1, true, by decide⟩, ⟨2, false, by decide⟩] none] }) := by
    rw [Session.addClause_eq hs.ready, hcl]
    exact if_pos ⟨hmut, by rw [hmax]; decide⟩
  have hperf : s.perform (.addClause (.list [.int (-1), .int 2])) = s.withEngine { s.engine with
      rows := s.engine.rows ++ [streamedRow [⟨1, true, by decide⟩, ⟨2, false, by decide⟩] none] } := by
    show s.keep (s.addClause _) = _
    rw [hacc]
    rfl
  have h₁ := hs.perform (.addClause (.list [.int (-1), .int 2]))
  rw [hperf] at h₁
  obtain ⟨r₀, hrows₀, hr₀⟩ := List.map_eq_singleton_iff.1 hrows
  simp only [Prod.mk.injEq] at hr₀
  have hmeet : ∀ r ∈ (s.withEngine { s.engine with rows := s.engine.rows ++
      [streamedRow [⟨1, true, by decide⟩, ⟨2, false, by decide⟩] none] }).engine.rows,
      r.weights = none → ∃ z ∈ r.ints, z ∈ [-1, -2, 3] := by
    intro r hr _
    simp only [Session.withEngine, hrows₀, List.cons_append, List.nil_append, List.mem_cons,
      List.not_mem_nil, or_false] at hr
    rcases hr with rfl | rfl
    · exact ⟨3, by rw [hr₀.1]; decide, by decide⟩
    · exact ⟨-1, by decide, by decide⟩
  obtain ⟨inst, hinst, hsat⟩ :=
    h₁.preproInstance_hards_meet (by simp [Session.withEngine, hrows₀, Datum.wordBound]) hmeet
  obtain ⟨p, hrec, hp⟩ := Option.map_eq_some_iff.1 hmodel
  refine ⟨s₀, hO, Outcome.eq_ok_of_toOption hfixed, hcl, _, hacc, inst, hinst, hsat, p.2, ?_, by decide⟩
  rw [Outcome.eq_ok_of_toOption hrec, ← hp]

end MaxSatPrep
