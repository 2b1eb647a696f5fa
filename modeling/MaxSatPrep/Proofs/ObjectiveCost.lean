import MaxSatPrep.Proofs.Cost
import MaxSatPrep.Proofs.RoundTrip
/-!
Objective costs across preprocessing. Open a session on hard clauses `H` and objectives, then set
options and preprocess any number of times. What each objective leaves false is kept, objective
by objective, in two ways (`CostAccount`): reconstructing a total assignment that satisfies the
simplified hard clauses gives a model that leaves false of the objective what the assignment
leaves false of the simplified objective, plus the objective's removed weight; and a valuation
satisfying `H` satisfies the simplified hard clauses and leaves false of each objective what it
leaves false of the simplified one, plus the removed weight. So each objective's optimum over the
models of `H` is the simplified optimum plus its removed weight.

The engine's accounts (`Engine.Costed`) carry the argument along the run; this module reads them
at both ends: at opening, where the rows a valuation leaves false weigh what it leaves false of
the objectives (`falseWeight_opened`), and in the instance read back
(`Engine.objective_falseWeight`).

Main statement: `preprocessing_keeps_objective_costs`.
-/

namespace MaxSatPrep

open Session (intOf)

/-! ## Literals that hold -/

/-- the literals a valuation makes true -/
def Valuation.holds (σ : Valuation) (l : Lit) : Bool := decide (σ.lit l.toInt)

namespace Assignment

/-- the valuation setting the variables of an assignment's literals as they are, the others false -/
def valuation (a : Assignment) : Valuation :=
  Engine.Values.val (Engine.setLits [] (a.lits.map Lit.toInt))

theorem value?_isSome_of_isTotal {a : Assignment} {n : Nat} (h : a.isTotal n = true) {v : Nat}
    (h1 : 0 < v) (hv : v ≤ n) : (a.value? v).isSome := by
  have hall := List.all_eq_true.1 h (v - 1) (List.mem_range.2 (by simp; omega))
  rwa [Nat.sub_add_cancel h1] at hall

/-- With one entry per variable, an assignment makes a literal on an assigned variable true
exactly when its valuation does. -/
theorem litValue?_eq_true_iff {a : Assignment} (hnd : a.KeysNodup) {l : Lit}
    (hl : (a.value? l.var).isSome) : a.litValue? l = some true ↔ a.valuation.lit l.toInt := by
  have hset : ∀ l' : Lit, a.litValue? l' = some true → a.valuation.lit l'.toInt := fun l' h =>
    Engine.lit_setLits Engine.intKeys_nil hnd.lits _ (List.mem_map_of_mem (mem_lits_of_litValue h))
  refine ⟨hset l, fun hlit => ?_⟩
  obtain ⟨b, hb⟩ := Option.isSome_iff_exists.1 hl
  by_contra hne
  have hneg : a.litValue? l.neg = some true := by
    have hb' : (b != l.negated) = false := by simpa [litValue?, hb] using hne
    have hvar : l.neg.var = l.var := rfl
    simp only [litValue?, hvar, hb, Option.map_some, Option.some.injEq]
    cases b <;> cases hn : l.negated <;> simp_all [Lit.neg]
  have hfalse := hset _ hneg
  rw [Lit.toInt_neg, Valuation.lit_neg (Lit.toInt_ne_zero l)] at hfalse
  exact hfalse hlit

end Assignment

/-! ## Rows against the instance read back -/

namespace Engine

variable {e : Engine}

theorem any_canonicalClause {r : Row} (hlits : ∀ d ∈ r.lits, IsLit d) {σ : Valuation}
    {holds : Lit → Bool} (hh : ∀ l ∈ r.litList, holds l = σ.holds l) :
    (canonicalClause r.litList).any holds = decide (σ.clause r.ints) := by
  have hiff : (canonicalClause r.litList).any holds = true ↔ σ.clause r.ints := by
    rw [← Row.litList_toInt hlits]
    simp only [List.any_eq_true, canonicalClause, List.mem_mergeSort]
    constructor
    · rintro ⟨l, hl, hhl⟩
      exact ⟨l.toInt, List.mem_map_of_mem hl, by simpa [hh l hl, Valuation.holds] using hhl⟩
    · rintro ⟨z, hz, hσ⟩
      obtain ⟨l, hl, rfl⟩ := List.mem_map.1 hz
      exact ⟨l, hl, by simp [hh l hl, Valuation.holds, hσ]⟩
  exact Bool.eq_iff_iff.2 (hiff.trans decide_eq_true_iff.symm)

theorem weightSum_soft_filter {rows : List Row} {Q : Row → Bool} {σ : Valuation}
    (hQ : ∀ r ∈ rows, r.weights ≠ none → Q r = !decide (σ.clause r.ints)) (j : Nat) :
    weightSum ((rows.filter fun r => r.weights.isSome).filter Q) j = falseWeight σ rows j := by
  induction rows with
  | nil => rfl
  | cons r rows ih =>
    rw [falseWeight_cons, ← ih (fun r' hr' => hQ r' (List.mem_cons_of_mem _ hr'))]
    cases hw : r.weights with
    | none => simp [hw, Row.weightAt_hard hw]
    | some ws =>
      have hq := hQ r List.mem_cons_self (by simp [hw])
      by_cases hσ : σ.clause r.ints <;> simp [hw, hq, hσ]

variable (ht : Tabled e) (hb : TopBound e) {n : Nat} (hn : ∀ r ∈ e.rows, r.weights ≠ none → 0 < n)
  {inst : Simplified} (h : e.extract (.int n) = .ok inst)
include ht hb hn h

/-- **The falsified weight read back.** Under the top-weight bound, the soft clauses of objective
`j` read back in which no literal passes a test weigh what the rows leave false there under a
valuation the test agrees with on the rows' literals. -/
theorem objective_falseWeight {σ : Valuation} {holds : Lit → Bool}
    (hh : ∀ r ∈ e.rows, ∀ l ∈ r.litList, holds l = σ.holds l) {j : Nat} (hj : j < n) :
    falsifiedWeight holds (inst.objective j).entries = falseWeight σ e.rows j := by
  rw [objective_falsifiedWeight ht hb hn h holds hj]
  refine weightSum_soft_filter (fun r hr _ => ?_) j
  rw [any_canonicalClause (ht.rows.lits r hr) (hh r hr)]

theorem hards_hold {σ : Valuation} (hσ : HardTrue σ e) : ∀ c ∈ inst.hards, ∃ l ∈ c, σ.lit l.toInt := by
  intro c hc
  rw [(extract_rows ht hb hn h).1] at hc
  obtain ⟨r, hr, rfl⟩ := List.mem_map.1 hc
  have hr' := List.mem_filter.1 hr
  have hsat := any_canonicalClause (ht.rows.lits r hr'.1)
    (fun _ _ => rfl : ∀ l ∈ r.litList, σ.holds l = σ.holds l)
  rw [decide_eq_true (hσ r hr'.1 (by simpa using hr'.2))] at hsat
  obtain ⟨l, hl, hhl⟩ := List.any_eq_true.1 hsat
  exact ⟨l, hl, of_decide_eq_true hhl⟩

end Engine

/-! ## The rows at opening -/

section Opening

variable (σ : Valuation)

theorem falseWeight_unlabelled (rows : List Row) (i : Nat) :
    Engine.falseWeight σ (rows.map Row.unlabelled) i = Engine.falseWeight σ rows i := by
  induction rows with
  | nil => rfl
  | cons r rows ih =>
    rw [List.map_cons, Engine.falseWeight_cons, Engine.falseWeight_cons, ih]
    rfl

/-- **The rows streamed at opening** leave false, in objective `i`, what a valuation leaves false
of objective `i`'s pairs. -/
theorem falseWeight_opened (hards : List (List Lit)) (objs : List (List (List Lit × Nat))) {i : Nat}
    (hi : i < objs.length) :
    Engine.falseWeight σ (streamedRows hards objs) i =
      falsifiedWeight σ.holds (objs[i].map fun p => (p.1, (p.2 : Int))) := by
  have hints : ∀ (c : List Lit) ws, (streamedRow c ws).ints = clauseInts c := by
    intro c ws
    simp [Row.ints, streamedRow, litData, clauseInts, Function.comp_def]
  have hweight : ∀ p : List Lit × List Nat,
      (streamedRow p.1 (some (weightData p.2))).weightAt i = ((p.2.getD i 0 : Nat) : Int) := by
    intro p
    simp only [Row.weightAt, streamedRow, weightData_eq, Option.getD_some, List.getD_eq_getElem?_getD,
      List.getElem?_map]
    cases p.2[i]? <;> rfl
  have hany : ∀ c : List Lit, c.any σ.holds = decide (σ.clause (clauseInts c)) := by
    intro c
    rw [Bool.eq_iff_iff, List.any_eq_true, decide_eq_true_iff]
    simp [Valuation.holds, Valuation.clause, clauseInts]
  have hhard : Engine.falseWeight σ (hards.map fun c => streamedRow c none) i = 0 := by
    induction hards with
    | nil => rfl
    | cons c hards ih =>
      rw [List.map_cons, Engine.falseWeight_cons, ih, Engine.Row.weightAt_hard rfl]
      simp
  rw [streamedRows, Engine.falseWeight, List.filter_append, Engine.weightSum_append, ← Engine.falseWeight,
    hhard, zero_add, Engine.weightSum, List.filter_map, List.map_map]
  simp only [Function.comp_def, hints, hweight]
  rw [weightRows_weight objs (fun c => !decide (σ.clause (clauseInts c))) hi, List.getElem?_eq_getElem hi,
    Option.getD_some, falsifiedWeight, List.filter_map, List.map_map]
  simp only [Function.comp_def, hany]

end Opening

/-! ## The accounts along a session -/

namespace Session

variable {s : Session}

theorem Reachable.grows_performAll (h : s.Reachable) (calls : List Call) :
    Engine.Grows s.engine (s.performAll calls).engine ∧ (s.performAll calls).nObj = s.nObj := by
  induction calls generalizing s with
  | nil => exact ⟨Engine.Grows.refl _, rfl⟩
  | cons c calls ih =>
    obtain ⟨e', heq, -⟩ := h.ready.perform_change c
    obtain ⟨hg, hn⟩ := ih (h.perform c)
    have hg₁ := (h.ready.perform c).2
    rw [performAll_cons]
    refine ⟨hg₁.trans hg, hn.trans ?_⟩
    rw [heq]
    rfl

end Session

namespace Reconstructible

variable {H : List (List Int)} {R : List Row} {s : Session}

/-- **Step lemma.** Setting options and preprocessing keep the accounts of the rows `R`. -/
theorem costed_perform (h : Reconstructible H s) (hc : Engine.Costed H R s.engine) {c : Session.Call}
    (hcall : c.isPreprocessing = true) : Engine.Costed H R (s.perform c).engine := by
  cases c
  case setOptions o =>
    rw [Session.perform]
    rcases hs : s.setOptions o with f | s'
    · exact hc
    · obtain ⟨opts, rfl⟩ := Session.setOptions_ok hs
      exact hc.congr rfl rfl rfl rfl
  case preprocess techniques logLevel timeLimit addRemoved =>
    rcases Session.preprocess_fst s techniques logLevel timeLimit addRemoved with heq | ⟨t, l, tl, heq⟩
    · rw [Session.perform, heq]
      exact hc
    · rw [Session.perform, heq]
      exact Engine.preprocess_costed t l tl addRemoved h.wf h.sound hc
  all_goals simp [Session.Call.isPreprocessing] at hcall

/-- **Run lemma.** Any run of option settings and preprocessing calls keeps the accounts. -/
theorem costed_performAll (h : Reconstructible H s) (hc : Engine.Costed H R s.engine)
    {calls : List Session.Call} (hcalls : ∀ c ∈ calls, c.isPreprocessing = true) :
    Engine.Costed H R (s.performAll calls).engine := by
  induction calls generalizing s with
  | nil => exact hc
  | cons c calls ih =>
    have hc₁ := hcalls c List.mem_cons_self
    rw [Session.performAll_cons]
    exact ih (h.perform hc₁) (h.costed_perform hc hc₁) (fun c' hc' => hcalls c' (List.mem_cons_of_mem _ hc'))

end Reconstructible

/-- **Opening.** A session opened on hard clauses keeps the accounts of the rows it opens with:
nothing is fixed, traced or removed yet, and a model of the hard clauses satisfies every hard row. -/
theorem openWith_costed {backend : Backend} {config : SessionConfig} {hards : List (List Lit)}
    {objs : List (List (List Lit × Nat))} {inprocessing : Bool} {offsets : Option Datum} {s : Session}
    (h : Session.openWith backend config hards objs inprocessing offsets = .ok s) :
    Engine.Costed (hards.map clauseInts) s.engine.rows s.engine := by
  obtain ⟨top, M, info, -, -, -, -, -, heng, -, -, -, -⟩ := Engine.openWith_engine h
  have hwidth : ∀ r ∈ streamedRows hards objs, ∀ ws, r.weights = some ws → ws.length = objs.length :=
    fun r hr ws hws => (weights_of_streamedRows r hr ws hws).1
  obtain ⟨hfrom, -⟩ := markLabels_rows hwidth
  refine Engine.costed_start (by rw [heng]; rfl) (by rw [heng]; rfl) (fun i => ?_) (fun σ hσ => ?_)
  · rw [heng]
    simp [Engine.removedAt, List.getD_eq_getElem?_getD]
  · intro r hr hw
    rw [heng] at hr
    obtain ⟨r₀, hr₀, hl, hw₀⟩ := hfrom r hr
    simp only [streamedRows, List.mem_append, List.mem_map] at hr₀
    rcases hr₀ with ⟨c, hc, rfl⟩ | ⟨p, -, rfl⟩
    · have hints : r.ints = clauseInts c := by
        simp [Row.ints, hl, streamedRow, litData, clauseInts, Function.comp_def]
      rw [hints]
      exact hσ _ (List.mem_map_of_mem hc)
    · simp [hw, streamedRow] at hw₀

/-- The variables of the objectives a session opens with are variables of its table, so they stay
within its largest variable along any calls. -/
theorem openWith_objectiveVars {backend : Backend} {config : SessionConfig} {hards : List (List Lit)}
    {objs : List (List (List Lit × Nat))} {inprocessing : Bool} {offsets : Option Datum} {s₀ : Session}
    (hopen : Session.openWith backend config hards objs inprocessing offsets = .ok s₀)
    (calls : List Session.Call) :
    ∀ i (hi : i < objs.length), ∀ p ∈ objs[i], ∀ l ∈ p.1,
      l.var ≤ (intOf (s₀.performAll calls).engine.maxVar).natAbs := by
  obtain ⟨top, M, info, -, -, -, hsv, -, heng, -, -, -, -⟩ := Engine.openWith_engine hopen
  have hgrows := ((Session.Reachable.opened hopen).grows_performAll calls).1.maxVar
  rw [heng] at hgrows
  simp only [Session.intOf_int] at hgrows
  intro i hi p hp l hl
  have hrow : p.1 ∈ (Weights.weightRows objs).map Prod.fst := by
    rw [weightRows_clauses]
    exact List.mem_map_of_mem (List.mem_flatten.2 ⟨objs[i], List.getElem_mem hi, hp⟩)
  obtain ⟨q, hq, hqp⟩ := List.mem_map.1 hrow
  have hle := hsv q hq l (hqp ▸ hl)
  omega

/-! ## Costs kept by preprocessing -/

/-- What a session run from hard clauses `hards` and objectives `objs` keeps of each objective's
cost, for the instance `inst` it reads back, its largest original variable `n` and its removed
weights `removed`: reconstructing a total assignment that satisfies the simplified hard clauses
gives a model leaving false of each objective what the assignment leaves false of the simplified
objective plus the removed weight; and every valuation satisfying `hards` satisfies the simplified
hard clauses and leaves false of each objective what it leaves false of the simplified one plus
the removed weight. -/
structure CostAccount (hards : List (List Lit)) (objs : List (List (List Lit × Nat))) (n : Nat)
    (removed : List Int) (s : Session) (inst : Simplified) : Prop where
  maxOrigVar : s.maxOrigVar = .ok n
  removedWeight : s.removedWeight = .ok removed
  length : removed.length = objs.length
  reconstructed : ∀ (tau : List Datum) (a : Assignment), Assignment.ofDatums tau = .ok a →
    a.isTotal n = true → (∀ c ∈ inst.hards, ∃ l ∈ c, a.litValue? l = some true) →
    ∃ (model : List Int) (s' : Session), s.reconstruct tau = .ok (model, s') ∧
      ∀ i (hi : i < objs.length),
        falsifiedWeight (fun l => decide (l.toInt ∈ model)) (objs[i].map fun p => (p.1, (p.2 : Int))) =
          falsifiedWeight (fun l => a.litValue? l == some true) (inst.objective i).entries +
            removed.getD i 0
  models : ∀ σ : Valuation, (∀ c ∈ hards, ∃ l ∈ c, σ.lit l.toInt) →
    (∀ c ∈ inst.hards, ∃ l ∈ c, σ.lit l.toInt) ∧
      ∀ i (hi : i < objs.length),
        falsifiedWeight σ.holds (objs[i].map fun p => (p.1, (p.2 : Int))) =
          falsifiedWeight σ.holds (inst.objective i).entries + removed.getD i 0

/-- The costs kept along a run of option settings and preprocessing calls from an opened session,
for the instance it reads back. -/
theorem openWith_costAccount {backend : Backend} {config : SessionConfig}
    {hards : List (List Lit)} {objs : List (List (List Lit × Nat))} {inprocessing : Bool}
    {offsets : Option Datum} {s₀ : Session}
    (hopen : Session.openWith backend config hards objs inprocessing offsets = .ok s₀)
    {calls : List Session.Call} (hcalls : ∀ c ∈ calls, c.isPreprocessing = true)
    {inst : Simplified} (hinst : (s₀.performAll calls).preproInstance = .ok inst) :
    ∃ n removed, CostAccount hards objs n removed (s₀.performAll calls) inst := by
  obtain ⟨top, M, info, -, -, -, -, -, heng, hn₀, -, -, -⟩ := Engine.openWith_engine hopen
  have hrec := (openWith_reconstructible hopen).performAll hcalls
  have hcost := (openWith_reconstructible hopen).costed_performAll (openWith_costed hopen) hcalls
  have hreach := (Session.Reachable.opened hopen).performAll calls
  have hnObj := ((Session.Reachable.opened hopen).grows_performAll calls).2
  have hready := hreach.ready
  have hb := hreach.topBound
  set s := s₀.performAll calls with hs
  set m := (intOf s.engine.maxVar).natAbs with hm
  have hk : s.nObj = objs.length := hnObj.trans hn₀
  have hext : s.engine.extract (.int s.nObj) = .ok inst := by
    simpa [Session.preproInstance, hready.shared, bind, Except.bind] using hinst
  have hremoved : (s.engine.removed.map intOf).length = objs.length := by
    rw [List.length_map, hready.shape.removed.1, hk]
  have hgetD : ∀ i, (s.engine.removed.map intOf).getD i 0 = Engine.removedAt s.engine.removed i := by
    intro i
    simp only [Engine.removedAt, List.getD_eq_getElem?_getD, List.getElem?_map]
    cases s.engine.removed[i]? <;> rfl
  have hobjVars : ∀ i (hi : i < objs.length), ∀ p ∈ objs[i], ∀ l ∈ p.1, l.var ≤ m :=
    openWith_objectiveVars hopen calls
  have hopened : ∀ (τ : Valuation) i (hi : i < objs.length),
      Engine.falseWeight τ s₀.engine.rows i = falsifiedWeight τ.holds (objs[i].map fun p => (p.1, (p.2 : Int))) := by
    intro τ i hi
    have hwidth : ∀ r ∈ streamedRows hards objs, ∀ ws, r.weights = some ws → ws.length = objs.length :=
      fun r hr ws hws => (weights_of_streamedRows r hr ws hws).1
    rw [heng, ← falseWeight_unlabelled, Engine.markLabels_unlabelled [] hwidth, falseWeight_unlabelled,
      falseWeight_opened τ hards objs hi]
  have hread : ∀ (τ : Valuation) (holds : Lit → Bool),
      (∀ r ∈ s.engine.rows, ∀ l ∈ r.litList, holds l = τ.holds l) → ∀ i < objs.length,
        falsifiedWeight holds (inst.objective i).entries = Engine.falseWeight τ s.engine.rows i :=
    fun τ holds hh i hi => Engine.objective_falseWeight hready.shape.tabled hb hready.shape.soft_pos hext hh
      (hk ▸ hi)
  refine ⟨m, s.engine.removed.map intOf, hrec.maxOrigVar_eq, hreach.removedWeight_eq, hremoved, ?_, ?_⟩
  · intro tau a htau htot hsat
    have hnd := Assignment.ofDatums_keysNodup htau
    have hagree : ∀ l : Lit, l.var ≤ m → (a.litValue? l == some true) = a.valuation.holds l := by
      intro l hl
      have hiff := Assignment.litValue?_eq_true_iff hnd
        (Assignment.value?_isSome_of_isTotal htot l.var_pos hl)
      by_cases hv : a.litValue? l = some true
      · simp [hv, Valuation.holds, hiff.1 hv]
      · simp [hv, Valuation.holds, mt hiff.2 hv]
    have hlitVar : ∀ r ∈ s.engine.rows, ∀ l ∈ r.litList, l.var ≤ m := by
      intro r hr l hl
      have hz : l.toInt ∈ r.ints := Row.litList_toInt (hrec.wf.rows.lits r hr) ▸ List.mem_map_of_mem hl
      obtain ⟨d, hd, hdl⟩ := List.mem_map.1 hz
      have := hrec.wf.vars r hr d hd
      rw [hdl, Lit.natAbs_toInt] at this
      exact this
    have hα : Engine.HardTrue a.valuation s.engine := by
      intro r hr hw
      have hc : canonicalClause r.litList ∈ inst.hards := by
        rw [(Engine.extract_rows hready.shape.tabled hb hready.shape.soft_pos hext).1]
        exact List.mem_map_of_mem (List.mem_filter.2 ⟨hr, by simp [hw]⟩)
      obtain ⟨l, hl, hv⟩ := hsat _ hc
      have hl' : l ∈ r.litList := (List.mem_mergeSort).1 hl
      have hz : l.toInt ∈ r.ints := Row.litList_toInt (hrec.wf.rows.lits r hr) ▸ List.mem_map_of_mem hl'
      exact ⟨l.toInt, hz, (Assignment.litValue?_eq_true_iff hnd
        (Assignment.value?_isSome_of_isTotal htot l.var_pos (hlitVar r hr l hl'))).1 hv⟩
    obtain ⟨mv, hmv⟩ := hrec.maxVar
    obtain ⟨vs, hrecon, hvs⟩ := Session.reconstruct_model hrec.closed hrec.locked hrec.wf.trace hmv hrec.pushed htau
    have hmm : mv = m := by rw [hm, hmv, Session.intOf_int, Int.natAbs_natCast]
    refine ⟨_, _, hrecon, fun i hi => ?_⟩
    have hmodel : falsifiedWeight (fun l => decide (l.toInt ∈ (Engine.Values.val vs).model mv))
        (objs[i].map fun p => (p.1, (p.2 : Int))) =
        falsifiedWeight (Engine.Values.val vs).holds (objs[i].map fun p => (p.1, (p.2 : Int))) := by
      unfold falsifiedWeight
      congr 2
      refine List.filter_congr fun p hp => ?_
      obtain ⟨q, hq, rfl⟩ := List.mem_map.1 hp
      have hlits : ∀ l ∈ q.1, decide (l.toInt ∈ (Engine.Values.val vs).model mv) = (Engine.Values.val vs).holds l :=
        fun l hl => decide_eq_decide.2 (Valuation.mem_model (Lit.toInt_ne_zero l)
          (by rw [Lit.natAbs_toInt, hmm]; exact hobjVars i hi q hq l hl))
      congr 1
      rw [Bool.eq_iff_iff, List.any_eq_true, List.any_eq_true]
      exact exists_congr fun l => and_congr_right fun hl => by rw [hlits l hl]
    have hvs' : Engine.Values.val vs = a.valuation.replay s.engine.trace := hvs
    rw [hmodel, ← hopened _ i hi, hvs', hcost.sound _ hα i, hread _ _ (fun r hr l hl => hagree l (hlitVar r hr l hl)) i hi,
      hgetD]
  · intro σ hσ
    have hH : ∀ c ∈ hards.map clauseInts, σ.clause c := by
      intro c hc
      obtain ⟨c', hc', rfl⟩ := List.mem_map.1 hc
      obtain ⟨l, hl, hσl⟩ := hσ c' hc'
      exact ⟨l.toInt, List.mem_map_of_mem hl, hσl⟩
    obtain ⟨hhard, -, hcosts⟩ := hcost.complete σ hH
    refine ⟨Engine.hards_hold hready.shape.tabled hb hready.shape.soft_pos hext hhard, fun i hi => ?_⟩
    rw [← hopened σ i hi, hcosts i, hread σ σ.holds (fun _ _ _ _ => rfl) i hi, hgetD]

/-- **Preprocessing keeps every objective's cost.** Open a session on hard clauses and objectives,
then set options and preprocess any number of times, with any techniques. For the instance read
back, reconstruction turns a total assignment satisfying its hard clauses into a model that leaves
false of each objective what the assignment leaves false of the simplified objective plus the
objective's removed weight; and every valuation satisfying the hard clauses satisfies the
simplified ones and leaves false of each objective what it leaves false of the simplified
objective plus the removed weight. -/
theorem preprocessing_keeps_objective_costs {backend : Backend} {config : SessionConfig}
    {hards : List (List Lit)} {objs : List (List (List Lit × Nat))} {inprocessing : Bool}
    {offsets : Option Datum} {s₀ : Session}
    (hopen : Session.openWith backend config hards objs inprocessing offsets = .ok s₀)
    {calls : List Session.Call} (hcalls : ∀ c ∈ calls, c.isPreprocessing = true)
    {inst : Simplified} (hinst : (s₀.performAll calls).preproInstance = .ok inst) :
    ∃ n removed, CostAccount hards objs n removed (s₀.performAll calls) inst :=
  openWith_costAccount hopen hcalls hinst

/-- Unit propagation on the hard unit `x1` under the objective `¬x1` of weight 5 retires the
objective's only clause into its removed weight, and keeps its cost. -/
theorem unit_propagation_keeps_costs :
    ∃ s₀, Session.openWith .reference {} [[⟨1, false, by decide⟩]] [[([⟨1, true, by decide⟩], 5)]] false
        none = .ok s₀ ∧
      ∃ inst, (s₀.performAll [.preprocess (some (.str "u")) none none false]).preproInstance = .ok inst ∧
        ∃ n removed, CostAccount [[⟨1, false, by decide⟩]] [[([⟨1, true, by decide⟩], 5)]] n removed
          (s₀.performAll [.preprocess (some (.str "u")) none none false]) inst := by
  have hrun : ((Session.openWith .reference {} [[⟨1, false, by decide⟩]] [[([⟨1, true, by decide⟩], 5)]] false
      none).toOption.bind fun s =>
        ((s.performAll [.preprocess (some (.str "u")) none none false]).preproInstance).toOption).isSome =
      true := by
    decide +kernel
  obtain ⟨inst, hview⟩ := Option.isSome_iff_exists.1 hrun
  obtain ⟨s₀, hO, hI⟩ := Outcome.exists_of_toOption_bind hview
  have hinst := Outcome.eq_ok_of_toOption hI
  exact ⟨s₀, hO, inst, hinst, preprocessing_keeps_objective_costs hO (by decide) hinst⟩

end MaxSatPrep
