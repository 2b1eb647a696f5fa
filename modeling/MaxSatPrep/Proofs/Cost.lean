import MaxSatPrep.Proofs.SoftWeights
/-!
Soft weight accounting. The weight a valuation leaves false in an objective is the weight there
of the rows it does not satisfy; a hard row weighs nothing. Preprocessing moves soft weight out of
the table along three routes only, and each keeps the account:

* a row satisfied by a fixed literal is dropped, and is true wherever the fixed literals are;
* a soft row whose literals are all fixed false is retired, its weights added to the removed
  weights, and is false wherever the fixed literals are true;
* a row containing a hard row left is dropped, and is true wherever the hard rows are.

Literals fixed false are cut out of the rows kept, which keeps their truth, and blocked clause
elimination drops hard rows only, flipping variables that no soft row mentions.

So two accounts hold of every engine preprocessing reaches from rows `R` (`Costed`): replaying
the trace on a valuation that satisfies the hard rows leaves false, in each objective, what the
valuation leaves false of the rows plus the removed weight (`CostSound`), and a valuation
satisfying the hard clauses `H` satisfies the hard rows and the fixed literals and leaves false of
`R` what it leaves false of the rows plus the removed weight (`CostComplete`).

Main statements: `Step.costed` for one step, and `preprocess_costed` for a preprocessing call.
-/

namespace MaxSatPrep

namespace Engine

open Session (intOf)

/-! ## The weight left false -/

/-- the weight in objective `i` of the rows a valuation leaves false; a hard row weighs nothing -/
def falseWeight (σ : Valuation) (rows : List Row) (i : Nat) : Int :=
  weightSum (rows.filter (fun r => !decide (σ.clause r.ints))) i

/-- the removed weight of objective `i`, zero past the objectives -/
def removedAt (removed : List Datum) (i : Nat) : Int := intOf (removed.getD i (.int 0))

@[simp] theorem falseWeight_nil (σ : Valuation) (i : Nat) : falseWeight σ [] i = 0 := rfl

@[simp] theorem falseWeight_cons (σ : Valuation) (r : Row) (rows : List Row) (i : Nat) :
    falseWeight σ (r :: rows) i =
      (if σ.clause r.ints then 0 else r.weightAt i) + falseWeight σ rows i := by
  by_cases h : σ.clause r.ints <;> simp [falseWeight, h]

theorem Row.weightAt_hard {r : Row} (h : r.weights = none) (i : Nat) : r.weightAt i = 0 := by
  simp [Row.weightAt, h]

theorem falseWeight_congr {σ τ : Valuation} {rows : List Row}
    (h : ∀ r ∈ rows, r.weights ≠ none → ∀ z ∈ r.ints, σ z.natAbs = τ z.natAbs) (i : Nat) :
    falseWeight σ rows i = falseWeight τ rows i := by
  induction rows with
  | nil => rfl
  | cons r rows ih =>
    rw [falseWeight_cons, falseWeight_cons, ih (fun r' hr' => h r' (by simp [hr']))]
    by_cases hw : r.weights = none
    · simp [Row.weightAt_hard hw]
    · have hiff := Valuation.clause_congr (h r (by simp) hw)
      by_cases hσ : σ.clause r.ints
      · simp [hσ, hiff.1 hσ]
      · simp [hσ, mt hiff.2 hσ]

theorem falseWeight_dropAt {σ : Valuation} {rows : List Row} {gone : List Nat}
    (h : ∀ j ∈ gone, ∀ r, rows[j]? = some r → σ.clause r.ints) (i : Nat) :
    falseWeight σ (dropAt rows gone) i = falseWeight σ rows i := by
  unfold falseWeight
  rw [filter_dropAt (fun j hj r hr => by simp [h j hj r hr])]

theorem weightSum_past {rows : List Row} {removed : List Datum} (h : RowsWf rows removed)
    {i : Nat} (hi : removed.length ≤ i) : weightSum rows i = 0 := by
  refine List.sum_eq_zero (fun x hx => ?_)
  obtain ⟨r, hr, rfl⟩ := List.mem_map.1 hx
  have hlen := h.weights_length r hr
  rw [Row.weightAt, List.getD_eq_getElem?_getD, List.getElem?_eq_none (by omega)]
  rfl

theorem removedAt_addRemoved {removed : List Datum} {rows : List Row} (h : RowsWf rows removed)
    (i : Nat) : removedAt (addRemoved removed rows) i = removedAt removed i + weightSum rows i := by
  by_cases hi : i < removed.length
  · simp [removedAt, addRemoved, List.getD_eq_getElem?_getD, hi]
  · have hpast : ∀ (xs : List Datum), xs.length = removed.length → removedAt xs i = 0 := by
      intro xs hxs
      simp [removedAt, List.getD_eq_getElem?_getD, List.getElem?_eq_none (by omega : xs.length ≤ i)]
    rw [hpast _ (length_addRemoved _ _), hpast _ rfl, weightSum_past h (by omega)]
    simp

/-! ## A sweep -/

section Sweep

variable {vs : Fixing} {σ : Valuation} {r : Row}

theorem retiredBy_false (hvs : FixingWf vs) (hag : AgreesOn σ vs r) (h : retiredBy vs r = true) :
    ¬ σ.clause r.ints := by
  have hempty : (Row.without vs r).lits = [] := by
    simp only [retiredBy, Bool.and_eq_true, Bool.not_eq_true', List.isEmpty_iff] at h
    exact h.1.2
  rw [← without_true_iff hvs hag]
  rintro ⟨z, hz, -⟩
  simp [Row.ints, hempty] at hz

theorem dropped_true (hag : AgreesOn σ vs r) (hk : keptRow vs r = none) (h : retiredBy vs r = false) :
    σ.clause r.ints := by
  unfold keptRow at hk
  split at hk
  · exact satisfiedBy_true hag ‹_›
  · rename_i hsat
    split at hk
    · rename_i hcut
      simp [retiredBy, hsat, hcut] at h
    · cases hk

/-- **A sweep accounts for every weight.** Under a valuation making the fixed literals true on the
rows' variables, what the rows leave false is what the rows kept leave false plus the weight of
the rows retired. -/
theorem falseWeight_sweep (hvs : FixingWf vs) {rows : List Row} (hag : ∀ r ∈ rows, AgreesOn σ vs r)
    (i : Nat) : falseWeight σ rows i =
      falseWeight σ (rows.filterMap (keptRow vs)) i + weightSum (rows.filter (retiredBy vs)) i := by
  induction rows with
  | nil => simp
  | cons r rows ih =>
    have ih := ih (fun r' hr' => hag r' (by simp [hr']))
    have hr := hag r (by simp)
    cases hk : keptRow vs r with
    | some r' =>
      have hiff := keptRow_some_iff hvs hr hk
      simp only [falseWeight_cons, List.filterMap_cons, hk, List.filter_cons, retiredBy_of_kept hk,
        Bool.false_eq_true, if_false, hiff, weightAt_kept hk, ih]
      ring
    | none =>
      cases hret : retiredBy vs r
      · simp only [falseWeight_cons, List.filterMap_cons, hk, List.filter_cons, hret,
          Bool.false_eq_true, if_false, if_pos (dropped_true hr hk hret), zero_add, ih]
      · simp only [falseWeight_cons, List.filterMap_cons, hk, List.filter_cons, hret, if_true,
          if_neg (retiredBy_false hvs hr hret), weightSum_cons, ih]
        ring

theorem falseWeight_sweep_removed (hvs : FixingWf vs) {rows : List Row} {removed : List Datum}
    (hwf : RowsWf rows removed) (hag : ∀ r ∈ rows, AgreesOn σ vs r) (i : Nat) :
    falseWeight σ rows i + removedAt removed i =
      falseWeight σ (rows.filterMap (keptRow vs)) i +
        removedAt (addRemoved removed (rows.filter (retiredBy vs))) i := by
  rw [falseWeight_sweep hvs hag i, removedAt_addRemoved (hwf.sublist List.filter_sublist)]
  ring

end Sweep

/-! ## The accounts -/

/-- Replaying the trace on a valuation that satisfies the hard rows leaves false of the rows `R`,
in every objective, what the valuation leaves false of the rows plus the removed weight. -/
def CostSound (R : List Row) (e : Engine) : Prop :=
  ∀ α : Valuation, HardTrue α e →
    ∀ i, falseWeight (α.replay e.trace) R i = falseWeight α e.rows i + removedAt e.removed i

/-- A valuation satisfying `H` satisfies the hard rows and the fixed literals, and leaves false of
the rows `R`, in every objective, what it leaves false of the rows plus the removed weight. -/
def CostComplete (H : List (List Int)) (R : List Row) (e : Engine) : Prop :=
  ∀ σ : Valuation, (∀ c ∈ H, σ.clause c) → HardTrue σ e ∧ (∀ d ∈ e.fixed, σ.lit (intOf d)) ∧
    ∀ i, falseWeight σ R i = falseWeight σ e.rows i + removedAt e.removed i

/-- both accounts of the weight of the rows `R` the engine started from -/
structure Costed (H : List (List Int)) (R : List Row) (e : Engine) : Prop where
  sound : CostSound R e
  complete : CostComplete H R e

variable {H : List (List Int)} {R : List Row}

theorem Costed.congr {e e' : Engine} (hc : Costed H R e) (hrows : e'.rows = e.rows)
    (hremoved : e'.removed = e.removed) (hfixed : e'.fixed = e.fixed) (htrace : e'.trace = e.trace) :
    Costed H R e' := by
  refine ⟨fun α hα i => ?_, fun σ hσ => ?_⟩
  · have hα' : HardTrue α e := fun r hr => hα r (hrows ▸ hr)
    rw [htrace, hrows, hremoved]
    exact hc.sound α hα' i
  · obtain ⟨hhard, hfix, hcost⟩ := hc.complete σ hσ
    refine ⟨fun r hr => hhard r (hrows ▸ hr), fun d hd => hfix d (hfixed ▸ hd), fun i => ?_⟩
    rw [hrows, hremoved]
    exact hcost i

theorem costed_start {e : Engine} (htrace : e.trace = []) (hfixed : e.fixed = [])
    (hremoved : ∀ i, removedAt e.removed i = 0)
    (hH : ∀ σ : Valuation, (∀ c ∈ H, σ.clause c) → HardTrue σ e) : Costed H e.rows e := by
  refine ⟨fun α _ i => by simp [htrace, hremoved], fun σ hσ => ⟨hH σ hσ, by simp [hfixed], ?_⟩⟩
  intro i
  simp [hremoved]

/-! ## Each technique keeps the accounts -/

/-- **Unit propagation keeps the accounts.** Replaying its fixes takes a model of the hard rows
left to one of the hard rows there were that agrees with all fixed literals, and the sweep moves
weight only into the removed weights. -/
theorem Costed.propagated {e : Engine} {F : List Int} (hwf : Wf e) (hc : Costed H R e)
    (hF : ∀ z ∈ F, z ≠ 0) (hnd : (F.map Int.natAbs).Nodup)
    (hforced : ∀ σ : Valuation, (∀ d ∈ e.fixed, σ.lit (intOf d)) →
      (∀ r ∈ e.rows, r.weights = none → σ.clause r.ints) → ∀ z ∈ F, σ.lit z) :
    Costed H R (e.propagated F) := by
  have hwfF : FixingWf (fixingOf (e.fixed ++ F.map .int)) := fixingOf_wf (hwf.fixed_append hF)
  unfold Engine.propagated
  refine ⟨fun α hα i => ?_, fun σ hσ => ?_⟩
  · obtain ⟨hagree, hkept⟩ := replay_fixes_rows hwf hF hnd α
    have hα' := hardTrue_replay_fixes hwf hF hnd hα
    rw [Valuation.replay_append, hc.sound _ hα' i,
      falseWeight_sweep_removed hwfF hwf.rows hagree i]
    congr 1
    exact falseWeight_congr (fun r hr _ z hz => hkept r hr z hz) i
  · obtain ⟨hhard, hfix, hcost⟩ := hc.complete σ hσ
    have hall : ∀ d ∈ e.fixed ++ F.map .int, σ.lit (intOf d) := by
      intro d hd
      rcases List.mem_append.1 hd with hd | hd
      · exact hfix d hd
      · obtain ⟨z, hz, rfl⟩ := List.mem_map.1 hd
        exact hforced σ hfix hhard z hz
    have hag := agrees_fixingOf hall
    refine ⟨hag.kept_hard hwfF hhard, hall, fun i => ?_⟩
    rw [hcost i, falseWeight_sweep_removed hwfF hwf.rows (fun r _ => hag.on r) i]

/-- **Subsumption keeps the accounts**: a row dropped contains a hard row left, so it is true
wherever the hard rows left are. -/
theorem Costed.subsumed {e : Engine} {gone : List Nat} (hc : Costed H R e)
    (hkept : KeptSubset e.rows gone) : Costed H R { e with rows := dropAt e.rows gone } := by
  refine ⟨fun α hα i => ?_, fun σ hσ => ?_⟩
  · rw [hc.sound α (hkept.hard_true hα) i]
    exact congrArg (· + _) (falseWeight_dropAt (hkept.dropped_true hα) i).symm
  · obtain ⟨hhard, hfix, hcost⟩ := hc.complete σ hσ
    have hleft : HardTrue σ { e with rows := dropAt e.rows gone } :=
      hardTrue_of_sublist (dropAt_sublist e.rows gone) hhard
    refine ⟨hleft, hfix, fun i => ?_⟩
    rw [hcost i]
    exact congrArg (· + _) (falseWeight_dropAt (hkept.dropped_true hleft) i).symm

/-- Replaying elimination events changes only their blocking variables. -/
theorem replay_blocked_other {events : List Event} {n : Nat}
    (h : ∀ ev ∈ events, ∃ c b, ev = .blocked c b ∧ (intOf b).natAbs ≠ n) (α : Valuation) :
    α.replay events n = α n := by
  induction events with
  | nil => rfl
  | cons ev events ih =>
    obtain ⟨c, b, rfl, hb⟩ := h ev (by simp)
    have hcons : α.replay (.blocked c b :: events) =
        (α.replay events).replayEvent (.blocked c b) := by
      rw [← List.singleton_append, Valuation.replay_append]
      rfl
    rw [hcons, ← ih (fun ev hev => h ev (by simp [hev]))]
    simp only [Valuation.replayEvent]
    split
    · rfl
    · simp [Valuation.setLit, Function.update_of_ne (Ne.symm hb)]

/-- **Blocked clause elimination keeps the accounts**: it drops hard rows only, which its events
repair, and flips only variables that no soft row mentions. -/
theorem Costed.eliminated {e : Engine} {gone : List Nat} {events : List Event} (hc : Costed H R e)
    (hhardGone : ∀ j ∈ gone, ∀ r, e.rows[j]? = some r → r.weights = none)
    (hev : ∀ ev ∈ events, ∃ c b, ev = .blocked c b ∧ (∀ d ∈ c, IsLit d) ∧ IsLit b ∧
      ∀ r ∈ e.rows, r.weights ≠ none → ∀ d ∈ r.lits, (intOf d).natAbs ≠ (intOf b).natAbs)
    (hback : ∀ α : Valuation, (∀ r ∈ dropAt e.rows gone, r.weights = none → α.clause r.ints) →
      HardTrue (α.replay events) e) :
    Costed H R { e with rows := dropAt e.rows gone, trace := e.trace ++ events } := by
  refine ⟨fun α hα i => ?_, fun σ hσ => ?_⟩
  · have hα' := hback α hα
    -- the rows dropped are hard, so the events make them true
    have hdrop : ∀ j ∈ gone, ∀ r, e.rows[j]? = some r → (α.replay events).clause r.ints :=
      fun j hj r hr => hα' r (List.mem_of_getElem? hr) (hhardGone j hj r hr)
    have hsame : ∀ r ∈ dropAt e.rows gone, r.weights ≠ none → ∀ z ∈ r.ints,
        α.replay events z.natAbs = α z.natAbs := by
      intro r hr hw z hz
      obtain ⟨d, hd, rfl⟩ := List.mem_map.1 hz
      refine replay_blocked_other (fun ev hev' => ?_) α
      obtain ⟨c', b, rfl, -, -, hfree⟩ := hev ev hev'
      exact ⟨c', b, rfl, Ne.symm (hfree r ((dropAt_sublist _ _).subset hr) hw d hd)⟩
    show falseWeight (α.replay (e.trace ++ events)) R i =
      falseWeight α (dropAt e.rows gone) i + removedAt e.removed i
    rw [Valuation.replay_append, hc.sound _ hα' i, ← falseWeight_dropAt hdrop i,
      falseWeight_congr hsame i]
  · obtain ⟨hhard, hfix, hcost⟩ := hc.complete σ hσ
    refine ⟨hardTrue_of_sublist (dropAt_sublist e.rows gone) hhard, hfix, fun i => ?_⟩
    rw [hcost i]
    exact congrArg (· + _)
      (falseWeight_dropAt (fun j hj r hr => hhard r (List.mem_of_getElem? hr) (hhardGone j hj r hr))
        i).symm

/-! ## Preprocessing keeps the accounts -/

/-- Every step of preprocessing keeps the accounts. -/
theorem Step.costed {e e' : Engine} (hstep : Step e e') (hwf : Wf e) (hc : Costed H R e) :
    Costed H R e' := by
  cases hstep.effect hwf.tabled with
  | propagate F hnew hnd _ hforced => exact hc.propagated hwf (fun z hz => (hnew z hz).1) hnd hforced
  | subsume gone hkept => exact hc.subsumed hkept
  | eliminate gone events _ hhard hev hback => exact hc.eliminated hhard hev hback
  | same => exact hc
  | note log idle info => exact hc.congr rfl rfl rfl rfl

/-- Along steps the accounts hold. -/
theorem Steps.costed {H' : List (List Int)} {e e' : Engine} (h : Steps e e') (hwf : Wf e)
    (hs : Sound H' e) (hc : Costed H R e) : Costed H R e' := by
  induction h with
  | refl => exact hc
  | tail hsteps hstep ih => exact hstep.costed (Steps.sound hsteps hwf hs).1 ih

/-- **Preprocessing keeps the accounts.** A preprocessing call, whether it answers or fails,
leaves an engine that keeps both accounts of the rows `R`. -/
theorem preprocess_costed (techniques logLevel timeLimit : Datum) (addRemoved : Bool)
    {H' : List (List Int)} {e : Engine} (hwf : Wf e) (hs : Sound H' e) (hc : Costed H R e) :
    Costed H R ((preprocess techniques logLevel timeLimit addRemoved).run e).2 := by
  obtain ⟨e₁, hsteps, top, p, info, heq, -⟩ :=
    preprocess_steps techniques logLevel timeLimit addRemoved e
  rw [heq]
  exact (hsteps.costed hwf hs hc).congr rfl rfl rfl rfl

end Engine

end MaxSatPrep
