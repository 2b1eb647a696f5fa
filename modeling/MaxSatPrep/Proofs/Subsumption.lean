import MaxSatPrep.Proofs.PropagationRun
/-!
Subsumption and the rows left after dropping positions. Subsumption and blocked clause
elimination both drop rows by position (`dropAt`); a row dropped keeps the rows after it in
their order.

Main statement, `subsume_spec`: on integer rows subsumption does not fail, and every row it drops
contains the literals of a hard row that stays (`KeptSubset`), so a valuation that satisfies the
hard rows left satisfies every row dropped (`KeptSubset.dropped_true`).
-/

namespace MaxSatPrep

namespace Engine

open Session (intOf)

/-! ## Dropping rows by position -/

/-- the rows at the positions not listed -/
def dropAt (rows : List Row) (gone : List Nat) : List Row :=
  (rows.zipIdx.filter (fun p => !gone.contains p.2)).map Prod.fst

section DropAt

variable {rows : List Row} {gone : List Nat}

@[simp] theorem dropAt_nil (rows : List Row) : dropAt rows [] = rows := by
  simp [dropAt, List.zipIdx_map_fst]

theorem dropAt_sublist (rows : List Row) (gone : List Nat) : (dropAt rows gone).Sublist rows := by
  have h : (dropAt rows gone).Sublist (rows.zipIdx.map Prod.fst) := List.filter_sublist.map Prod.fst
  rwa [List.zipIdx_map_fst] at h

theorem mem_dropAt {i : Nat} {r : Row} (hr : rows[i]? = some r) (hi : i ∉ gone) :
    r ∈ dropAt rows gone := by
  refine List.mem_map.2 ⟨(r, i), List.mem_filter.2 ⟨List.mem_zipIdx_iff_getElem?.2 hr, ?_⟩, rfl⟩
  simpa using hi

theorem mem_dropAt_or {r : Row} (hr : r ∈ rows) :
    r ∈ dropAt rows gone ∨ ∃ j ∈ gone, rows[j]? = some r := by
  obtain ⟨i, hi, hget⟩ := List.getElem_of_mem hr
  have hget' : rows[i]? = some r := by rw [List.getElem?_eq_getElem hi, hget]
  by_cases hg : i ∈ gone
  · exact Or.inr ⟨i, hg, hget'⟩
  · exact Or.inl (mem_dropAt hget' hg)

theorem filter_dropAt {p : Row → Bool} (h : ∀ j ∈ gone, ∀ r, rows[j]? = some r → p r = false) :
    (dropAt rows gone).filter p = rows.filter p := by
  conv => rhs; rw [← List.zipIdx_map_fst 0 rows]
  simp only [dropAt, List.filter_map, List.filter_filter]
  congr 1
  apply List.filter_congr
  intro x hx
  cases hp : p x.1
  · simp [hp]
  · have hget := List.mem_zipIdx_iff_getElem?.1 hx
    have hx2 : x.2 ∉ gone := fun hg => by simp [h x.2 hg x.1 hget] at hp
    simp [Function.comp, hp, hx2]

end DropAt

/-! ## Rows dropped for a hard row they contain -/

/-- every dropped position holds a row containing the literals of a hard row that stays -/
def KeptSubset (rows : List Row) (gone : List Nat) : Prop :=
  ∀ j ∈ gone, ∀ r, rows[j]? = some r →
    ∃ i, i ∉ gone ∧ ∃ h, rows[i]? = some h ∧ h.weights = none ∧ h.lits ⊆ r.lits

theorem keptSubset_nil (rows : List Row) : KeptSubset rows [] := by
  simp [KeptSubset]

/-- A valuation that satisfies the hard rows left satisfies every row dropped. -/
theorem KeptSubset.dropped_true {rows : List Row} {gone : List Nat} (h : KeptSubset rows gone)
    {σ : Valuation} (hσ : ∀ r ∈ dropAt rows gone, r.weights = none → σ.clause r.ints) :
    ∀ j ∈ gone, ∀ r, rows[j]? = some r → σ.clause r.ints := by
  intro j hj r hr
  obtain ⟨i, hi, h', hget, hw, hsub⟩ := h j hj r hr
  obtain ⟨z, hz, hl⟩ := hσ h' (mem_dropAt hget hi) hw
  obtain ⟨d, hd, rfl⟩ := List.mem_map.1 hz
  exact ⟨intOf d, List.mem_map_of_mem (hsub hd), hl⟩

theorem KeptSubset.hard_true {rows : List Row} {gone : List Nat} (h : KeptSubset rows gone)
    {σ : Valuation} (hσ : ∀ r ∈ dropAt rows gone, r.weights = none → σ.clause r.ints) :
    ∀ r ∈ rows, r.weights = none → σ.clause r.ints := by
  intro r hr hw
  rcases @mem_dropAt_or rows gone r hr with hr | ⟨j, hj, hget⟩
  · exact hσ r hr hw
  · exact h.dropped_true hσ j hj r hget

/-! ## Subsumption -/

theorem memberOf_lits {r : Row} (h : ∀ d ∈ r.lits, IsLit d) (x : Int) :
    Datum.memberOf (.int x) r.lits = decide (x ∈ r.ints) := by
  conv => lhs; rw [← ints_map_int h]
  rw [Datum.memberOf_ints]
  rfl

theorem subsetOf_ints {a b : List Datum} (ha : ∀ d ∈ a, IsLit d) (hb : ∀ d ∈ b, IsLit d)
    (h : subsetOf a b = true) : a ⊆ b := by
  intro d hd
  have hm := List.all_eq_true.1 h d hd
  obtain ⟨z, -, rfl⟩ := ha d hd
  have hb' : b = (b.map intOf).map Datum.int := (ints_map_int hb).symm
  rw [hb', Datum.memberOf_ints, decide_eq_true_eq] at hm
  rw [hb']
  exact List.mem_map_of_mem hm

/-- The hard row at position `k`, if it is still present, drops the rows containing its literals;
each such row has the row at `k` as the hard row it contains, and a row dropped earlier whose
hard row is dropped now contains the row at `k` through it. -/
theorem KeptSubset.removeSupersets {rows : List Row} (hlits : ∀ r ∈ rows, ∀ d ∈ r.lits, IsLit d)
    {gone : List Nat} (h : KeptSubset rows gone) {k : Nat}
    (hk : ∀ rk, rows[k]? = some rk → rk.weights = none) :
    KeptSubset rows (removeSupersets rows k gone) := by
  unfold Engine.removeSupersets
  split
  · exact h
  · rename_i hkg
    cases hget : rows[k]? with
    | none => exact h
    | some rk =>
      dsimp only
      have hrk : ∀ d ∈ rk.lits, IsLit d := hlits rk (List.mem_of_getElem? hget)
      -- what the sweep over the positions keeps: the old positions, never `k`, and new positions
      -- only of rows containing the row at `k`
      let Q : List Nat → Prop := fun acc =>
        (∀ x ∈ gone, x ∈ acc) ∧ k ∉ acc ∧
          ∀ j ∈ acc, j ∉ gone → ∃ rj, rows[j]? = some rj ∧ rk.lits ⊆ rj.lits
      have hQ : Q ((List.range rows.length).foldl (fun acc j =>
          if j != k && !acc.contains j && (rows[j]?.map (fun rj => subsetOf rk.lits rj.lits)).getD false
          then acc ++ [j] else acc) gone) := by
        refine List.foldlRecOn _ _ ⟨fun x hx => hx, by simpa using hkg, fun j hj hn => absurd hj hn⟩ ?_
        intro acc ⟨hsup, hkacc, hnew⟩ j _
        split
        · rename_i hcond
          simp only [Bool.and_eq_true, bne_iff_ne, ne_eq, Bool.not_eq_eq_eq_not, Bool.not_true,
            List.contains_eq_mem, decide_eq_false_iff_not] at hcond
          obtain ⟨⟨hjk, -⟩, hsubj⟩ := hcond
          refine ⟨fun x hx => List.mem_append_left _ (hsup x hx), ?_, ?_⟩
          · simp only [List.mem_append, List.mem_singleton, not_or]
            exact ⟨hkacc, fun h => hjk h.symm⟩
          · intro i hi hig
            rcases List.mem_append.1 hi with hi | hi
            · exact hnew i hi hig
            · rw [List.mem_singleton.1 hi]
              cases hj : rows[j]? with
              | none => simp [hj] at hsubj
              | some rj =>
                simp only [hj, Option.map_some, Option.getD_some] at hsubj
                exact ⟨rj, rfl, subsetOf_ints hrk (hlits rj (List.mem_of_getElem? hj)) hsubj⟩
        · exact ⟨hsup, hkacc, hnew⟩
      suffices key : ∀ acc, Q acc → KeptSubset rows acc from key _ hQ
      rintro acc ⟨-, hkacc, hnew⟩
      intro j hj r hr
      by_cases hjg : j ∈ gone
      · obtain ⟨i, hig, hi, hgeti, hwi, hsub⟩ := h j hjg r hr
        by_cases hiacc : i ∈ acc
        case neg => exact ⟨i, hiacc, hi, hgeti, hwi, hsub⟩
        case pos =>
          obtain ⟨ri, hgetri, hsubk⟩ := hnew i hiacc hig
          rw [hgeti] at hgetri
          cases hgetri
          exact ⟨k, hkacc, rk, hget, hk rk hget, List.Subset.trans hsubk hsub⟩
      · obtain ⟨rj, hgetj, hsubk⟩ := hnew j hj hjg
        rw [hr] at hgetj
        cases hgetj
        exact ⟨k, hkacc, rk, hget, hk rk hget, hsubk⟩

/-- the positions of the hard rows, in order, as subsumption and blocked clause elimination list
them -/
def hardPositions (rows : List Row) : List Nat :=
  (List.range rows.length).filter (fun i => (rows[i]?.map Row.hard).getD false)

theorem mem_hardPositions {rows : List Row} {j : Nat} :
    j ∈ hardPositions rows ↔ ∃ r, rows[j]? = some r ∧ r.weights = none := by
  simp only [hardPositions, List.mem_filter, List.mem_range]
  constructor
  · rintro ⟨hj, hh⟩
    rw [List.getElem?_eq_getElem hj] at hh ⊢
    exact ⟨_, rfl, by simpa [Row.hard] using hh⟩
  · rintro ⟨r, hr, hw⟩
    obtain ⟨hj, -⟩ := List.getElem?_eq_some_iff.1 hr
    exact ⟨hj, by simp [hr, Row.hard, hw]⟩

theorem hardOrder_hard {rows : List Row} {k : Nat} (hk : k ∈ hardOrder rows) :
    ∀ rk, rows[k]? = some rk → rk.weights = none := by
  intro rk hget
  obtain ⟨r, hr, hw⟩ := mem_hardPositions.1 (List.mem_mergeSort.1 hk)
  rw [hget] at hr
  cases hr
  exact hw

/-- the positions subsumption drops: each hard row in turn, by size, drops the rows present that
contain it -/
def subsumedPositions (rows : List Row) : List Nat :=
  (hardOrder rows).foldl (fun acc i => removeSupersets rows i acc) []

/-- On integer rows subsumption drops the positions `subsumedPositions` finds and reports whether
there were any. -/
theorem subsume_run {e : Engine} (hlits : ∀ r ∈ e.rows, ∀ d ∈ r.lits, IsLit d) :
    subsume.run e = (.ok !(subsumedPositions e.rows).isEmpty,
      { e with rows := dropAt e.rows (subsumedPositions e.rows) }) := by
  have hcheck : (e.rows.forM (fun r => do
      let _ ← EngineM.lift (r.lits.mapM Datum.hashable)
      pure ())).run e = (.ok ⟨⟩, e) := by
    refine EngineM.run_forM_ok (fun r hr e' => ?_)
    have hhash : ∀ d ∈ r.lits, Datum.hashable d = .ok d := fun d hd => by
      rw [(hlits r hr d hd).eq]
      rfl
    rw [Outcome.mapM_ok hhash]
    rfl
  simp only [subsume, subsumedPositions, EngineM.run_bind, EngineM.run_get, hcheck]
  generalize (hardOrder e.rows).foldl (fun acc i => removeSupersets e.rows i acc) [] = gone
  cases hg : gone.isEmpty
  · simp only [Bool.false_eq_true, if_false, EngineM.run_bind, EngineM.run_set, EngineM.run_pure,
      Bool.not_false]
    rfl
  · rw [List.isEmpty_iff.1 hg]
    simp only [if_true, EngineM.run_pure, dropAt_nil, Bool.not_true]

/-- **Subsumption.** On integer rows subsumption does not fail; it drops positions, and every
row dropped contains the literals of a hard row that stays. -/
theorem subsume_spec {e : Engine} (hlits : ∀ r ∈ e.rows, ∀ d ∈ r.lits, IsLit d) :
    ∃ (c : Bool) (gone : List Nat),
      subsume.run e = (.ok c, { e with rows := dropAt e.rows gone }) ∧ KeptSubset e.rows gone :=
  ⟨_, _, subsume_run hlits, List.foldlRecOn _ _ (keptSubset_nil e.rows)
    (fun _ hacc _ hk => hacc.removeSupersets hlits (hardOrder_hard hk))⟩

end Engine

end MaxSatPrep
