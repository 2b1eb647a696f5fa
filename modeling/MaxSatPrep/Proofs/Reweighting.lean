import MaxSatPrep.Proofs.Classification
/-!
Reweighting a label. A label's row carries its weight in one objective's column and zero in the
others. Changing the weight does not remember that column: it finds it again as the first column
whose weight is not zero, or as the first column when every weight is zero. So a label keeps its
objective through a run of reweightings as long as the weight it has before each of them is not
zero, or its column is the first; a label reweighed from zero moves to the first objective. The
instance read back shows the label's clause with the last weight in the label's objective, summed,
as equal clauses are, with what the other soft rows of that clause weigh there.

Main statements: `Row.reweigh_carries` (one reweighting), `Session.Reachable.alterWeights_carry`
(a run of them), `Row.reweigh_zero_weightAt` (a label reweighed from zero) and
`reweighted_label_keeps_objective`.
-/

namespace MaxSatPrep

open Session (intOf)

/-! ## The column a reweighting finds -/

namespace Row

theorem weightAt_eq_getD (r : Row) (k : Nat) : r.weightAt k = ((r.weights.getD []).map intOf).getD k 0 := by
  simp only [weightAt, List.getD_eq_getElem?_getD, List.getElem?_map]
  cases (r.weights.getD [])[k]? <;> rfl

/-- A row carries its weight in column `j`: every other column weighs zero. -/
def CarriesIn (r : Row) (j : Nat) : Prop := ∀ k, k ≠ j → r.weightAt k = 0

end Row

namespace Engine

/-- On integer weights that are zero outside column `j`, the objective of a label is `j` when its
weight there is not zero, and the first column when it is. -/
theorem labelObjective_eq {ws : List Datum} (hints : ∀ x ∈ ws, ∃ k : Int, x = .int k) {j : Nat}
    (hzero : ∀ k, k ≠ j → intOf (ws.getD k (.int 0)) = 0)
    (hfound : j = 0 ∨ intOf (ws.getD j (.int 0)) ≠ 0) : labelObjective ws = j := by
  unfold labelObjective
  cases hf : ws.findIdx? Datum.truthy with
  | none =>
    rcases hfound with rfl | hne
    · rfl
    refine absurd ?_ hne
    rw [List.getD_eq_getElem?_getD]
    cases hj : ws[j]? with
    | none => rfl
    | some x =>
      have hx := List.findIdx?_eq_none_iff.1 hf x (List.mem_of_getElem? hj)
      obtain ⟨k, rfl⟩ := hints x (List.mem_of_getElem? hj)
      simpa [Datum.truthy] using hx
  | some m =>
    obtain ⟨hm, htrue, -⟩ := List.findIdx?_eq_some_iff_getElem.1 hf
    obtain ⟨k, hk⟩ := hints _ (List.getElem_mem hm)
    by_contra hne
    have hzm := hzero m hne
    rw [List.getD_eq_getElem?_getD, List.getElem?_eq_getElem hm, Option.getD_some, hk,
      Session.intOf_int] at hzm
    rw [hk, hzm] at htrue
    cases htrue

end Engine

namespace Row

variable {r : Row} {j : Nat}

theorem reweigh_weightAt (hobj : Engine.labelObjective (r.weights.getD []) = j)
    (hj : j < (r.weights.getD []).length) (w : Int) (k : Nat) :
    (r.reweigh w).weightAt k = if k = j then w else r.weightAt k := by
  simp only [weightAt, reweigh, hobj, Option.getD_some, List.getD_eq_getElem?_getD, List.getElem?_set]
  by_cases hk : j = k
  · subst hk
    simp [hj]
  · simp [hk, Ne.symm hk]

/-- **Step lemma.** Reweighing a row found in column `j` puts the new weight there and keeps zero in
the other columns. -/
theorem reweigh_carries (hints : ∀ x ∈ r.weights.getD [], ∃ k : Int, x = .int k)
    (hlen : 0 < (r.weights.getD []).length) (hcol : r.CarriesIn j) (hfound : j = 0 ∨ r.weightAt j ≠ 0)
    (w : Int) (k : Nat) : (r.reweigh w).weightAt k = if k = j then w else 0 := by
  have hj : j < (r.weights.getD []).length := by
    rcases hfound with rfl | hne
    · exact hlen
    · by_contra hge
      exact hne (by simp [weightAt, List.getD_eq_getElem?_getD, List.getElem?_eq_none (not_lt.1 hge)])
  rw [reweigh_weightAt (Engine.labelObjective_eq hints hcol hfound) hj]
  split_ifs with hk
  · rfl
  · exact hcol k hk

/-- **A label reweighed from zero moves to the first objective.** When every weight of a row is
zero, reweighing it puts the new weight in the first column, whichever objective the row came
from. -/
theorem reweigh_zero_weightAt (hints : ∀ x ∈ r.weights.getD [], ∃ k : Int, x = .int k)
    (hne : r.weights.getD [] ≠ []) (hzero : ∀ k, r.weightAt k = 0) (w : Int) (k : Nat) :
    (r.reweigh w).weightAt k = if k = 0 then w else 0 := by
  have hobj : Engine.labelObjective (r.weights.getD []) = 0 :=
    Engine.labelObjective_eq hints (fun k _ => hzero k) (.inl rfl)
  rw [reweigh_weightAt hobj (List.length_pos_of_ne_nil hne), hzero]

end Row

/-! ## Finding a label's row -/

/-- With label rows on distinct variables, the first label row of a literal is the one there is. -/
theorem labelPos_eq_of_nodup {rows : List Row} (hnd : ((labelLits rows).map Int.natAbs).Nodup) {i : Nat}
    {r : Row} (hr : rows[i]? = some r) (hlab : r.label = true) : labelPos rows r.labelLit = some i := by
  induction rows generalizing i with
  | nil => cases hr
  | cons r₀ rows ih =>
    cases i with
    | zero =>
      cases hr
      rw [labelPos, List.findIdx?_cons, if_pos (by simp [hlab])]
    | succ i =>
      have hr' : rows[i]? = some r := hr
      have hmem : r.labelLit ∈ labelLits rows :=
        List.mem_map.2 ⟨r, List.mem_filter.2 ⟨List.mem_of_getElem? hr', hlab⟩, rfl⟩
      rw [labelLits_cons] at hnd
      by_cases h₀ : r₀.label = true ∧ r₀.labelLit = r.labelLit
      · rw [if_pos h₀.1, List.map_cons, h₀.2] at hnd
        exact absurd (List.mem_map_of_mem hmem) (List.nodup_cons.1 hnd).1
      · have hnd' : ((labelLits rows).map Int.natAbs).Nodup := by
          split at hnd
          · exact (List.nodup_cons.1 hnd).2
          · exact hnd
        have hfirst : (r₀.label && decide (r₀.labelLit = r.labelLit)) = false := by
          simpa using h₀
        simp only [labelPos, List.findIdx?_cons, hfirst] at ih ⊢
        rw [ih hnd' hr']
        rfl

theorem labelEntry_eq_of_nodup {rows : List Row} (hnd : ((labelLits rows).map Int.natAbs).Nodup) {i : Nat}
    {r : Row} (hr : rows[i]? = some r) (hlab : r.label = true) : labelEntry rows r.labelLit = some (i, r) := by
  simp [labelEntry, labelPos_eq_of_nodup hnd hr hlab, hr]

/-! ## Reweighting along a session -/

namespace Session

variable {s s' : Session} {L : Lit} {i : Nat} {r : Row}

/-- A reweighting that succeeds on a label row reweighs that row and leaves the others. -/
theorem Ready.alterWeight_rows (h : s.Ready) (hr : s.engine.rows[i]? = some r) (hlab : r.label = true)
    (hL : r.labelLit = L.toInt) {w : Nat} (hs' : s.alterWeight (.int L.toInt) (.int w) = .ok s') :
    s'.engine.rows = s.engine.rows.set i (r.reweigh w) ∧ s'.nObj = s.nObj := by
  have he : labelEntry s.engine.rows L.toInt = some (i, r) :=
    hL ▸ labelEntry_eq_of_nodup h.shape.rows.labelVars hr hlab
  rw [alterWeight_eq h, Lit.ofDatum_eq_ok.2 rfl] at hs'
  rcases hw : checkWeight (.int w) with f | w'
  · rw [hw] at hs'
    cases hs'
  obtain ⟨hw', -⟩ := checkWeight_eq_ok.1 hw
  obtain rfl : w' = w := by exact_mod_cast (Datum.int.inj hw').symm
  simp only [hw, he, Except.bind, Option.elim_some] at hs'
  by_cases hg : s.engine.mutable ∧
      ¬ (r.labelWeight < w' ∧ Engine.u64Max < intOf s.engine.top + w' - r.labelWeight)
  · rw [if_pos hg] at hs'
    cases hs'
    exact ⟨rfl, rfl⟩
  · rw [if_neg hg] at hs'
    cases hs'

theorem Reachable.alterWeight (h : s.Reachable) {label weight : Datum}
    (hs' : s.alterWeight label weight = .ok s') : s'.Reachable := by
  have hp : s.perform (.alterWeight label weight) = s' := by rw [Session.perform, hs']; rfl
  exact hp ▸ h.perform (.alterWeight label weight)

/-- **Step lemma.** A successful reweighting of a label whose row carries its weight in column `j`,
not zero there unless `j` is the first column, reweighs that row in column `j`. -/
theorem Reachable.alterWeight_carry (h : s.Reachable) (hr : s.engine.rows[i]? = some r)
    (hlab : r.label = true) (hL : r.labelLit = L.toInt) {j : Nat} (hcol : r.CarriesIn j)
    (hfound : j = 0 ∨ r.weightAt j ≠ 0) {w : Nat} (hs' : s.alterWeight (.int L.toInt) (.int w) = .ok s') :
    s'.Reachable ∧ s'.nObj = s.nObj ∧ s'.engine.rows = s.engine.rows.set i (r.reweigh w) ∧
      ∀ k, (r.reweigh w).weightAt k = if k = j then (w : Int) else 0 := by
  have hready := h.ready
  have hmem : r ∈ s.engine.rows := List.mem_of_getElem? hr
  obtain ⟨ws, hws⟩ := Option.isSome_iff_exists.1 (hready.shape.rows.labels r hmem hlab).1
  obtain ⟨hn, hlen, hwts⟩ := hready.shape.rows.weights r hmem ws hws
  obtain ⟨hrows, hn'⟩ := hready.alterWeight_rows hr hlab hL hs'
  refine ⟨h.alterWeight hs', hn', hrows, Row.reweigh_carries ?_ ?_ hcol hfound w⟩
  · simpa [hws] using fun x hx => ⟨_, (hwts x hx).eq⟩
  · simp [hws, hlen, hn]

/-- **Run lemma.** Successful reweightings `w₁, …, wₙ` of a label whose row carries its weight in
column `j` leave the row, at its place, with `wₙ` in column `j` and zero elsewhere, provided the
weight before each reweighting is not zero or `j` is the first column; the other rows stay. -/
theorem Reachable.alterWeights_carry (h : s.Reachable) (hr : s.engine.rows[i]? = some r)
    (hlab : r.label = true) (hL : r.labelLit = L.toInt) {j : Nat} (hcol : r.CarriesIn j)
    (hfound : j = 0 ∨ r.weightAt j ≠ 0) (pre : List Nat) (w : Nat) (hpre : j = 0 ∨ ∀ x ∈ pre, x ≠ 0)
    (hrun : (pre ++ [w]).foldlM (fun (t : Session) (x : Nat) => t.alterWeight (.int L.toInt) (.int x)) s = .ok s') :
    s'.Reachable ∧ s'.nObj = s.nObj ∧ ∃ r', s'.engine.rows = s.engine.rows.set i r' ∧ r'.lits = r.lits ∧
      r'.label = true ∧ ∀ k, r'.weightAt k = if k = j then (w : Int) else 0 := by
  induction pre generalizing s r with
  | nil =>
    rw [List.nil_append, List.foldlM_cons] at hrun
    rcases hs : s.alterWeight (.int L.toInt) (.int w) with f | t
    · rw [hs] at hrun
      cases hrun
    rw [hs] at hrun
    cases hrun
    obtain ⟨hreach, hn, hrows, hweights⟩ := h.alterWeight_carry hr hlab hL hcol hfound hs
    exact ⟨hreach, hn, r.reweigh w, hrows, rfl, hlab, hweights⟩
  | cons x pre ih =>
    rw [List.cons_append, List.foldlM_cons] at hrun
    rcases ht : s.alterWeight (.int L.toInt) (.int x) with f | t
    · rw [ht] at hrun
      cases hrun
    rw [ht] at hrun
    obtain ⟨hreach, hn, hrows, hweights⟩ := h.alterWeight_carry hr hlab hL hcol hfound ht
    have hr' : t.engine.rows[i]? = some (r.reweigh x) := by
      rw [hrows, List.getElem?_set_self (List.getElem?_eq_some_iff.1 hr).1]
    have hcol' : (r.reweigh x).CarriesIn j := fun k hk => by rw [hweights k, if_neg hk]
    have hfound' : j = 0 ∨ (r.reweigh x).weightAt j ≠ 0 := by
      rcases hpre with h0 | hne
      · exact .inl h0
      · exact .inr (by rw [hweights j, if_pos rfl]; exact_mod_cast hne x List.mem_cons_self)
    have hpre' : j = 0 ∨ ∀ y ∈ pre, y ≠ 0 :=
      hpre.imp_right fun hne y hy => hne y (List.mem_cons_of_mem x hy)
    obtain ⟨hreach', hn'', r', hrows', hlits, hlab', hw'⟩ :=
      ih hreach hr' hlab hL hcol' hfound' hpre' hrun
    refine ⟨hreach', hn''.trans hn, r', ?_, hlits, hlab', hw'⟩
    rw [hrows', hrows, List.set_set]

/-! ## The label read back -/

theorem Engine.weightSum_set {rows : List Row} {i : Nat} (hi : i < rows.length) {P : Row → Bool}
    {r : Row} (hP : P r = true) (k : Nat) :
    Engine.weightSum ((rows.set i r).filter P) k =
      r.weightAt k + Engine.weightSum ((rows.eraseIdx i).filter P) k := by
  rw [List.set_eq_take_append_cons_drop, if_pos hi, List.eraseIdx_eq_take_drop_succ]
  simp only [List.filter_append, List.filter_cons, hP, if_true, Engine.weightSum, List.map_append,
    List.map_cons, List.sum_append, List.sum_cons]
  omega

theorem Row.labelClause {r : Row} {L : Lit} (hunit : ∃ z : Int, r.lits = [.int z])
    (hL : r.labelLit = L.toInt) : canonicalClause r.litList = [L] := by
  obtain ⟨z, hz⟩ := hunit
  have hzL : z = L.toInt := by simpa [Row.labelLit, hz] using hL
  simp [Row.litList, Row.ints, hz, hzL, Lit.ofInt?_toInt, canonicalClause]

/-- **A label read back.** In a reachable session with no more rows than 64-bit positions, the
clause of the label row `r` at `i` weighs, in each objective, what `r` weighs there plus what the
other soft rows of that clause weigh. -/
theorem Reachable.label_reads_back (h : s.Reachable) (hlen : (s.engine.rows.length : Int) ≤ Datum.wordBound)
    (hr : s.engine.rows[i]? = some r) (hlab : r.label = true) (hL : r.labelLit = L.toInt) :
    ∃ inst, s.preproInstance = .ok inst ∧ ∀ k < s.nObj, (inst.objective k).get? [L] =
      some (r.weightAt k + Engine.weightSum (((s.engine.rows.eraseIdx i).filter
        (fun q => q.weights.isSome)).filter (fun q => canonicalClause q.litList = [L])) k) := by
  obtain ⟨inst, hinst, -, hsoft⟩ := h.preproInstance_rows hlen
  have hmem : r ∈ s.engine.rows := List.mem_of_getElem? hr
  have hsome : r.weights.isSome := (h.ready.shape.rows.labels r hmem hlab).1
  have hclause := Row.labelClause (h.ready.shape.unitLabels r hmem hlab) hL
  obtain ⟨hi, hget⟩ := List.getElem?_eq_some_iff.1 hr
  refine ⟨inst, hinst, fun k hk => ?_⟩
  have hobj := hsoft r hmem hsome k hk
  rw [hclause] at hobj
  have hset : s.engine.rows.set i r = s.engine.rows := hget ▸ List.set_getElem_self hi
  rw [hobj, List.filter_filter, List.filter_filter, ← hset,
    Engine.weightSum_set hi (by simp [hsome, hclause]), List.eraseIdx_set_eq]

end Session

/-- What a run of reweightings of the label `L` from `s` to `s'` keeps: the label's row `r` stays at
its place `i` with its literal, carrying the last weight `w` in column `j` and zero elsewhere; and
the instance read back shows the label's clause with `w` in objective `j`, and in every objective
with what the other soft rows of the clause weigh there. -/
structure KeepsObjective (s s' : Session) (L : Lit) (i j : Nat) (r : Row) (w : Nat) : Prop where
  row : ∃ r', s'.engine.rows = s.engine.rows.set i r' ∧ r'.lits = r.lits ∧ r'.label = true ∧
    ∀ k, r'.weightAt k = if k = j then (w : Int) else 0
  readBack : (s'.engine.rows.length : Int) ≤ Datum.wordBound → ∃ inst, s'.preproInstance = .ok inst ∧
    ∀ k < s.nObj, (inst.objective k).get? [L] = some ((if k = j then (w : Int) else 0) +
      Engine.weightSum (((s.engine.rows.eraseIdx i).filter (fun q => q.weights.isSome)).filter
        (fun q => canonicalClause q.litList = [L])) k)

/-- **A label keeps its objective under reweighting.** In a reachable session, let the label `L`
have its row `r` at `i` carrying its weight in column `j`, zero in every other column and not zero
in column `j` unless `j` is the first. After successful reweightings of `L` to `w₁, …, wₙ`, none of
`w₁, …, wₙ₋₁` zero unless `j` is the first column, the row carries `wₙ` in column `j` and zero
elsewhere, and the instance read back shows the clause `(L)` with `wₙ` in objective `j`, summed in
each objective with what the other soft rows of that clause weigh there. -/
theorem reweighted_label_keeps_objective {s s' : Session} (h : s.Reachable) {L : Lit} {i j : Nat}
    {r : Row} (hr : s.engine.rows[i]? = some r) (hlab : r.label = true) (hL : r.labelLit = L.toInt)
    (hcol : ∀ k, k ≠ j → r.weightAt k = 0) (hfound : j = 0 ∨ r.weightAt j ≠ 0) (pre : List Nat)
    (w : Nat) (hpre : j = 0 ∨ ∀ x ∈ pre, x ≠ 0)
    (hrun : (pre ++ [w]).foldlM (fun (t : Session) (x : Nat) => t.alterWeight (.int L.toInt) (.int x)) s = .ok s') :
    KeepsObjective s s' L i j r w := by
  obtain ⟨hreach, hn, r', hrows, hlits, hlab', hw⟩ :=
    h.alterWeights_carry hr hlab hL hcol hfound pre w hpre hrun
  refine ⟨⟨r', hrows, hlits, hlab', hw⟩, fun hlen => ?_⟩
  have hi : i < s.engine.rows.length := (List.getElem?_eq_some_iff.1 hr).1
  have hr' : s'.engine.rows[i]? = some r' := by rw [hrows, List.getElem?_set_self hi]
  have hL' : r'.labelLit = L.toInt := by rw [Row.labelLit, hlits]; exact hL
  obtain ⟨inst, hinst, hget⟩ := hreach.label_reads_back hlen hr' hlab' hL'
  refine ⟨inst, hinst, fun k hk => ?_⟩
  rw [hget k (hn ▸ hk), hw k, hrows, List.eraseIdx_set_eq]

/-- The label `x1` of weight 5 in the second objective, beside the label `x2` of weight 1 in the
first, reweighed to 2 and then to 3, keeps its objective. -/
theorem label_reweighed_twice_keeps_objective :
    ∃ (s s' : Session) (r : Row), s.Reachable ∧ s.engine.rows[1]? = some r ∧ r.label = true ∧
      r.labelLit = (⟨1, false, by decide⟩ : Lit).toInt ∧ (∀ k, k ≠ 1 → r.weightAt k = 0) ∧
      (1 = 0 ∨ r.weightAt 1 ≠ 0) ∧ (1 = 0 ∨ ∀ x ∈ [2], x ≠ 0) ∧
      ([2] ++ [3]).foldlM (fun (t : Session) (x : Nat) => t.alterWeight (.int (⟨1, false, by decide⟩ : Lit).toInt) (.int x))
        s = .ok s' ∧
      KeepsObjective s s' ⟨1, false, by decide⟩ 1 1 r 3 := by
  have hrun : ((Session.openWith .reference {} [] [[([⟨2, false, by decide⟩], 1)], [([⟨1, false, by decide⟩], 5)]]
      false none).toOption.bind fun s => (s.engine.rows[1]?).map fun r =>
        (r.label, r.labelLit, (r.weights.getD []).map intOf,
          (([2] ++ [3]).foldlM (fun (t : Session) (x : Nat) =>
            t.alterWeight (.int (⟨1, false, by decide⟩ : Lit).toInt) (.int x)) s).toOption.isSome)) =
      some (true, (⟨1, false, by decide⟩ : Lit).toInt, [0, 5], true) := by
    decide +kernel
  obtain ⟨s, hO, hview⟩ := Outcome.exists_of_toOption_bind hrun
  obtain ⟨r, hr, hrow⟩ := Option.map_eq_some_iff.1 hview
  simp only [Prod.mk.injEq] at hrow
  obtain ⟨hlab, hL, hws, hsome⟩ := hrow
  obtain ⟨s', hf⟩ := Outcome.exists_of_toOption_isSome hsome
  have hcol : ∀ k, k ≠ 1 → r.weightAt k = 0 := by
    intro k hk
    rw [Row.weightAt_eq_getD, hws]
    rcases k with _ | _ | k <;> simp_all
  have hfound : 1 = 0 ∨ r.weightAt 1 ≠ 0 := .inr (by rw [Row.weightAt_eq_getD, hws]; decide)
  have hpre : 1 = 0 ∨ ∀ x ∈ [2], x ≠ 0 := .inr (by decide)
  exact ⟨s, s', r, .opened hO, hr, hlab, hL, hcol, hfound, hpre, hf,
    reweighted_label_keeps_objective (.opened hO) hr hlab hL hcol hfound [2] 3 hpre hf⟩

/-- Equal clauses are read back together. The clause `x1` weighs 2 in the first objective, where it
is a label, and 5 in the second; after the label is reweighed to 7, the clause `(x1)` still weighs
5 in the second objective, not 0. -/
theorem reweighted_label_shares_its_clause :
    ∃ (s s' : Session) (r : Row) (inst : Simplified), s.Reachable ∧ s.engine.rows[0]? = some r ∧
      r.label = true ∧ r.labelLit = (⟨1, false, by decide⟩ : Lit).toInt ∧ (∀ k, k ≠ 0 → r.weightAt k = 0) ∧
      s.alterWeight (.int (⟨1, false, by decide⟩ : Lit).toInt) (.int 7) = .ok s' ∧
      s'.preproInstance = .ok inst ∧ (inst.objective 1).get? [⟨1, false, by decide⟩] = some 5 := by
  have hbefore : ((Session.openWith .reference {} [] [[([⟨1, false, by decide⟩], 2)], [([⟨1, false, by decide⟩], 5)]]
      false none).toOption.bind fun s => (s.engine.rows[0]?).map fun r =>
        (r.label, r.labelLit, (r.weights.getD []).map intOf)) =
      some (true, (⟨1, false, by decide⟩ : Lit).toInt, [2, 0]) := by
    decide +kernel
  have hafter : ((Session.openWith .reference {} [] [[([⟨1, false, by decide⟩], 2)], [([⟨1, false, by decide⟩], 5)]]
      false none).toOption.bind fun s =>
        (s.alterWeight (.int (⟨1, false, by decide⟩ : Lit).toInt) (.int 7)).toOption.map fun s' =>
          s'.engine.rows.map fun q => (q.litList, q.label, (q.weights.getD []).map intOf)) =
      some [([⟨1, false, by decide⟩], true, [7, 0]), ([⟨1, false, by decide⟩], false, [0, 5])] := by
    decide +kernel
  have hsize : ((Session.openWith .reference {} [] [[([⟨1, false, by decide⟩], 2)], [([⟨1, false, by decide⟩], 5)]]
      false none).toOption.bind fun s =>
        (s.alterWeight (.int (⟨1, false, by decide⟩ : Lit).toInt) (.int 7)).toOption.map fun s' =>
          decide (s'.nObj = 2 ∧ (s'.engine.rows.length : Int) ≤ Datum.wordBound)) = some true := by
    decide +kernel
  obtain ⟨s, hO, hview⟩ := Outcome.exists_of_toOption_bind hbefore
  obtain ⟨r, hr, hrow⟩ := Option.map_eq_some_iff.1 hview
  simp only [Prod.mk.injEq] at hrow
  obtain ⟨hlab, hL, hws⟩ := hrow
  rw [hO] at hafter hsize
  simp only [Except.toOption, Option.bind_some] at hafter hsize
  obtain ⟨s', ha, hrows⟩ := Outcome.exists_of_toOption_map hafter
  rw [ha] at hsize
  simp only [Except.toOption, Option.map_some, Option.some.injEq, decide_eq_true_eq] at hsize
  obtain ⟨hn, hlen⟩ := hsize
  obtain ⟨q₀, q₁, hq⟩ := List.length_eq_two.1 (by simpa using congrArg List.length hrows)
  rw [hq] at hrows hlen
  simp only [List.map_cons, List.map_nil, List.cons.injEq, Prod.mk.injEq] at hrows
  obtain ⟨⟨hc₀, hlab₀, hw₀⟩, ⟨hc₁, -, hw₁⟩, -⟩ := hrows
  have hcol : ∀ k, k ≠ 0 → r.weightAt k = 0 := by
    intro k hk
    rw [Row.weightAt_eq_getD, hws]
    rcases k with _ | _ | k <;> simp_all
  have hreach := (Session.Reachable.opened hO).alterWeight ha
  have hr₀ : s'.engine.rows[0]? = some q₀ := by rw [hq]; rfl
  have hL₀ : q₀.labelLit = (⟨1, false, by decide⟩ : Lit).toInt := by
    obtain ⟨z, hz⟩ := hreach.ready.shape.unitLabels q₀ (by simp [hq]) hlab₀
    have hz₁ : Lit.ofInt? z = some ⟨1, false, by decide⟩ := by
      rw [Row.litList, Row.ints, hz] at hc₀
      cases h : Lit.ofInt? z <;> simp_all
    simp [Row.labelLit, hz, (Lit.toInt_of_ofInt? hz₁).symm]
  obtain ⟨inst, hinst, hget⟩ := hreach.label_reads_back (by rw [hq]; exact hlen) hr₀ hlab₀ hL₀
  refine ⟨s, s', r, inst, .opened hO, hr, hlab, hL, hcol, ha, hinst, ?_⟩
  rw [hget 1 (by omega), hq]
  have hs₁ : q₁.weights.isSome := by
    rcases hw : q₁.weights with _ | ws
    · simp [hw] at hw₁
    · rfl
  have h₀ : q₀.weightAt 1 = 0 := by rw [Row.weightAt_eq_getD, hw₀]; rfl
  have h₁ : q₁.weightAt 1 = 5 := by rw [Row.weightAt_eq_getD, hw₁]; rfl
  simp [h₀, h₁, hs₁, hc₁, canonicalClause, Engine.weightSum]

end MaxSatPrep
