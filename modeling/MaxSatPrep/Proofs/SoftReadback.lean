import MaxSatPrep.Proofs.SoftWeights
/-!
Reading the soft clauses back. Every objective's soft clauses are gathered in a soft map: a
clause read again adds its weight to the one it has. Below the top weight every soft row reports
a weight under every objective that differs from the top weight, so it is gathered under every
objective; a hard row reports the top weight and is gathered under none.

Main statement, `extract_soft_rows`: on an engine under the top-weight bound, the hard clauses
read back are the hard rows' clauses in row order, and the soft map of each objective holds, for
every clause, the weights of the soft rows with that clause in that objective, summed; so the
weight of the clauses of a soft map that a test finds false is that of the soft rows it finds
false.
-/

namespace MaxSatPrep

open Session (intOf)

/-! ## Soft maps with integer weights -/

/-- the weight a soft map holds for a clause, zero when it holds none -/
def lookupInt (m : List (List Lit × Datum)) (c : List Lit) : Int :=
  intOf (((m.find? (fun p => p.1 == c)).map Prod.snd).getD (.int 0))

/-- a weight added to a clause of a soft map with integer weights -/
def addInt (m : List (List Lit × Datum)) (c : List Lit) (w : Int) : List (List Lit × Datum) :=
  putValue m c (.int (lookupInt m c + w))

/-- the weights of the clauses of a soft map that pass a test, summed -/
def weightWhere (P : List Lit → Bool) (m : List (List Lit × Datum)) : Int :=
  ((m.filter (fun p => P p.1)).map (fun p => intOf p.2)).sum

/-- every weight of the soft map is an integer -/
def IntValued (m : List (List Lit × Datum)) : Prop := ∀ p ∈ m, ∃ k : Int, p.2 = .int k

section SoftMaps

variable {m : List (List Lit × Datum)}

theorem IntValued.putValue (h : IntValued m) (c : List Lit) (k : Int) :
    IntValued (putValue m c (.int k)) := by
  intro p hp
  unfold MaxSatPrep.putValue at hp
  split at hp
  · obtain ⟨q, hq, rfl⟩ := List.mem_map.1 hp
    split
    · exact ⟨k, rfl⟩
    · exact h q hq
  · rcases List.mem_append.1 hp with hp | hp
    · exact h p hp
    · rw [List.mem_singleton.1 hp]
      exact ⟨k, rfl⟩

theorem addValue_int (h : IntValued m) (c : List Lit) (w : Int) :
    addValue m c (.int w) = .ok (addInt m c w) := by
  have hold : ((m.find? (fun p => p.1 == c)).map Prod.snd).getD (.int 0) = .int (lookupInt m c) := by
    unfold lookupInt
    cases hf : m.find? (fun p => p.1 == c) with
    | none => rfl
    | some p =>
      obtain ⟨k, hk⟩ := h p (List.mem_of_find?_eq_some hf)
      simp [hk]
  simp only [addValue, hold, Datum.plus_int, bind, Except.bind, pure, Except.pure, addInt]

theorem keys_putValue (c : List Lit) (v : Datum) :
    (putValue m c v).map Prod.fst = if m.any (fun p => p.1 == c) then m.map Prod.fst
      else m.map Prod.fst ++ [c] := by
  unfold MaxSatPrep.putValue
  split
  · simp only [List.map_map]
    congr 1
    funext p
    by_cases hp : p.1 = c <;> simp_all
  · simp

theorem nodup_putValue (hnd : (m.map Prod.fst).Nodup) (c : List Lit) (v : Datum) :
    ((putValue m c v).map Prod.fst).Nodup := by
  rw [keys_putValue]
  split
  · exact hnd
  · rename_i hany
    refine List.nodup_append.2 ⟨hnd, List.nodup_singleton c, ?_⟩
    intro a ha b hb
    rw [List.mem_singleton.1 hb]
    rintro rfl
    obtain ⟨p, hp, rfl⟩ := List.mem_map.1 ha
    exact hany (List.any_eq_true.2 ⟨p, hp, by simp⟩)

/-- Putting a weight for a clause of a soft map whose clauses differ changes the weight of the
clauses that pass a test by what the clause's weight changes, when it passes. -/
theorem weightWhere_putValue (P : List Lit → Bool) (hnd : (m.map Prod.fst).Nodup) (c : List Lit)
    (v : Int) :
    weightWhere P (putValue m c (.int v)) =
      weightWhere P m - (if P c then lookupInt m c else 0) + (if P c then v else 0) := by
  induction m with
  | nil => by_cases hP : P c <;> simp [MaxSatPrep.putValue, weightWhere, lookupInt, hP]
  | cons p rest ih =>
    obtain ⟨hp, hnd'⟩ := List.nodup_cons.1 hnd
    by_cases hpc : p.1 = c
    · have hrest : ∀ q ∈ rest, q.1 ≠ c := fun q hq hqc => hp (hpc ▸ hqc ▸ List.mem_map_of_mem hq)
      have hmap : rest.map (fun q => if q.1 == c then (c, Datum.int v) else q) = rest := by
        conv => rhs; rw [← List.map_id rest]
        apply List.map_congr_left
        intro q hq
        simp [hrest q hq]
      have hput : putValue (p :: rest) c (.int v) = (c, .int v) :: rest := by
        rw [MaxSatPrep.putValue, if_pos (by simp [hpc]), List.map_cons, hmap]
        simp [hpc]
      have hlook : lookupInt (p :: rest) c = intOf p.2 := by simp [lookupInt, hpc]
      rw [hput, hlook]
      by_cases hP : P c
      · simp [weightWhere, hP, hpc]
        ring
      · simp [weightWhere, hP, hpc]
    · have hb : (p.1 == c) = false := by simpa using hpc
      have hcons : putValue (p :: rest) c (.int v) = p :: putValue rest c (.int v) := by
        unfold MaxSatPrep.putValue
        simp only [List.any_cons, hb, Bool.false_or, List.map_cons]
        split <;> simp
      have hlook : lookupInt (p :: rest) c = lookupInt rest c := by
        simp [lookupInt, hpc]
      rw [hcons, hlook]
      have ih := ih hnd'
      by_cases hP : P p.1 <;> simp only [weightWhere, List.filter_cons, hP] at ih ⊢ <;>
        simp only [if_true, if_false, List.map_cons, List.sum_cons, Bool.false_eq_true] <;> linarith

theorem weightWhere_addInt (P : List Lit → Bool) (hnd : (m.map Prod.fst).Nodup) (c : List Lit)
    (w : Int) : weightWhere P (addInt m c w) = weightWhere P m + (if P c then w else 0) := by
  rw [addInt, weightWhere_putValue P hnd]
  split <;> ring

end SoftMaps

/-! ## The soft map of one objective -/

/-- the weight a clause reports in objective `j` -/
def reportedAt (j : Nat) (p : List Lit × List Datum) : Int := intOf (p.2.getD j (.int 0))

/-- the soft map of objective `j` gathered from clauses with their reported weights -/
def column (j : Nat) (rows : List (List Lit × List Datum)) : List (List Lit × Datum) :=
  rows.foldl (fun m p => addInt m p.1 (reportedAt j p)) []

section Column

theorem column_foldl {j : Nat} {rows : List (List Lit × List Datum)}
    {m : List (List Lit × Datum)} (hm : IntValued m) (hnd : (m.map Prod.fst).Nodup) :
    IntValued (rows.foldl (fun m p => addInt m p.1 (reportedAt j p)) m) ∧
      ((rows.foldl (fun m p => addInt m p.1 (reportedAt j p)) m).map Prod.fst).Nodup ∧
      ∀ P : List Lit → Bool,
        weightWhere P (rows.foldl (fun m p => addInt m p.1 (reportedAt j p)) m) =
          weightWhere P m + ((rows.filter (fun p => P p.1)).map (reportedAt j)).sum := by
  induction rows generalizing m with
  | nil => exact ⟨hm, hnd, fun P => by simp⟩
  | cons p rows ih =>
    have hm1 : IntValued (addInt m p.1 (reportedAt j p)) := hm.putValue p.1 _
    have hnd1 : ((addInt m p.1 (reportedAt j p)).map Prod.fst).Nodup := nodup_putValue hnd p.1 _
    obtain ⟨hm', hnd', hsum⟩ := ih hm1 hnd1
    refine ⟨hm', hnd', fun P => ?_⟩
    rw [List.foldl_cons, hsum P, weightWhere_addInt P hnd]
    by_cases hP : P p.1
    · simp [hP]
      ring
    · simp [hP]

end Column

/-! ## Classifying soft rows -/

/-- the soft map of objective `j`, empty past the last soft map -/
def softColumn (softs : List (List (List Lit × Datum))) (j : Nat) : List (List Lit × Datum) :=
  (softs[j]?).getD []

section Classify

variable {softs : List (List (List Lit × Datum))}

theorem softColumn_pad (m j : Nat) :
    softColumn (softs ++ List.replicate m []) j = softColumn softs j := by
  unfold softColumn
  by_cases hj : j < softs.length
  · rw [List.getElem?_append_left hj]
  · have hnone : softs[j]? = none := List.getElem?_eq_none (by omega)
    rw [List.getElem?_append_right (by omega), hnone, List.getElem?_replicate]
    split <;> rfl

theorem softColumn_set {k : Nat} (hk : k < softs.length) (x : List (List Lit × Datum)) (j : Nat) :
    softColumn (softs.set k x) j = if j = k then x else softColumn softs j := by
  unfold softColumn
  rw [List.getElem?_set]
  by_cases hj : j = k
  · simp [hj, hk]
  · simp [hj, Ne.symm hj]

/-- A row whose weights under the first `n` objectives are integers other than the top weight
is gathered under each of them: its weight there is added to its clause's. -/
theorem classifyValueRow_soft {t : Int} {n : Nat} {c : List Lit} {ws : List Datum}
    (hws : ∀ j < n, ∃ k, ws[j]? = some (.int k) ∧ k ≠ t) {softs' : List (List (List Lit × Datum))}
    {b : Bool} (hint : ∀ j, IntValued (softColumn softs j))
    (h : classifyValueRow (.int t) n c ws softs = .ok (softs', b)) :
    ∀ j, softColumn softs' j =
      if j < n then addInt (softColumn softs j) c (reportedAt j (c, ws)) else softColumn softs j := by
  unfold classifyValueRow at h
  have hmem : ∀ j, (j < n) = (j ∈ List.range n) := fun j => by simp
  simp only [hmem] at hws ⊢
  have hnd : (List.range n).Nodup := List.nodup_range
  change ∀ j, softColumn softs' j = if j ∈ List.range n then
    addInt (softColumn (softs, true).1 j) c (reportedAt j (c, ws)) else softColumn (softs, true).1 j
  change ∀ j, IntValued (softColumn (softs, true).1 j) at hint
  generalize (softs, true) = st at h hint
  generalize List.range n = js at h hws hnd
  induction js generalizing st with
  | nil =>
    cases h
    simp
  | cons j js ih =>
    obtain ⟨hj, hnd'⟩ := List.nodup_cons.1 hnd
    obtain ⟨k, hk, hkt⟩ := hws j (by simp)
    have hrep : reportedAt j (c, ws) = k := by
      simp [reportedAt, List.getD_eq_getElem?_getD, hk]
    have hpad : j < (st.1 ++ List.replicate (j + 1 - st.1.length) []).length := by
      simp only [List.length_append, List.length_replicate]
      omega
    have hadd : addValue ((st.1 ++ List.replicate (j + 1 - st.1.length) []).getD j []) c (.int k) =
        .ok (addInt (softColumn st.1 j) c k) := by
      rw [List.getD_eq_getElem?_getD, ← softColumn, softColumn_pad]
      exact addValue_int (hint j) c k
    rw [List.foldlM_cons] at h
    simp only [hk, Datum.numEq_int, hkt, decide_false, Bool.false_eq_true, if_false, hadd, bind,
      Except.bind, pure, Except.pure] at h
    set st' := ((st.1 ++ List.replicate (j + 1 - st.1.length) []).set j
      (addInt (softColumn st.1 j) c k), false) with hst'
    have hcol : ∀ i, softColumn st'.1 i = if i = j then addInt (softColumn st.1 j) c k
        else softColumn st.1 i := by
      intro i
      rw [softColumn_set hpad, softColumn_pad]
    have hint' : ∀ i, IntValued (softColumn st'.1 i) := by
      intro i
      rw [hcol i]
      split
      · exact (hint j).putValue c _
      · exact hint i
    intro i
    rw [ih st' hint' h (fun i hi => hws i (by simp [hi])) hnd', hcol i]
    by_cases hij : i = j
    · subst i
      simp [hj, hrep]
    · simp [hij]

/-- A row read as hard leaves the soft maps as they were. -/
theorem classifyValueRow_keeps {top : Datum} {n : Nat} {c : List Lit} {ws : List Datum}
    (hhard : readsHard top n ws = true) {softs' : List (List (List Lit × Datum))} {b : Bool}
    (h : classifyValueRow top n c ws softs = .ok (softs', b)) : softs' = softs := by
  unfold classifyValueRow at h
  simp only [readsHard, List.all_eq_true] at hhard
  change softs' = (softs, true).1
  generalize (softs, true) = st at h
  generalize List.range n = js at h hhard
  induction js generalizing st with
  | nil =>
    cases h
    rfl
  | cons j js ih =>
    rw [List.foldlM_cons] at h
    have hj := hhard j (by simp)
    rcases hw : ws[j]? with _ | w
    · simp [hw, refuse, bind, Except.bind] at h
    · have hw' : Datum.numEq w top = true := by simpa [hw] using hj
      simp only [hw, hw', if_true, bind, Except.bind, pure, Except.pure] at h
      exact ih st h (fun i hi => hhard i (by simp [hi]))

/-- **The soft maps read back.** When every row is read as hard or reports integers other than
the top weight, the soft map of each objective read back gathers, in row order, the rows not
read as hard. -/
theorem classifyValueRows_softs {rows : List (List Lit × List Datum)} {t : Int} {n : Nat}
    {hards : List (List Lit)}
    (hrows : ∀ p ∈ rows, readsHard (.int t) n p.2 = true ∨
      ∀ j < n, ∃ k, p.2[j]? = some (.int k) ∧ k ≠ t)
    (h : classifyValueRows rows (.int t) (.int n) = .ok (hards, softs)) :
    ∀ j < n, softColumn softs j = column j (rows.filter (fun p => !readsHard (.int t) n p.2)) := by
  unfold classifyValueRows at h
  simp only [bind, Except.bind, pure, Except.pure, Datum.rangeBound_int, Int.toNat_natCast] at h
  split at h
  · cases h
  rename_i v hfold
  have hv : v.2 = softs := by
    split at h
    · cases h
    · split at h
      · cases h
        rfl
      · cases h
  rw [← hv]
  clear h hv
  have hint : ∀ j, IntValued (softColumn (([], []) : List (List Lit) × List (List (List Lit × Datum))).2 j) := by
    intro j p hp
    simp [softColumn] at hp
  intro j hj
  change softColumn v.2 j = (rows.filter (fun p => !readsHard (.int t) n p.2)).foldl
    (fun m p => addInt m p.1 (reportedAt j p))
    (softColumn (([], []) : List (List Lit) × List (List (List Lit × Datum))).2 j)
  generalize (([], []) : List (List Lit) × List (List (List Lit × Datum))) = acc at hfold hint
  -- row by row: a row read as hard leaves the soft maps, another adds to each objective's map
  induction rows generalizing acc with
  | nil =>
    cases hfold
    rfl
  | cons p rows ih =>
    rw [List.foldlM_cons] at hfold
    split at hfold
    · cases hfold
    rename_i q hq
    simp only [bind, Except.bind] at hfold
    have hrest : ∀ p ∈ rows, readsHard (.int t) n p.2 = true ∨
        ∀ j < n, ∃ k, p.2[j]? = some (.int k) ∧ k ≠ t := fun p hp => hrows p (by simp [hp])
    cases hb : readsHard (.int t) n p.2
    · have hsoft := (hrows p (by simp)).resolve_left (by simp [hb])
      have hcol := classifyValueRow_soft hsoft hint hq
      have hint' : ∀ i, IntValued (softColumn q.1 i) := by
        intro i
        rw [hcol i]
        split
        · exact (hint i).putValue _ _
        · exact hint i
      rw [ih hrest _ hfold hint', hcol j, if_pos hj]
      simp [hb]
    · rw [classifyValueRow_keeps hb hq] at hfold
      rw [ih hrest _ hfold hint]
      simp [hb]

end Classify

/-! ## The rows read back -/

/-- the literals of a row, read as literals -/
def Row.litList (r : Row) : List Lit := r.ints.filterMap Lit.ofInt?

namespace Engine

/-- the weights a row reports under the first `n` objectives: the top weight for a hard row,
and zero past the weights of a soft row -/
def reportedWeights (e : Engine) (n : Nat) (r : Row) : List Datum :=
  (List.range n).map (fun o => (r.weights.map (fun ws => ws.getD o (.int 0))).getD e.top)

/-- a row as it is read back: its clause in canonical order and the weights it reports -/
def readRow (e : Engine) (n : Nat) (r : Row) : List Lit × List Datum :=
  (canonicalClause r.litList, e.reportedWeights n r)

end Engine

theorem itemOr_int {α : Type} {xs : List α} {o : Nat} {past x : α}
    (h : Datum.itemOr xs (.int o) past = .ok x) : x = xs.getD o past := by
  simp only [Datum.itemOr, Datum.less_int, bind, Except.bind] at h
  split at h
  · rename_i ho
    have ho : o < xs.length := by simpa using ho
    rw [List.getD_eq_getElem?_getD, itemAt_int h]
    rfl
  · rename_i ho
    have ho : xs.length ≤ o := by simpa using ho
    cases h
    rw [List.getD_eq_getElem?_getD, List.getElem?_eq_none ho]
    rfl

theorem filterMap_ofInt?_toInt (ls : List Lit) : (ls.map Lit.toInt).filterMap Lit.ofInt? = ls := by
  simp [List.filterMap_map, Lit.ofInt?_toInt]

theorem forall₂_eq_map {α β : Type} {f : α → β} {xs : List α} {ys : List β}
    (h : List.Forall₂ (fun x y => y = f x) xs ys) : ys = xs.map f := by
  induction h with
  | nil => rfl
  | cons hxy _ ih => rw [hxy, ih, List.map_cons]

namespace Engine

variable {e : Engine}

theorem preproWeight_eq {c : Nat} {r : Row} (hr : e.rows[c]? = some r) {o : Nat} {w : Datum}
    (h : e.preproWeight (.int c) (.int o) = .ok w) :
    w = (r.weights.map (fun ws => ws.getD o (.int 0))).getD e.top := by
  simp only [preproWeight, bind, Except.bind] at h
  split at h
  · cases h
  rename_i r' hr'
  rw [itemAt_int hr'] at hr
  cases hr
  cases hw : r.weights with
  | none =>
    simp only [hw] at h
    cases h
    rfl
  | some ws =>
    simp only [hw] at h
    exact itemOr_int h

/-- A row's clause is read back as its literals in canonical order. -/
theorem readClause_eq {c : Nat} {r : Row} (hr : e.rows[c]? = some r)
    (hlits : ∀ d ∈ r.lits, IsLit d) {clause : List Lit} (h : e.readClause c = .ok clause) :
    clause = canonicalClause r.litList := by
  simp only [readClause, bind, Except.bind] at h
  split at h
  · cases h
  rename_i r' hr'
  rw [itemAt_int hr'] at hr
  cases hr
  have htake : r.lits.takeWhile (fun l => !Datum.numEq l (.int 0)) = r.lits := by
    rw [List.takeWhile_eq_self_iff]
    intro d hd
    obtain ⟨z, hz, rfl⟩ := hlits d hd
    simpa using hz
  rw [htake] at h
  split at h
  · cases h
  rename_i ls hls
  cases h
  have hints : ls.map Lit.toInt = r.ints := decodeLits_ok hlits hls
  rw [Row.litList, ← hints, filterMap_ofInt?_toInt]

/-- **The rows read back.** On integer literals, the rows read with `n` objectives are the
engine's rows, each read as its canonical clause and the weights it reports. -/
theorem readRows_eq {n : Nat} (hlits : ∀ r ∈ e.rows, ∀ d ∈ r.lits, IsLit d)
    {rows : List (List Lit × List Datum)} (h : e.readRows (.int n) = .ok rows) :
    rows = e.rows.map (e.readRow n) := by
  have hlen : rows.length = e.rows.length := by
    simpa using (Outcome.mapM_forall₂ h).length_eq.symm
  apply List.ext_getElem?
  intro c
  by_cases hc : c < e.rows.length
  · obtain ⟨clause, ws, hrow, hclause, hws⟩ := readRows_at h hc
    have hr : e.rows[c]? = some e.rows[c] := List.getElem?_eq_getElem hc
    have hws' : ws = (List.range n).map
        (fun o => (e.rows[c].weights.map (fun ws => ws.getD o (.int 0))).getD e.top) :=
      forall₂_eq_map ((Outcome.mapM_forall₂ hws).imp (fun _ _ hw => preproWeight_eq hr hw))
    rw [hrow, List.getElem?_map, hr, Option.map_some, readClause_eq hr
      (hlits _ (List.getElem_mem hc)) hclause, hws']
    rfl
  · rw [List.getElem?_eq_none (by omega), List.getElem?_eq_none (by simpa using hc)]

/-! ## Reading under the top-weight bound -/

theorem reportedWeights_soft (hb : TopBound e) {r : Row} (hr : r ∈ e.rows) (hw : r.weights ≠ none)
    {n j : Nat} (hj : j < n) : (e.reportedWeights n r)[j]? = some (.int (r.weightAt j)) := by
  obtain ⟨ws, hws⟩ := Option.ne_none_iff_exists'.1 hw
  simp only [reportedWeights, List.getElem?_map, List.getElem?_range hj, Option.map_some, hws,
    Option.getD_some, Row.weightAt, Option.some.injEq, List.getD_eq_getElem?_getD]
  cases hget : ws[j]? with
  | none => rfl
  | some w => exact (hb.weights r hr ws hws w (List.mem_of_getElem? hget)).eq

theorem reportedAt_readRow_soft (hb : TopBound e) {r : Row} (hr : r ∈ e.rows.filter (fun r => r.weights.isSome))
    {n j : Nat} (hj : j < n) : reportedAt j (e.readRow n r) = r.weightAt j := by
  obtain ⟨hr, hsoft⟩ := List.mem_filter.1 hr
  have hw : r.weights ≠ none := by simpa [Option.isSome_iff_ne_none] using hsoft
  simp [reportedAt, readRow, List.getD_eq_getElem?_getD, reportedWeights_soft hb hr hw hj]

theorem weightAt_lt_top (hb : TopBound e) {t : Int} (htop : e.top = .int t) {r : Row}
    (hr : r ∈ e.rows) (j : Nat) : r.weightAt j < t := by
  obtain ⟨t', ht', hle⟩ := hb.top
  rw [htop, Datum.int.injEq] at ht'
  subst t'
  have h1 := weightAt_le_weightTotal hb.weights hr j
  have h2 := weightTotal_le_softTotal hb.weights hr
  omega

/-- Under the top-weight bound a row is read as hard exactly when it is hard, given an objective
whenever the row is soft. -/
theorem readsHard_readRow (hb : TopBound e) {n : Nat} {r : Row} (hr : r ∈ e.rows)
    (hn : r.weights ≠ none → 0 < n) : readsHard e.top n (e.readRow n r).2 = r.weights.isNone := by
  obtain ⟨t, htop, -⟩ := hb.top
  cases hw : r.weights with
  | none =>
    simp only [readRow, reportedWeights, readsHard, hw, Option.map_none, Option.getD_none, htop,
      List.all_eq_true, List.mem_range, Option.isNone_none]
    intro x hx
    simp [hx]
  | some ws =>
    have hsoft : r.weights ≠ none := by simp [hw]
    have h0 := reportedWeights_soft hb hr hsoft (hn hsoft)
    have hlt := weightAt_lt_top hb htop hr 0
    simp only [readRow, readsHard, List.all_eq_false, Option.isNone_some]
    refine ⟨0, List.mem_range.2 (hn hsoft), ?_⟩
    simp [h0, htop, ne_of_lt hlt]

/-- **The instance read back under the top-weight bound.** Its hard clauses are the clauses of
the hard rows in canonical order, in row order; the soft map of each objective gathers the soft
rows, in row order, each with the weight it reports there. -/
theorem extract_rows (ht : Tabled e) (hb : TopBound e) {n : Nat}
    (hn : ∀ r ∈ e.rows, r.weights ≠ none → 0 < n) {inst : Simplified}
    (h : e.extract (.int n) = .ok inst) :
    inst.hards = (e.rows.filter (fun r => r.weights.isNone)).map (fun r => canonicalClause r.litList) ∧
      ∀ j < n, softColumn inst.softs j =
        column j ((e.rows.filter (fun r => r.weights.isSome)).map (e.readRow n)) := by
  obtain ⟨rows, hrows, hclass⟩ := extract_ok h
  obtain ⟨t, htop, -⟩ := hb.top
  rw [readRows_eq ht.rows.lits hrows] at hclass
  have hread : ∀ r ∈ e.rows, readsHard e.top n (e.readRow n r).2 = r.weights.isNone :=
    fun r hr => readsHard_readRow hb hr (hn r hr)
  constructor
  · rw [classifyValueRows_hards hclass, List.filter_map, List.map_map]
    congr 1
    exact List.filter_congr (fun r hr => hread r hr)
  · intro j hj
    rw [htop] at hclass hread
    refine (classifyValueRows_softs (fun p hp => ?_) hclass j hj).trans ?_
    · obtain ⟨r, hr, rfl⟩ := List.mem_map.1 hp
      by_cases hw : r.weights = none
      · exact .inl (by simp [hread r hr, hw])
      · refine .inr (fun i hi => ⟨_, reportedWeights_soft hb hr hw hi, ?_⟩)
        exact ne_of_lt (weightAt_lt_top hb htop hr i)
    · rw [List.filter_map]
      congr 2
      refine List.filter_congr (fun r hr => ?_)
      simp [hread r hr]

end Engine

/-! ## Falsified weight -/

/-- the weight of the weighted clauses in which no literal holds -/
def falsifiedWeight (holds : Lit → Bool) (ps : List (List Lit × Int)) : Int :=
  ((ps.filter (fun p => !p.1.any holds)).map Prod.snd).sum

namespace Engine

variable {e : Engine}

/-- **The falsified weight read back.** Under the top-weight bound, the weight of the soft
clauses of objective `j` read back in which no literal holds is the weight there of the soft rows
whose clause has no literal that holds. -/
theorem objective_falsifiedWeight (ht : Tabled e) (hb : TopBound e) {n : Nat}
    (hn : ∀ r ∈ e.rows, r.weights ≠ none → 0 < n) {inst : Simplified}
    (h : e.extract (.int n) = .ok inst) (holds : Lit → Bool) {j : Nat} (hj : j < n) :
    falsifiedWeight holds (inst.objective j).entries =
      weightSum ((e.rows.filter (fun r => r.weights.isSome)).filter
        (fun r => !(canonicalClause r.litList).any holds)) j := by
  have hcol := (extract_rows ht hb hn h).2 j hj
  have hmap : falsifiedWeight holds (inst.objective j).entries =
      weightWhere (fun c => !c.any holds) (softColumn inst.softs j) := by
    simp [falsifiedWeight, Simplified.objective, weightWhere, softColumn, List.filter_map,
      Function.comp_def, Simplified.weightInt, intOf]
  have hsum : weightWhere (fun c => !c.any holds)
      (column j ((e.rows.filter (fun r => r.weights.isSome)).map (e.readRow n))) =
      weightWhere (fun c => !c.any holds) [] +
        ((((e.rows.filter (fun r => r.weights.isSome)).map (e.readRow n)).filter
          (fun p => !p.1.any holds)).map (reportedAt j)).sum :=
    (column_foldl (by simp [IntValued]) (by simp)).2.2 _
  rw [hmap, hcol, hsum]
  simp only [weightWhere, List.filter_nil, List.map_nil, List.sum_nil, zero_add, List.filter_map,
    List.map_map, weightSum]
  congr 1
  exact List.map_congr_left (fun r hr => reportedAt_readRow_soft hb (List.mem_of_mem_filter hr) hj)

end Engine

end MaxSatPrep
