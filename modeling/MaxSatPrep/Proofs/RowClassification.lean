import MaxSatPrep.Proofs.SoftClauses
import MaxSatPrep.Proofs.RoundTrip
/-!
Splitting a table of rows into hard and soft clauses, row by row. On rows of integer weights the
reading of `classifyValueRows` has a reference description. It fails, with an index error,
exactly when some row has fewer weights than there are objectives. Otherwise the hard clauses
are those of the rows whose weight is the top weight under every objective, in row order; the
list of soft maps reaches one past the last objective under which some row is soft; and the soft
map of an objective gathers the rows soft under it (`gathered`): each clause once, in order of
first occurrence, with the weights there of the rows with that clause summed.

The reading is followed one objective of one row at a time (`classifyStep`) and one row at a time
(`classifyRowStep`); the invariant of the row loop (`Classified`) says what the reading holds
after a prefix of the rows.

Main statement: `classifyValueRows_matches_reference`.
-/

namespace MaxSatPrep

/-! ## The reading, one objective and one row at a time -/

/-- One objective of a row, as `classifyValueRow` reads it: a weight past the row's end is an
index error, the top weight leaves the soft maps, and another weight is added to the clause's
weight in the objective's soft map, the list of soft maps padded to reach it. -/
def classifyStep (top : Datum) (c : List Lit) (ws : List Datum)
    (st : List (List (List Lit × Datum)) × Bool) (j : Nat) :
    Outcome (List (List (List Lit × Datum)) × Bool) := do
  let w ← match ws[j]? with
    | some w => pure w
    | none => refuse .indexOutOfRange
  if Datum.numEq w top then pure st
  else
    let softs := st.1 ++ List.replicate (j + 1 - st.1.length) []
    pure (softs.set j (← addValue (softs.getD j []) c w), false)

theorem classifyValueRow_eq_foldlM (top : Datum) (n : Nat) (c : List Lit) (ws : List Datum)
    (softs : List (List (List Lit × Datum))) :
    classifyValueRow top n c ws softs = (List.range n).foldlM (classifyStep top c ws) (softs, true) :=
  rfl

/-- One row, as `classifyValueRows` reads it: its clause joins the hard clauses when no objective
finds it soft. -/
def classifyRowStep (top nObj : Datum) (acc : List (List Lit) × List (List (List Lit × Datum)))
    (r : List Lit × List Datum) : Outcome (List (List Lit) × List (List (List Lit × Datum))) := do
  let k ← Datum.rangeBound nObj
  let st ← classifyValueRow top k.toNat r.1 r.2 acc.2
  pure (if st.2 then acc.1 ++ [r.1] else acc.1, st.1)

/-- the check of the number of soft maps against the objective count, after the rows -/
def finishRows (nObj : Datum) (acc : List (List Lit) × List (List (List Lit × Datum))) :
    Outcome (List (List Lit) × List (List (List Lit × Datum))) := do
  if ← Datum.atMost (.int acc.2.length) nObj then pure acc
  else refuse (.objectivesReadBack acc.2.length nObj)

theorem classifyValueRows_eq_bind (rows : List (List Lit × List Datum)) (top nObj : Datum) :
    classifyValueRows rows top nObj =
      (rows.foldlM (classifyRowStep top nObj) ([], [])).bind (finishRows nObj) :=
  rfl

/-! ## The reference description -/

/-- rows of integer weights, as the reading gets them -/
def intRows (rows : List (List Lit × List Int)) : List (List Lit × List Datum) :=
  rows.map (fun r => (r.1, r.2.map .int))

/-- whether a row is soft under objective `i`: its weight there is not the top weight -/
def softUnder (t : Int) (i : Nat) (r : List Lit × List Int) : Bool := r.2.getD i t != t

/-! ## One objective of a row -/

/-- the soft maps padded to reach position `j`, with the map there set -/
def padSet (softs : List (List (List Lit × Datum))) (j : Nat) (x : List (List Lit × Datum)) :
    List (List (List Lit × Datum)) :=
  (softs ++ List.replicate (j + 1 - softs.length) []).set j x

section Objective

variable {softs : List (List (List Lit × Datum))} {j : Nat} {x : List (List Lit × Datum)}

theorem softColumn_padSet (i : Nat) :
    softColumn (padSet softs j x) i = if i = j then x else softColumn softs i := by
  have hpad : j < (softs ++ List.replicate (j + 1 - softs.length) []).length := by
    simp only [List.length_append, List.length_replicate]
    omega
  rw [padSet, softColumn_set hpad, softColumn_pad]

theorem length_padSet : (padSet softs j x).length = max softs.length (j + 1) := by
  simp only [padSet, List.length_set, List.length_append, List.length_replicate]
  omega

variable {t : Int} {c : List Lit} {ws : List Int} {st : List (List (List Lit × Datum)) × Bool}

theorem classifyStep_short (h : ws.length ≤ j) :
    classifyStep (.int t) c (ws.map .int) st j = refuse .indexOutOfRange := by
  have hnone : (ws.map Datum.int)[j]? = none := List.getElem?_eq_none (by simpa using h)
  simp [classifyStep, hnone, refuse, bind, Except.bind]

/-- One objective of a row with its weight there: a soft row adds the weight to the clause in
the objective's soft map and clears the hard flag; a row at the top weight changes nothing. -/
theorem classifyStep_spec (hj : j < ws.length) (hint : ∀ i, IntValued (softColumn st.1 i)) :
    ∃ st₁, classifyStep (.int t) c (ws.map .int) st j = .ok st₁ ∧
      st₁.2 = (st.2 && !softUnder t j (c, ws)) ∧ (∀ i, IntValued (softColumn st₁.1 i)) ∧
      (∀ i, softColumn st₁.1 i = if i = j ∧ softUnder t j (c, ws) = true then
        addInt (softColumn st.1 j) c (ws.getD j t) else softColumn st.1 i) ∧
      ∀ i, i < st₁.1.length ↔ i < st.1.length ∨ (i ≤ j ∧ softUnder t j (c, ws) = true) := by
  have hget : ws.getD j t = ws[j] := by simp [List.getD_eq_getElem?_getD, List.getElem?_eq_getElem hj]
  have hw : (ws.map Datum.int)[j]? = some (.int ws[j]) := by simp [hj]
  by_cases hsoft : softUnder t j (c, ws) = true
  · have hne : ws[j] ≠ t := by
      rw [← hget]
      simpa [softUnder] using hsoft
    have hadd : addValue ((st.1 ++ List.replicate (j + 1 - st.1.length) []).getD j []) c
        (.int ws[j]) = .ok (addInt (softColumn st.1 j) c ws[j]) := by
      rw [List.getD_eq_getElem?_getD, ← softColumn, softColumn_pad]
      exact addValue_int (hint j) c _
    refine ⟨(padSet st.1 j (addInt (softColumn st.1 j) c (ws.getD j t)), false), ?_, by simp [hsoft],
      fun i => ?_, fun i => ?_, fun i => ?_⟩
    · simp only [classifyStep, hw, Datum.numEq_int, hne, decide_false, Bool.false_eq_true, if_false,
        bind, Except.bind, pure, Except.pure, hadd, hget]
      rfl
    · rw [softColumn_padSet]
      split
      · exact (hint j).putValue c _
      · exact hint i
    · simp [softColumn_padSet, hsoft]
    · simp only [length_padSet, hsoft, and_true]
      omega
  · have heq : ws[j] = t := by
      rw [← hget]
      simpa [softUnder] using hsoft
    refine ⟨st, ?_, by simp [hsoft], hint, fun i => by simp [hsoft], fun i => by simp [hsoft]⟩
    simp only [classifyStep, hw, Datum.numEq_int, heq, decide_true, if_true, bind, Except.bind, pure,
      Except.pure]

/-- The objectives `js` of a row, each read once and each within the row's weights. -/
theorem foldlM_classifyStep (js : List Nat) (hnd : js.Nodup) (hjs : ∀ j ∈ js, j < ws.length)
    (st : List (List (List Lit × Datum)) × Bool) (hint : ∀ i, IntValued (softColumn st.1 i)) :
    ∃ st', js.foldlM (classifyStep (.int t) c (ws.map .int)) st = .ok st' ∧
      st'.2 = (st.2 && js.all (fun j => !softUnder t j (c, ws))) ∧
      (∀ i, IntValued (softColumn st'.1 i)) ∧
      (∀ i, softColumn st'.1 i = if i ∈ js ∧ softUnder t i (c, ws) = true then
        addInt (softColumn st.1 i) c (ws.getD i t) else softColumn st.1 i) ∧
      ∀ i, i < st'.1.length ↔ i < st.1.length ∨ ∃ j ∈ js, i ≤ j ∧ softUnder t j (c, ws) = true := by
  induction js generalizing st with
  | nil => exact ⟨st, rfl, by simp, hint, by simp, by simp⟩
  | cons j js ih =>
    obtain ⟨hj, hnd'⟩ := List.nodup_cons.1 hnd
    obtain ⟨st₁, h₁, hflag₁, hint₁, hcol₁, hlen₁⟩ := classifyStep_spec (hjs j List.mem_cons_self) hint
    obtain ⟨st', h', hflag', hint', hcol', hlen'⟩ :=
      ih hnd' (fun i hi => hjs i (List.mem_cons_of_mem _ hi)) st₁ hint₁
    refine ⟨st', by rw [List.foldlM_cons, h₁]; exact h', ?_, hint', fun i => ?_, fun i => ?_⟩
    · rw [hflag', hflag₁, List.all_cons, Bool.and_assoc]
    · rw [hcol' i, hcol₁ i]
      by_cases hij : i = j
      · subst hij
        simp [hj]
      · simp [hij]
    · rw [hlen', hlen₁]
      constructor
      · rintro ((h | ⟨hij, hs⟩) | ⟨k, hk, hik, hs⟩)
        · exact .inl h
        · exact .inr ⟨j, List.mem_cons_self, hij, hs⟩
        · exact .inr ⟨k, List.mem_cons_of_mem _ hk, hik, hs⟩
      · rintro (h | ⟨k, hk, hik, hs⟩)
        · exact .inl (.inl h)
        · rcases List.mem_cons.1 hk with rfl | hk
          · exact .inl (.inr ⟨hik, hs⟩)
          · exact .inr ⟨k, hk, hik, hs⟩

/-- The reading of a row's objectives fails, with an index error, at the first objective past the
row's weights. -/
theorem foldlM_classifyStep_short {js : List Nat} (hbad : ∃ j ∈ js, ws.length ≤ j)
    (st : List (List (List Lit × Datum)) × Bool) (hint : ∀ i, IntValued (softColumn st.1 i)) :
    js.foldlM (classifyStep (.int t) c (ws.map .int)) st = refuse .indexOutOfRange := by
  induction js generalizing st with
  | nil =>
    obtain ⟨j, hj, -⟩ := hbad
    cases hj
  | cons j js ih =>
    rw [List.foldlM_cons]
    by_cases hj : j < ws.length
    · obtain ⟨st₁, h₁, -, hint₁, -, -⟩ := classifyStep_spec hj hint
      have hrest : ∃ i ∈ js, ws.length ≤ i := by
        obtain ⟨i, hi, hle⟩ := hbad
        rcases List.mem_cons.1 hi with rfl | hi
        · omega
        · exact ⟨i, hi, hle⟩
      rw [h₁]
      exact ih hrest st₁ hint₁
    · rw [classifyStep_short (by omega)]
      rfl

theorem classifyValueRow_short {n : Nat} {softs : List (List (List Lit × Datum))} (h : ws.length < n)
    (hint : ∀ i, IntValued (softColumn softs i)) :
    classifyValueRow (.int t) n c (ws.map .int) softs = refuse .indexOutOfRange := by
  rw [classifyValueRow_eq_foldlM]
  exact foldlM_classifyStep_short ⟨ws.length, List.mem_range.2 h, Nat.le_refl _⟩ _ hint

end Objective

/-- **One row.** A row with a weight under each of the `n` objectives stays hard exactly when it
is soft under none; under each objective where it is soft its weight is added to its clause; and
the soft maps reach one past the last such objective. -/
theorem classifyValueRow_int (t : Int) (r : List Lit × List Int) {n : Nat}
    {softs : List (List (List Lit × Datum))} (hn : n ≤ r.2.length)
    (hint : ∀ i, IntValued (softColumn softs i)) :
    ∃ softs', classifyValueRow (.int t) n r.1 (r.2.map .int) softs =
        .ok (softs', (List.range n).all (fun j => !softUnder t j r)) ∧
      (∀ i, IntValued (softColumn softs' i)) ∧
      (∀ i, softColumn softs' i = if i < n ∧ softUnder t i r = true then
        addInt (softColumn softs i) r.1 (r.2.getD i t) else softColumn softs i) ∧
      ∀ i, i < softs'.length ↔ i < softs.length ∨ ∃ j, i ≤ j ∧ j < n ∧ softUnder t j r = true := by
  obtain ⟨st', h, hflag, hint', hcol, hlen⟩ := foldlM_classifyStep (List.range n) List.nodup_range
    (fun j hj => Nat.lt_of_lt_of_le (List.mem_range.1 hj) hn) (softs, true) hint
  refine ⟨st'.1, ?_, hint', fun i => by simpa using hcol i, fun i => ?_⟩
  · simp only [Bool.true_and] at hflag
    rw [classifyValueRow_eq_foldlM, h, ← hflag]
  · rw [hlen i]
    simp only [List.mem_range]
    constructor
    · rintro (h | ⟨j, hj, hij, hs⟩)
      · exact .inl h
      · exact .inr ⟨j, hij, hj, hs⟩
    · rintro (h | ⟨j, hij, hj, hs⟩)
      · exact .inl h
      · exact .inr ⟨j, hj, hij, hs⟩


/-! ## The rows -/

theorem column_concat (j : Nat) (rows : List (List Lit × List Datum)) (p : List Lit × List Datum) :
    column j (rows ++ [p]) = addInt (column j rows) p.1 (reportedAt j p) := by
  simp [column, List.foldl_append]

theorem reportedAt_intRow (t : Int) {i : Nat} {c : List Lit} {ws : List Int} (h : i < ws.length) :
    reportedAt i (c, ws.map .int) = ws.getD i t := by
  simp [reportedAt, List.getD_eq_getElem?_getD, List.getElem?_eq_getElem h, Session.intOf_int]

/-- What the reading holds after the rows `P`, with `n` objectives and top weight `t`: the hard
clauses of `P`; under each objective below `n` the soft map gathered from the rows of `P` soft
there, and nothing under the others; and soft maps up to the last objective under which a row
of `P` is soft. -/
structure Classified (t : Int) (n : Nat) (P : List (List Lit × List Int))
    (acc : List (List Lit) × List (List (List Lit × Datum))) : Prop where
  hards : acc.1 = (P.filter (fun r => (List.range n).all (fun i => !softUnder t i r))).map Prod.fst
  columns : ∀ i, softColumn acc.2 i = if i < n then column i (intRows (P.filter (softUnder t i))) else []
  length : ∀ i, i < acc.2.length ↔ ∃ j, i ≤ j ∧ j < n ∧ ∃ r ∈ P, softUnder t j r = true

namespace Classified

variable {t : Int} {n : Nat} {P : List (List Lit × List Int)}
  {acc : List (List Lit) × List (List (List Lit × Datum))}

theorem nil : Classified t n [] ([], []) where
  hards := rfl
  columns i := by simp [softColumn, column, intRows]
  length i := by simp

theorem intValued (h : Classified t n P acc) (i : Nat) : IntValued (softColumn acc.2 i) := by
  rw [h.columns i]
  split
  · exact (@column_foldl i (intRows (P.filter (softUnder t i))) [] (fun p hp => by cases hp)
      List.nodup_nil).1
  · intro p hp
    cases hp

/-- **The step of the row loop.** A row with a weight under each objective extends what the
reading holds to the rows with it. -/
theorem step (h : Classified t n P acc) {r : List Lit × List Int} (hr : n ≤ r.2.length) :
    ∃ acc', classifyRowStep (.int t) (.int n) acc (r.1, r.2.map .int) = .ok acc' ∧
      Classified t n (P ++ [r]) acc' := by
  obtain ⟨softs', hrow, -, hcol, hlen⟩ := classifyValueRow_int t r hr h.intValued
  refine ⟨(if (List.range n).all (fun i => !softUnder t i r) then acc.1 ++ [r.1] else acc.1, softs'),
    ?_, ⟨?_, fun i => ?_, fun i => ?_⟩⟩
  · simp only [classifyRowStep, Datum.rangeBound_int, Int.toNat_natCast, hrow, bind, Except.bind,
      pure, Except.pure]
  · rw [h.hards]
    by_cases hh : (List.range n).all (fun i => !softUnder t i r) = true <;> simp [List.filter_append, hh]
  · rw [hcol i, h.columns i]
    by_cases hi : i < n
    · by_cases hs : softUnder t i r = true
      · simp [hi, hs, List.filter_append, intRows, column_concat,
          reportedAt_intRow t (Nat.lt_of_lt_of_le hi hr)]
      · simp [hi, hs, List.filter_append]
    · simp [hi]
  · rw [hlen i, h.length i]
    constructor
    · rintro (⟨j, hij, hj, r', hr', hs⟩ | ⟨j, hij, hj, hs⟩)
      · exact ⟨j, hij, hj, r', List.mem_append_left _ hr', hs⟩
      · exact ⟨j, hij, hj, r, List.mem_append_right _ List.mem_cons_self, hs⟩
    · rintro ⟨j, hij, hj, r', hr', hs⟩
      rcases List.mem_append.1 hr' with hr' | hr'
      · exact .inl ⟨j, hij, hj, r', hr', hs⟩
      · obtain rfl := List.mem_singleton.1 hr'
        exact .inr ⟨j, hij, hj, hs⟩

/-- **The row loop.** Rows with a weight under each objective are read, and the reading holds
what it should of the rows before and these. -/
theorem foldlM (h : Classified t n P acc) {rows : List (List Lit × List Int)}
    (hrows : ∀ r ∈ rows, n ≤ r.2.length) :
    ∃ acc', (intRows rows).foldlM (classifyRowStep (.int t) (.int n)) acc = .ok acc' ∧
      Classified t n (P ++ rows) acc' := by
  induction rows generalizing P acc with
  | nil => exact ⟨acc, rfl, by simpa using h⟩
  | cons r rows ih =>
    obtain ⟨acc₁, h₁, hc₁⟩ := h.step (hrows r List.mem_cons_self)
    obtain ⟨acc', h', hc'⟩ := ih hc₁ (fun r' hr' => hrows r' (List.mem_cons_of_mem _ hr'))
    refine ⟨acc', ?_, by simpa using hc'⟩
    rw [intRows, List.map_cons, List.foldlM_cons, h₁]
    exact h'

/-- A row with too few weights stops the row loop with an index error. -/
theorem foldlM_short (h : Classified t n P acc) {rows : List (List Lit × List Int)}
    (hshort : ∃ r ∈ rows, r.2.length < n) :
    (intRows rows).foldlM (classifyRowStep (.int t) (.int n)) acc = refuse .indexOutOfRange := by
  induction rows generalizing P acc with
  | nil =>
    obtain ⟨r, hr, -⟩ := hshort
    cases hr
  | cons r rows ih =>
    rw [intRows, List.map_cons, List.foldlM_cons]
    by_cases hr : n ≤ r.2.length
    · obtain ⟨acc₁, h₁, hc₁⟩ := h.step hr
      have hrest : ∃ r' ∈ rows, r'.2.length < n := by
        obtain ⟨r', hr', hlt⟩ := hshort
        rcases List.mem_cons.1 hr' with rfl | hr'
        · omega
        · exact ⟨r', hr', hlt⟩
      rw [h₁]
      exact ih hc₁ hrest
    · have hlt : r.2.length < n := by omega
      have hrow : classifyRowStep (.int t) (.int n) acc (r.1, r.2.map .int) = refuse .indexOutOfRange := by
        simp only [classifyRowStep, Datum.rangeBound_int, Int.toNat_natCast,
          classifyValueRow_short hlt h.intValued, bind, Except.bind, refuse]
      rw [hrow]
      rfl

end Classified

/-! ## The reading of integer rows -/

/-- A length known by the positions below it is one past the last position below `n` with the
property, or zero when there is none. -/
theorem length_eq_of_lt_iff {L n : Nat} {P : Nat → Bool}
    (h : ∀ i, i < L ↔ ∃ j, i ≤ j ∧ j < n ∧ P j = true) :
    L = (((List.range n).filter P).max?.map (· + 1)).getD 0 := by
  cases hm : ((List.range n).filter P).max? with
  | none =>
    rw [List.max?_eq_none_iff] at hm
    refine Nat.eq_zero_of_not_pos (fun hL => ?_)
    obtain ⟨j, -, hj, hP⟩ := (h 0).1 hL
    have hmem : j ∈ (List.range n).filter P := List.mem_filter.2 ⟨List.mem_range.2 hj, hP⟩
    simp [hm] at hmem
  | some m =>
    obtain ⟨hmem, hmax⟩ := List.max?_eq_some_iff.1 hm
    obtain ⟨hmn, hPm⟩ := List.mem_filter.1 hmem
    have hlt : m < L := (h m).2 ⟨m, Nat.le_refl m, List.mem_range.1 hmn, hPm⟩
    have hle : L ≤ m + 1 := by
      refine Nat.le_of_not_lt (fun hgt => ?_)
      obtain ⟨j, hj, hjn, hPj⟩ := (h (m + 1)).1 hgt
      have := hmax j (List.mem_filter.2 ⟨List.mem_range.2 hjn, hPj⟩)
      omega
    simp only [Option.map_some, Option.getD_some]
    omega

/-- **Splitting rows of integer weights.** With `n` objectives and top weight `t`, the reading
fails with an index error exactly when some row has fewer than `n` weights. Otherwise the hard
clauses are the clauses of the rows at the top weight under every objective, in row order; the
list of soft maps is one longer than the last objective under which some row is soft, and empty
when there is none; and the soft map of each objective gathers the rows soft under it, each
clause once in order of first occurrence with their weights there summed, empty when no row is
soft under it. -/
theorem classifyValueRows_matches_reference (rows : List (List Lit × List Int)) (t : Int) (n : Nat) :
    ((∃ r ∈ rows, r.2.length < n) →
      classifyValueRows (intRows rows) (.int t) (.int n) = refuse .indexOutOfRange) ∧
    ((∀ r ∈ rows, n ≤ r.2.length) → ∃ softs,
      classifyValueRows (intRows rows) (.int t) (.int n) =
        .ok ((rows.filter (fun r => (List.range n).all (fun i => !softUnder t i r))).map Prod.fst,
          softs) ∧
      softs.length = (((List.range n).filter (fun i => rows.any (softUnder t i))).max?.map (· + 1)).getD 0 ∧
      ∀ i < softs.length, softs[i]? = some (gathered i (intRows (rows.filter (softUnder t i))))) := by
  refine ⟨fun hshort => ?_, fun hrows => ?_⟩
  · rw [classifyValueRows_eq_bind, (Classified.nil : Classified t n [] ([], [])).foldlM_short hshort]
    rfl
  · obtain ⟨acc, hfold, hc⟩ := (Classified.nil : Classified t n [] ([], [])).foldlM hrows
    rw [List.nil_append] at hc
    have hlen : acc.2.length ≤ n := by
      refine Nat.le_of_not_lt (fun hgt => ?_)
      obtain ⟨j, hj, hjn, -⟩ := (hc.length n).1 hgt
      omega
    refine ⟨acc.2, ?_, length_eq_of_lt_iff (fun i => ?_), fun i hi => ?_⟩
    · have hmost : ((acc.2.length : Int) ≤ n) := by exact_mod_cast hlen
      rw [classifyValueRows_eq_bind, hfold, ← hc.hards]
      simp [finishRows, hmost, bind, Except.bind, pure, Except.pure]
    · rw [hc.length i]
      simp only [List.any_eq_true]
    · have hcol := hc.columns i
      rw [if_pos (Nat.lt_of_lt_of_le hi hlen), column_eq_gathered] at hcol
      rw [← hcol, softColumn, List.getElem?_eq_getElem hi, Option.getD_some]

end MaxSatPrep
