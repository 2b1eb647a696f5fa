import MaxSatPrep.Proofs.EngineRun
/-!
Reading the simplified instance back. Each row is read as its clause, the literals decoded and
put in canonical order, and its weight under each objective, the top weight for a hard row.
A row is read back as hard exactly when every weight it reports equals the top weight, and the
hard clauses are the clauses of those rows, in row order (`classifyValueRows_hards`).

Main statement, `extract_hard_rows`: on integer literals and an integer top weight, every hard
row of the engine is read back as a hard clause with the row's literals.
-/

namespace MaxSatPrep

open Session (intOf)

/-! ## Positions and literals -/

/-- A position given as a natural number names the item at that index. -/
theorem itemAt_int {α : Type} {xs : List α} {c : Nat} {x : α}
    (h : Datum.itemAt xs (.int c) = .ok x) : xs[c]? = some x := by
  simp only [Datum.itemAt, Datum.position, Datum.wholeOf?, bind, Except.bind] at h
  split at h
  · cases h
  · rename_i p hp
    split at hp
    · cases hp
    · have hc : ¬ ((c : Int) < 0) := by omega
      simp only [hc, if_false] at hp
      split at hp
      · cases hp
        split at h
        · rename_i y hy
          cases h
          simpa using hy
        · cases h
      · cases hp

theorem Lit.toInt_of_ofInt? {z : Int} {l : Lit} (h : Lit.ofInt? z = some l) : l.toInt = z := by
  unfold Lit.ofInt? at h
  split at h
  · cases h
  · cases h
    simp only [Lit.toInt, decide_eq_true_eq]
    split <;> omega

theorem Lit.exists_ofInt? {z : Int} (hz : z ≠ 0) : ∃ l, Lit.ofInt? z = some l :=
  Option.ne_none_iff_exists'.1 (mt (Lit.ofInt?_eq_none_iff z).1 hz)

/-- Decoding integer literals gives literals with those integers. -/
theorem decodeLits_ok {ds : List Datum} (hds : ∀ d ∈ ds, IsLit d) {ls : List Lit}
    (h : ds.mapM Codec.decodeLit = .ok ls) : ls.map Lit.toInt = ds.map intOf := by
  have hf := Outcome.mapM_forall₂ h
  clear h
  induction hf with
  | nil => rfl
  | @cons d l ds ls hdl _ ih =>
    obtain ⟨z, hz, rfl⟩ := hds d (by simp)
    rw [Codec.decodeLit_int z hz] at hdl
    simp only [Lit.decode] at hdl
    split at hdl
    · rename_i l' hl'
      cases hdl
      simp [Lit.toInt_of_ofInt? hl', ih (fun d hd => hds d (by simp [hd]))]
    · cases hdl

namespace Engine

/-- A row's clause is read back as its literals in canonical order. -/
theorem readClause_perm {e : Engine} {c : Nat} {r : Row} (hr : e.rows[c]? = some r)
    (hlits : ∀ d ∈ r.lits, IsLit d) {clause : List Lit} (h : e.readClause c = .ok clause) :
    (clause.map Lit.toInt).Perm r.ints := by
  simp only [readClause, bind, Except.bind] at h
  split at h
  · cases h
  rename_i r' hr'
  rw [itemAt_int hr'] at hr
  cases hr
  have htake : r.lits.takeWhile (fun l => !Datum.numEq l (.int 0)) = r.lits := by
    rw [List.takeWhile_eq_self_iff]
    intro d hd
    obtain ⟨z, hz, rfl⟩ := hlits d hd
    simpa using hz
  rw [htake] at h
  split at h
  · cases h
  rename_i ls hls
  cases h
  have hperm : ((ls.mergeSort Lit.le).map Lit.toInt).Perm (ls.map Lit.toInt) :=
    (List.mergeSort_perm ls Lit.le).map Lit.toInt
  rw [decodeLits_ok hlits hls] at hperm
  exact hperm

theorem preproWeight_hard {e : Engine} {c : Nat} {r : Row} (hr : e.rows[c]? = some r)
    (hw : r.weights = none) {o w : Datum} (h : e.preproWeight (.int c) o = .ok w) : w = e.top := by
  simp only [preproWeight, bind, Except.bind] at h
  split at h
  · cases h
  rename_i r' hr'
  rw [itemAt_int hr'] at hr
  cases hr
  simp only [hw] at h
  cases h
  rfl

theorem preproWeights_hard {e : Engine} {c : Nat} {r : Row} (hr : e.rows[c]? = some r)
    (hw : r.weights = none) {os : List Nat} {ws : List Datum}
    (h : os.mapM (fun (o : Nat) => e.preproWeight (.int c) (.int o)) = .ok ws) :
    ∀ w ∈ ws, w = e.top := by
  have hf := Outcome.mapM_forall₂ h
  clear h
  induction hf with
  | nil => simp
  | cons ho _ ih =>
    intro w hw'
    rcases List.mem_cons.1 hw' with rfl | hw'
    · exact preproWeight_hard hr hw ho
    · exact ih w hw'

end Engine

/-! ## Classifying rows -/

/-- every weight a row reports under the first `n` objectives equals the top weight -/
def readsHard (top : Datum) (n : Nat) (ws : List Datum) : Bool :=
  (List.range n).all (fun j => (ws[j]?).all (fun w => Datum.numEq w top))

/-- A row is read back as hard exactly when every weight it reports equals the top weight. -/
theorem classifyValueRow_hard {top : Datum} {n : Nat} {c : List Lit} {ws : List Datum}
    {softs softs' : List (List (List Lit × Datum))} {b : Bool}
    (h : classifyValueRow top n c ws softs = .ok (softs', b)) : b = readsHard top n ws := by
  -- the fold keeps the flag while the weights equal the top weight and clears it at the first
  -- that does not
  unfold classifyValueRow at h
  simp only [bind, Except.bind, pure, Except.pure] at h
  have hflag : readsHard top n ws =
      ((softs, true).2 && (List.range n).all (fun j => (ws[j]?).all (fun w => Datum.numEq w top))) := by
    simp [readsHard]
  rw [hflag]
  generalize (softs, true) = st at h ⊢
  generalize List.range n = js at h ⊢
  induction js generalizing st with
  | nil =>
    cases h
    simp
  | cons j js ih =>
    rw [List.foldlM_cons] at h
    rcases hj : ws[j]? with _ | w
    · simp [hj, refuse, bind, Except.bind] at h
    by_cases hw : Datum.numEq w top = true
    · simp only [hj, hw, if_true, bind, Except.bind, pure, Except.pure] at h
      simp [ih st h, hj, hw]
    · simp only [hj, hw, Bool.false_eq_true, if_false, bind, Except.bind, pure, Except.pure] at h
      split at h
      · simp at h
      · rename_i st' hst'
        split at hst'
        · cases hst'
        · cases hst'
          rw [ih _ h]
          simp [hj, hw]

/-- The hard clauses read back are the clauses of the rows read as hard, in row order. -/
theorem classifyValueRows_hards {rows : List (List Lit × List Datum)} {top : Datum} {n : Nat}
    {hards : List (List Lit)} {softs : List (List (List Lit × Datum))}
    (h : classifyValueRows rows top (.int n) = .ok (hards, softs)) :
    hards = (rows.filter (fun p => readsHard top n p.2)).map Prod.fst := by
  unfold classifyValueRows at h
  simp only [bind, Except.bind, pure, Except.pure, Datum.rangeBound_int, Int.toNat_natCast] at h
  split at h
  · cases h
  rename_i v hfold
  have hv : v.1 = hards := by
    split at h
    · cases h
    · split at h
      · cases h
        rfl
      · cases h
  rw [← hv]
  clear h hv
  have hstart : (rows.filter (fun p => readsHard top n p.2)).map Prod.fst =
      (([], []) : List (List Lit) × List (List (List Lit × Datum))).1 ++
        (rows.filter (fun p => readsHard top n p.2)).map Prod.fst := rfl
  rw [hstart]
  clear hstart
  generalize (([], []) : List (List Lit) × List (List (List Lit × Datum))) = acc at hfold ⊢
  induction rows generalizing acc with
  | nil =>
    cases hfold
    simp
  | cons p rows ih =>
    rw [List.foldlM_cons] at hfold
    split at hfold
    · cases hfold
    rename_i q hq
    simp only [bind, Except.bind] at hfold
    rw [ih _ hfold, classifyValueRow_hard hq]
    cases hb : readsHard top n p.2 <;> simp [hb]

/-! ## The instance read back -/

namespace Engine

/-- A read that answers went through the rows and classified them. -/
theorem extract_ok {e : Engine} {n : Nat} {inst : Simplified} (h : e.extract (.int n) = .ok inst) :
    ∃ rows, e.readRows (.int n) = .ok rows ∧
      classifyValueRows rows e.top (.int n) = .ok (inst.hards, inst.softs) := by
  simp only [extract, bind, Except.bind] at h
  split at h
  · cases h
  rename_i low _
  split at h
  · split at h <;> cases h
  rename_i hlow
  simp only [pure, Except.pure] at h
  split at h
  · cases h
  rename_i rows hrows
  split at h
  · cases h
  rename_i q hq
  obtain ⟨hards, softs⟩ := q
  refine ⟨rows, hrows, ?_⟩
  simp only [Datum.rangeBound_int] at h
  split at h
  · cases h
  cases h
  exact hq

/-- The row at each position is read back as its clause and its weights under the objectives. -/
theorem readRows_at {e : Engine} {n : Nat} {rows : List (List Lit × List Datum)}
    (h : e.readRows (.int n) = .ok rows) {c : Nat} (hc : c < e.rows.length) :
    ∃ clause ws, rows[c]? = some (clause, ws) ∧ e.readClause c = .ok clause ∧
      (List.range n).mapM (fun (o : Nat) => e.preproWeight (.int c) (.int o)) = .ok ws := by
  have hf := Outcome.mapM_forall₂ h
  have hcr : c < rows.length := by
    rw [← hf.length_eq]
    simpa using hc
  have hR := hf.get (by simpa using hc) hcr
  simp only [List.get_eq_getElem, List.getElem_range, bind, Except.bind, Datum.rangeBound_int,
    Int.toNat_natCast] at hR
  split at hR
  · cases hR
  rename_i clause hclause
  split at hR
  · cases hR
  rename_i ws hws
  simp only [pure, Except.pure, Except.ok.injEq] at hR
  refine ⟨clause, ws, ?_, hclause, hws⟩
  rw [List.getElem?_eq_getElem hcr, ← hR]

/-- **Hard rows are read back as hard clauses.** On integer literals and an integer top weight,
every hard row of the engine is a hard clause of the instance read back: the row's literals in
canonical order. -/
theorem extract_hard_rows {e : Engine} {n : Nat} {inst : Simplified}
    (hlits : ∀ r ∈ e.rows, ∀ d ∈ r.lits, IsLit d) {t : Int} (htop : e.top = .int t)
    (h : e.extract (.int n) = .ok inst) :
    ∀ r ∈ e.rows, r.weights = none → ∃ c ∈ inst.hards, (c.map Lit.toInt).Perm r.ints := by
  intro r hr hw
  obtain ⟨rows, hrows, hclass⟩ := extract_ok h
  obtain ⟨i, hi, hget⟩ := List.getElem_of_mem hr
  have hri : e.rows[i]? = some r := by rw [List.getElem?_eq_getElem hi, hget]
  obtain ⟨clause, ws, hrow, hclause, hws⟩ := readRows_at hrows hi
  have htopw := preproWeights_hard hri hw hws
  have hhard : readsHard e.top n ws = true := by
    simp only [readsHard, List.all_eq_true]
    intro j _
    cases hj : ws[j]? with
    | none => rfl
    | some w =>
      rw [htopw w (List.mem_of_getElem? hj), htop]
      simp
  refine ⟨clause, ?_, readClause_perm hri (hlits r hr) hclause⟩
  rw [classifyValueRows_hards hclass]
  exact List.mem_map.2 ⟨(clause, ws), List.mem_filter.2 ⟨List.mem_of_getElem? hrow, hhard⟩, rfl⟩

end Engine

end MaxSatPrep
