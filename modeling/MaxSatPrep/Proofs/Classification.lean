import MaxSatPrep.Proofs.TopWeight
/-!
Reading the instance back from a session. The reader sees no hard or soft flag: it reads each
row's clause and weights and calls a row hard exactly when it weighs the top weight under every
objective. Because every reachable session keeps its top weight above all soft weights
(`Session.Reachable.topBound`), the reading never fails and never mistakes a row: the hard
clauses read back are the hard rows' clauses, and every soft row's clause is a soft clause of
every objective, weighing there what the soft rows with that clause weigh together.

Main statements: `Engine.extract_succeeds` and `Session.Reachable.preproInstance_rows`.
-/

namespace MaxSatPrep

open Session (intOf)

/-! ## Reading succeeds -/

theorem itemOr_nat {α : Type} (xs : List α) {o : Nat} (ho : (o : Int) < Datum.wordBound) (past : α) :
    Datum.itemOr xs (.int o) past = .ok (xs.getD o past) := by
  by_cases hlt : o < xs.length
  · have hlt' : (o : Int) < xs.length := by exact_mod_cast hlt
    simp [Datum.itemOr, hlt', Engine.itemAt_lt hlt ho, List.getElem?_eq_getElem hlt, bind, Except.bind]
  · have hge : ¬ (o : Int) < xs.length := by exact_mod_cast hlt
    simp [Datum.itemOr, hge, List.getElem?_eq_none (Nat.le_of_not_lt hlt), bind, Except.bind, pure,
      Except.pure]

theorem decodeLits_exists {ds : List Datum} (hds : ∀ d ∈ ds, IsLit d) :
    ∃ ls, ds.mapM Codec.decodeLit = .ok ls := by
  induction ds with
  | nil => exact ⟨[], rfl⟩
  | cons d ds ih =>
    obtain ⟨z, hz, rfl⟩ := hds d (by simp)
    obtain ⟨ls, hls⟩ := ih (fun d hd => hds d (by simp [hd]))
    have hdec : Codec.decodeLit (.int z) = .ok ⟨z.natAbs, decide (z < 0), Int.natAbs_pos.mpr hz⟩ := by
      simp [Codec.decodeLit_int z hz, Lit.decode, Lit.ofInt?, hz]
    exact ⟨⟨z.natAbs, decide (z < 0), Int.natAbs_pos.mpr hz⟩ :: ls, by
      simp [List.mapM_cons, hdec, hls, bind, Except.bind, pure, Except.pure]⟩

namespace Engine

variable {e : Engine}

theorem preproWeight_ok {c o : Nat} {r : Row} (hr : e.rows[c]? = some r)
    (hc : (c : Int) < Datum.wordBound) (ho : (o : Int) < Datum.wordBound) :
    e.preproWeight (.int c) (.int o) = .ok ((r.weights.map (fun ws => ws.getD o (.int 0))).getD e.top) := by
  obtain ⟨hlt, rfl⟩ := List.getElem?_eq_some_iff.1 hr
  cases hw : e.rows[c].weights with
  | none => simp [preproWeight, itemAt_lt hlt hc, hw, bind, Except.bind, pure, Except.pure]
  | some ws => simp [preproWeight, itemAt_lt hlt hc, hw, itemOr_nat ws ho, bind, Except.bind]

theorem readClause_ok {c : Nat} {r : Row} (hr : e.rows[c]? = some r) (hc : (c : Int) < Datum.wordBound)
    (hlits : ∀ d ∈ r.lits, IsLit d) : e.readClause c = .ok (canonicalClause r.litList) := by
  obtain ⟨hlt, rfl⟩ := List.getElem?_eq_some_iff.1 hr
  have htake : e.rows[c].lits.takeWhile (fun l => !Datum.numEq l (.int 0)) = e.rows[c].lits := by
    rw [List.takeWhile_eq_self_iff]
    intro d hd
    obtain ⟨z, hz, rfl⟩ := hlits d hd
    simpa using hz
  obtain ⟨ls, hls⟩ := decodeLits_exists hlits
  have hread : e.readClause c = .ok (canonicalClause ls) := by
    simp [readClause, itemAt_lt hlt hc, htake, hls, bind, Except.bind, pure, Except.pure]
  rw [hread, readClause_eq hr hlits hread]

/-- **The rows read back.** On integer literals and fewer rows than 64-bit positions, reading the
rows answers with each row's canonical clause and the weights it reports. -/
theorem readRows_ok {n : Nat} (hlits : ∀ r ∈ e.rows, ∀ d ∈ r.lits, IsLit d)
    (hrows : (e.rows.length : Int) ≤ Datum.wordBound) (hn : (n : Int) ≤ Datum.wordBound) :
    e.readRows (.int n) = .ok (e.rows.map (e.readRow n)) := by
  have hrow : ∀ c ∈ List.range e.rows.length, (do
      let clause ← e.readClause c
      let k ← Datum.rangeBound (.int n)
      let ws ← (List.range k.toNat).mapM (fun (o : Nat) => e.preproWeight (.int c) (.int o))
      pure (clause, ws) : Outcome (List Lit × List Datum)) =
      .ok ((e.rows[c]?.map (e.readRow n)).getD ([], [])) := by
    intro c hc
    have hlt := List.mem_range.1 hc
    have hr : e.rows[c]? = some e.rows[c] := List.getElem?_eq_getElem hlt
    have hcw : (c : Int) < Datum.wordBound := by omega
    have hws : (List.range n).mapM (fun (o : Nat) => e.preproWeight (.int c) (.int o)) =
        .ok (e.reportedWeights n e.rows[c]) :=
      Outcome.mapM_ok (fun o ho => preproWeight_ok hr hcw (by have := List.mem_range.1 ho; omega))
    simp [readClause_ok hr hcw (hlits _ (List.getElem_mem hlt)), hws, hr, readRow, bind, Except.bind,
      pure, Except.pure]
  rw [readRows, Outcome.mapM_ok hrow]
  congr 1
  apply List.ext_getElem (by simp)
  intro c h₁ h₂
  simp [List.getElem?_eq_getElem (by simpa using h₁ : c < e.rows.length)]

theorem removedWeights_ok {n : Nat} (hlen : e.removed.length = n) (hn : (n : Int) ≤ Datum.wordBound) :
    (List.range n).mapM (fun (o : Nat) => e.removedWeight (.int o)) = .ok e.removed := by
  have hread : ∀ o ∈ List.range n, e.removedWeight (.int o) = .ok (e.removed.getD o (.int 0)) :=
    fun o ho => itemOr_nat e.removed (by have := List.mem_range.1 ho; omega) _
  rw [Outcome.mapM_ok hread]
  congr 1
  apply List.ext_getElem (by simp [hlen])
  intro o h₁ h₂
  simp [List.getElem?_eq_getElem h₂]

end Engine

/-! ## Classifying succeeds -/

theorem Outcome.foldlM_ok {α β : Type} {f : β → α → Outcome β} {P : β → Prop} {xs : List α} {b : β}
    (hb : P b) (h : ∀ x ∈ xs, ∀ b, P b → ∃ b', f b x = .ok b' ∧ P b') :
    ∃ b', xs.foldlM f b = .ok b' ∧ P b' := by
  induction xs generalizing b with
  | nil => exact ⟨b, rfl, hb⟩
  | cons x xs ih =>
    obtain ⟨b₁, h₁, hb₁⟩ := h x List.mem_cons_self b hb
    rw [List.foldlM_cons, h₁]
    exact ih hb₁ (fun y hy => h y (List.mem_cons_of_mem x hy))

theorem Outcome.foldlM_bind_ok {α β γ : Type} {f : β → α → Outcome β} {g : β → Outcome γ}
    {P : β → Prop} {xs : List α} {b : β} (hb : P b) (h : ∀ x ∈ xs, ∀ b, P b → ∃ b', f b x = .ok b' ∧ P b')
    (hg : ∀ b, P b → ∃ c, g b = .ok c) : ∃ c, (xs.foldlM f b >>= g) = .ok c := by
  obtain ⟨b', hfold, hb'⟩ := Outcome.foldlM_ok hb h
  obtain ⟨c, hc⟩ := hg b' hb'
  exact ⟨c, by rw [hfold]; exact hc⟩

section Classify

variable {softs : List (List (List Lit × Datum))}

/-- A row whose weights under the first `n` objectives are integers is classified; the soft maps
keep integer weights and stay no more than the objectives. -/
theorem classifyValueRow_ok {t : Int} {n : Nat} {c : List Lit} {ws : List Datum}
    (hws : ∀ j < n, ∃ k : Int, ws[j]? = some (.int k)) (hint : ∀ j, IntValued (softColumn softs j))
    (hlen : softs.length ≤ n) :
    ∃ st, classifyValueRow (.int t) n c ws softs = .ok st ∧
      (∀ j, IntValued (softColumn st.1 j)) ∧ st.1.length ≤ n := by
  unfold classifyValueRow
  refine Outcome.foldlM_ok
    (P := fun st : List (List (List Lit × Datum)) × Bool =>
      (∀ j, IntValued (softColumn st.1 j)) ∧ st.1.length ≤ n)
    ⟨hint, hlen⟩ (fun j hj st hst => ?_)
  obtain ⟨k, hk⟩ := hws j (List.mem_range.1 hj)
  have hjn := List.mem_range.1 hj
  by_cases hkt : k = t
  · exact ⟨st, by simp [hk, hkt, bind, Except.bind, pure, Except.pure], hst⟩
  · have hpad : j < (st.1 ++ List.replicate (j + 1 - st.1.length) []).length := by
      simp only [List.length_append, List.length_replicate]
      omega
    have hadd : addValue ((st.1 ++ List.replicate (j + 1 - st.1.length) [])[j]?.getD []) c (.int k) =
        .ok (addInt (softColumn st.1 j) c k) := by
      rw [← softColumn, softColumn_pad]
      exact addValue_int (hst.1 j) c k
    refine ⟨((st.1 ++ List.replicate (j + 1 - st.1.length) []).set j (addInt (softColumn st.1 j) c k),
      false), by simp [hk, hkt, hadd, bind, Except.bind, pure, Except.pure], fun i => ?_, ?_⟩
    · rw [softColumn_set hpad, softColumn_pad]
      split
      · exact (hst.1 j).putValue c _
      · exact hst.1 i
    · simp only [List.length_set, List.length_append, List.length_replicate]
      omega

/-- Rows whose weights under the first `n` objectives are integers are classified. -/
theorem classifyValueRows_ok {rows : List (List Lit × List Datum)} {t : Int} {n : Nat}
    (hrows : ∀ p ∈ rows, ∀ j < n, ∃ k : Int, p.2[j]? = some (.int k)) :
    ∃ st, classifyValueRows rows (.int t) (.int n) = .ok st := by
  have hint₀ : ∀ j, IntValued (softColumn ([] : List (List (List Lit × Datum))) j) := by
    intro j p hp
    simp [softColumn] at hp
  unfold classifyValueRows
  -- row by row the soft maps keep integer weights and stay no more than the objectives
  refine Outcome.foldlM_bind_ok
    (P := fun acc : List (List Lit) × List (List (List Lit × Datum)) =>
      (∀ j, IntValued (softColumn acc.2 j)) ∧ acc.2.length ≤ n)
    ⟨hint₀, by simp⟩ (fun p hp acc hacc => ?_) (fun v hv => ?_)
  · obtain ⟨st, hst, hint, hlen⟩ := classifyValueRow_ok (t := t) (c := p.1) (hrows p hp) hacc.1 hacc.2
    exact ⟨(if st.2 then acc.1 ++ [p.1] else acc.1, st.1),
      by simp [hst, bind, Except.bind, pure, Except.pure], hint, hlen⟩
  · have hmost : (v.2.length : Int) ≤ n := by exact_mod_cast hv.2
    exact ⟨v, by simp [hmost, bind, Except.bind, pure, Except.pure]⟩

end Classify

namespace Engine

variable {e : Engine}

theorem reportedWeights_int {t : Int} (htop : e.top = .int t) {n : Nat} {r : Row}
    (hw : ∀ ws, r.weights = some ws → ∀ w ∈ ws, IsWeight w) {j : Nat} (hj : j < n) :
    ∃ k : Int, (e.reportedWeights n r)[j]? = some (.int k) := by
  simp only [reportedWeights, List.getElem?_map, List.getElem?_range hj, Option.map_some]
  cases hws : r.weights with
  | none => exact ⟨t, by simp [htop]⟩
  | some ws =>
    by_cases hjw : j < ws.length
    · refine ⟨intOf ws[j], ?_⟩
      simp [List.getElem?_eq_getElem hjw, ← (hw ws hws _ (List.getElem_mem hjw)).eq]
    · exact ⟨0, by simp [List.getElem?_eq_none (Nat.le_of_not_lt hjw)]⟩

/-- **Reading the instance back succeeds.** An engine in shape under the top-weight bound, with no
more rows than 64-bit positions, is read back, with its top weight and its removed weights as
they are. -/
theorem extract_succeeds {n : Nat} (hs : Shape n e) (hb : TopBound e)
    (hrows : (e.rows.length : Int) ≤ Datum.wordBound) :
    ∃ inst, e.extract (.int n) = .ok inst ∧ inst.topWeight = e.top ∧ inst.removedWeight = e.removed := by
  obtain ⟨t, ht, hle⟩ := hb.top
  have hn : (n : Int) ≤ Datum.wordBound := le_trans hs.nBound (by decide)
  have hpos : ¬ t < 1 := by
    have := softTotal_le_of_sublist hb.weights (List.nil_sublist e.rows)
    simp only [softTotal_nil] at this
    omega
  have hints : ∀ p ∈ e.rows.map (e.readRow n), ∀ j < n, ∃ k : Int, p.2[j]? = some (.int k) := by
    intro p hp j hj
    obtain ⟨r, hr, rfl⟩ := List.mem_map.1 hp
    exact reportedWeights_int ht (hb.weights r hr) hj
  obtain ⟨⟨hards, softs⟩, hclass⟩ := classifyValueRows_ok (t := t) hints
  have hless : Datum.less e.top (.int 1) = .ok false := by
    rw [ht, Datum.less_int]
    simpa using hpos
  rw [← ht] at hclass
  refine ⟨⟨hards, softs, e.top, e.removed⟩, ?_, rfl, rfl⟩
  simp [extract, hless, readRows_ok hs.tabled.rows.lits hrows hn, hclass,
    removedWeights_ok hs.removed.1 hn, bind, Except.bind, pure, Except.pure]

end Engine

/-! ## The soft maps read back -/

section SoftMaps

variable {m : List (List Lit × Datum)}

/-- A clause is a key of a soft map gathered from clauses when it was a key before or is one of
the clauses. -/
theorem mem_keys_foldl_addInt {j : Nat} {ps : List (List Lit × List Datum)} {c : List Lit} :
    c ∈ (ps.foldl (fun m p => addInt m p.1 (reportedAt j p)) m).map Prod.fst ↔
      c ∈ m.map Prod.fst ∨ c ∈ ps.map Prod.fst := by
  induction ps generalizing m with
  | nil => simp
  | cons p ps ih =>
    rw [List.foldl_cons, ih, addInt, keys_putValue]
    split
    · rename_i hany
      obtain ⟨q, hq, hqp⟩ := List.any_eq_true.1 hany
      have hkey : p.1 ∈ m.map Prod.fst := List.mem_map.2 ⟨q, hq, by simpa using hqp⟩
      constructor
      · rintro (h | h)
        · exact .inl h
        · exact .inr (List.mem_cons_of_mem _ h)
      · rintro (h | h)
        · exact .inl h
        · rcases List.mem_cons.1 h with rfl | h
          · exact .inl hkey
          · exact .inr h
    · simp [or_assoc]

/-- In a soft map whose clauses differ, the clauses equal to one weigh its weight. -/
theorem weightWhere_eq_lookupInt (hnd : (m.map Prod.fst).Nodup) (c : List Lit) :
    weightWhere (· == c) m = lookupInt m c := by
  induction m with
  | nil => rfl
  | cons p rest ih =>
    obtain ⟨hp, hnd'⟩ := List.nodup_cons.1 hnd
    by_cases hpc : p.1 = c
    · have hrest : weightWhere (· == c) rest = 0 := by
        have hnone : rest.filter (fun q => q.1 == c) = [] := by
          rw [List.filter_eq_nil_iff]
          intro q hq hqc
          exact hp (by rw [hpc, ← beq_iff_eq.1 hqc]; exact List.mem_map_of_mem hq)
        simp [weightWhere, hnone]
      simp only [weightWhere, List.filter_cons, hpc, beq_self_eq_true, if_true, List.map_cons,
        List.sum_cons] at hrest ⊢
      rw [hrest]
      simp [lookupInt, hpc]
    · have hne : (p.1 == c) = false := by simpa using hpc
      simp only [weightWhere, List.filter_cons, hne, Bool.false_eq_true, if_false] at ih ⊢
      rw [ih hnd']
      simp [lookupInt, hne]

theorem get?_of_mem_keys {c : List Lit} (hc : c ∈ m.map Prod.fst) :
    (SoftMap.mk (m.map fun p => (p.1, Simplified.weightInt p.2))).get? c = some (lookupInt m c) := by
  obtain ⟨p, hp, rfl⟩ := List.mem_map.1 hc
  obtain ⟨q, hq⟩ : ∃ q, m.find? (fun q => q.1 == p.1) = some q := by
    rw [← Option.isSome_iff_exists, List.find?_isSome]
    exact ⟨p, hp, by simp⟩
  simp [SoftMap.get?, List.find?_map, hq, lookupInt]
  rfl

end SoftMaps

namespace Engine

variable {e : Engine}

theorem Shape.soft_pos {n : Nat} (hs : Shape n e) : ∀ r ∈ e.rows, r.weights ≠ none → 0 < n := by
  intro r hr hw
  obtain ⟨ws, hws⟩ := Option.ne_none_iff_exists'.1 hw
  exact (hs.rows.weights r hr ws hws).1

/-- **The soft clauses read back.** Under the top-weight bound, the clause of every soft row is a
soft clause of every objective, weighing there what the soft rows with that clause weigh. -/
theorem objective_get? {n : Nat} (hs : Shape n e) (hb : TopBound e) {inst : Simplified}
    (h : e.extract (.int n) = .ok inst) {r : Row} (hr : r ∈ e.rows) (hsoft : r.weights.isSome)
    {i : Nat} (hi : i < n) :
    (inst.objective i).get? (canonicalClause r.litList) =
      some (weightSum ((e.rows.filter (fun r' => r'.weights.isSome)).filter
        (fun r' => canonicalClause r'.litList = canonicalClause r.litList)) i) := by
  have hcol := (extract_rows hs.tabled hb hs.soft_pos h).2 i hi
  set ps := (e.rows.filter (fun r => r.weights.isSome)).map (e.readRow n) with hps
  obtain ⟨-, hnd, hsum⟩ := @column_foldl i ps [] (by simp [IntValued]) (by simp)
  have hkey : canonicalClause r.litList ∈ (column i ps).map Prod.fst := by
    refine mem_keys_foldl_addInt.2 (.inr (List.mem_map.2 ⟨e.readRow n r, ?_, rfl⟩))
    exact List.mem_map.2 ⟨r, List.mem_filter.2 ⟨hr, hsoft⟩, rfl⟩
  have hobj : inst.objective i = SoftMap.mk ((column i ps).map fun p => (p.1, Simplified.weightInt p.2)) := by
    rw [Simplified.objective, ← softColumn, hcol]
  rw [hobj, get?_of_mem_keys hkey, column, ← weightWhere_eq_lookupInt hnd, hsum]
  simp only [weightWhere, List.filter_nil, List.map_nil, List.sum_nil, zero_add, hps, List.filter_map,
    List.map_map, weightSum]
  have hfilter : (e.rows.filter (fun r => r.weights.isSome)).filter
      ((fun p => p.1 == canonicalClause r.litList) ∘ e.readRow n) =
      (e.rows.filter (fun r => r.weights.isSome)).filter
        (fun r' => decide (canonicalClause r'.litList = canonicalClause r.litList)) :=
    List.filter_congr (fun r' _ => Bool.beq_eq_decide_eq _ _)
  rw [hfilter]
  congr 2
  exact List.map_congr_left (fun r' hr' => reportedAt_readRow_soft hb (List.mem_of_mem_filter hr') hi)

end Engine

/-! ## Along a session -/

theorem SoftMap.mem_clauses_of_get? {m : SoftMap} {c : List Lit} {w : Int} (h : m.get? c = some w) :
    c ∈ m.clauses := by
  obtain ⟨p, hp, -⟩ := Option.map_eq_some_iff.1 h
  have hmem := List.mem_of_find?_eq_some hp
  have hpc : p.1 = c := by simpa using List.find?_some hp
  exact List.mem_map.2 ⟨p, hmem, hpc⟩

theorem Row.litList_toInt {r : Row} (hlits : ∀ d ∈ r.lits, IsLit d) : r.litList.map Lit.toInt = r.ints := by
  have hints : ∀ z ∈ r.ints, z ≠ 0 := by
    intro z hz
    obtain ⟨d, hd, rfl⟩ := Row.mem_ints.1 hz
    exact (hlits d hd).ne_zero
  unfold Row.litList
  generalize r.ints = zs at hints
  induction zs with
  | nil => rfl
  | cons z zs ih =>
    obtain ⟨l, hl⟩ := Lit.exists_ofInt? (hints z List.mem_cons_self)
    rw [List.filterMap_cons_some hl, List.map_cons, Lit.toInt_of_ofInt? hl,
      ih (fun z' hz' => hints z' (List.mem_cons_of_mem z hz'))]

namespace Session

variable {s : Session}

/-- **The instance read back from a reachable session.** With no more rows than 64-bit positions,
reading the instance back succeeds; its hard clauses are the hard rows' clauses in row order, and
every soft row's clause is a soft clause of every objective, weighing there what the soft rows
with that clause weigh. -/
theorem Reachable.preproInstance_rows (h : s.Reachable)
    (hrows : (s.engine.rows.length : Int) ≤ Datum.wordBound) :
    ∃ inst, s.preproInstance = .ok inst ∧
      inst.hards = (s.engine.rows.filter (fun r => r.weights.isNone)).map
        (fun r => canonicalClause r.litList) ∧
      ∀ r ∈ s.engine.rows, r.weights.isSome → ∀ i < s.nObj,
        (inst.objective i).get? (canonicalClause r.litList) =
          some (Engine.weightSum ((s.engine.rows.filter (fun r' => r'.weights.isSome)).filter
            (fun r' => canonicalClause r'.litList = canonicalClause r.litList)) i) := by
  have hr := h.ready
  have hb := h.topBound
  obtain ⟨inst, hinst, -, -⟩ := Engine.extract_succeeds hr.shape hb hrows
  refine ⟨inst, by simp [preproInstance, hr.shared, hinst, bind, Except.bind], ?_, ?_⟩
  · exact (Engine.extract_rows hr.shape.tabled hb hr.shape.soft_pos hinst).1
  · intro r hr' hsoft i hi
    exact Engine.objective_get? hr.shape hb hinst hr' hsoft hi

theorem Reachable.removedWeight_eq (h : s.Reachable) :
    s.removedWeight = .ok (s.engine.removed.map intOf) := by
  have hr := h.ready
  have hn : (s.nObj : Int) ≤ Datum.wordBound := le_trans hr.shape.nBound (by decide)
  simp [Session.removedWeight, hr.shared, Engine.removedWeights_ok hr.shape.removed.1 hn, bind,
    Except.bind, pure, Except.pure]

theorem Reachable.preproLabels_eq (h : s.Reachable) : s.preproLabels = .ok (labelLits s.engine.rows) := by
  have hr := h.ready
  simp [Session.preproLabels, hr.shared, Engine.labels, Engine.labelsOf_eq hr.shape.unitLabels,
    List.map_map, Function.comp_def, bind, Except.bind, pure, Except.pure]

end Session

/-- **Top weight and classification.** In every reachable session the top weight is at least one
more than all soft weights together. So, with no more rows than 64-bit positions, the instance
reads back with the hard rows' clauses, in row order, as its hard clauses, and with every soft
row's clause as a soft clause of every objective, weighing there what the soft rows with that
clause weigh: no soft row is read back as hard, and no hard row as soft. -/
theorem reachable_top_classifies_rows {s : Session} (h : s.Reachable) :
    (∃ t, s.engine.top = .int t ∧ 1 + Engine.softTotal s.engine.rows ≤ t) ∧
      ((s.engine.rows.length : Int) ≤ Datum.wordBound →
        ∃ inst, s.preproInstance = .ok inst ∧
          inst.hards = (s.engine.rows.filter (fun r => r.weights.isNone)).map
            (fun r => canonicalClause r.litList) ∧
          ∀ r ∈ s.engine.rows, r.weights.isSome → ∀ i < s.nObj,
            (inst.objective i).get? (canonicalClause r.litList) =
              some (Engine.weightSum ((s.engine.rows.filter (fun r' => r'.weights.isSome)).filter
                (fun r' => canonicalClause r'.litList = canonicalClause r.litList)) i)) :=
  ⟨h.topBound.top, h.preproInstance_rows⟩

theorem labelled_session_reachable :
    ∃ s : Session, s.Reachable ∧ (s.engine.rows.length : Int) ≤ Datum.wordBound := by
  have hrun : ((Session.openWith .reference {} [[⟨1, false, by decide⟩, ⟨2, false, by decide⟩]]
      [[([⟨3, false, by decide⟩], 5), ([⟨1, true, by decide⟩], 2)]] false none).toOption.map fun s =>
        decide (((s.performAll [.addVar, .addLabel (.int 4) (.int 7)]).engine.rows.length : Int) ≤
          Datum.wordBound)) = some true := by
    decide +kernel
  obtain ⟨s₀, hO, hsmall⟩ := Outcome.exists_of_toOption_map hrun
  exact ⟨_, (Session.Reachable.opened hO).performAll [.addVar, .addLabel (.int 4) (.int 7)],
    of_decide_eq_true hsmall⟩

/-- The session of `labelled_session_reachable` reads back under its top weight. -/
theorem labelled_session_classifies :
    ∃ s : Session, s.Reachable ∧ (s.engine.rows.length : Int) ≤ Datum.wordBound ∧
      (∃ t, s.engine.top = .int t ∧ 1 + Engine.softTotal s.engine.rows ≤ t) ∧
      ((s.engine.rows.length : Int) ≤ Datum.wordBound →
        ∃ inst, s.preproInstance = .ok inst ∧
          inst.hards = (s.engine.rows.filter (fun r => r.weights.isNone)).map
            (fun r => canonicalClause r.litList) ∧
          ∀ r ∈ s.engine.rows, r.weights.isSome → ∀ i < s.nObj,
            (inst.objective i).get? (canonicalClause r.litList) =
              some (Engine.weightSum ((s.engine.rows.filter (fun r' => r'.weights.isSome)).filter
                (fun r' => canonicalClause r'.litList = canonicalClause r.litList)) i)) := by
  obtain ⟨s, hs, hlen⟩ := labelled_session_reachable
  exact ⟨s, hs, hlen, reachable_top_classifies_rows hs⟩

/-- **Representation invariant.** In every reachable session the engine is in shape: no literal
zero and every variable known, soft rows with one weight at least zero per objective, one removed
weight per objective, label rows soft units on distinct variables, fixed literals on distinct
variables, and empty buffers; and every call only grows the largest variable and the fixed
literals. So the removed weights are read one per objective, and, with no more rows than 64-bit
positions, every row's clause is read back whole, and every label is a unit clause of every
objective read back. -/
theorem reachable_representation {s : Session} (h : s.Reachable) :
    Engine.Shape s.nObj s.engine ∧ (∀ c, Engine.Grows s.engine (s.perform c).engine) ∧
      s.removedWeight = .ok (s.engine.removed.map intOf) ∧
      s.preproLabels = .ok (labelLits s.engine.rows) ∧
      ((s.engine.rows.length : Int) ≤ Datum.wordBound →
        (∀ i r, s.engine.rows[i]? = some r →
          s.engine.readClause i = .ok (canonicalClause r.litList) ∧ r.litList.map Lit.toInt = r.ints) ∧
        ∃ inst, s.preproInstance = .ok inst ∧
          ∀ L ∈ labelLits s.engine.rows, ∀ i < s.nObj,
            ∃ l : Lit, l.toInt = L ∧ [l] ∈ (inst.objective i).clauses) := by
  have hr := h.ready
  refine ⟨hr.shape, fun c => (hr.perform c).2, h.removedWeight_eq, h.preproLabels_eq,
    fun hrows => ⟨fun i r hri => ?_, ?_⟩⟩
  · have hlt : i < s.engine.rows.length := (List.getElem?_eq_some_iff.1 hri).1
    have hlits : ∀ d ∈ r.lits, IsLit d := fun d hd =>
      (hr.shape.rows.lits r (List.mem_of_getElem? hri) d hd).1
    exact ⟨Engine.readClause_ok hri (by omega) hlits, Row.litList_toInt hlits⟩
  · obtain ⟨inst, hinst, -, hsoft⟩ := h.preproInstance_rows hrows
    refine ⟨inst, hinst, fun L hL i hi => ?_⟩
    obtain ⟨r, hrm, rfl⟩ := List.mem_map.1 hL
    obtain ⟨hrm, hlab⟩ := List.mem_filter.1 hrm
    obtain ⟨hsome, hlen⟩ := hr.shape.rows.labels r hrm hlab
    obtain ⟨d, hd⟩ := List.length_eq_one_iff.1 hlen
    have hd' : IsLit d := (hr.shape.rows.lits r hrm d (by simp [hd])).1
    obtain ⟨l, hl⟩ := Lit.exists_ofInt? hd'.ne_zero
    have hlit : r.litList = [l] := by simp [Row.litList, Row.ints, hd, hl]
    refine ⟨l, by simp [Lit.toInt_of_ofInt? hl, Row.labelLit, hd], ?_⟩
    have hget := hsoft r hrm hsome i hi
    rw [hlit] at hget
    exact SoftMap.mem_clauses_of_get? (by simpa [canonicalClause] using hget)

/-- The session of `labelled_session_reachable` keeps its representation. -/
theorem labelled_session_representation :
    ∃ s : Session, s.Reachable ∧ (s.engine.rows.length : Int) ≤ Datum.wordBound ∧
      Engine.Shape s.nObj s.engine ∧ (∀ c, Engine.Grows s.engine (s.perform c).engine) ∧
      s.removedWeight = .ok (s.engine.removed.map intOf) ∧
      s.preproLabels = .ok (labelLits s.engine.rows) ∧
      ((s.engine.rows.length : Int) ≤ Datum.wordBound →
        (∀ i r, s.engine.rows[i]? = some r →
          s.engine.readClause i = .ok (canonicalClause r.litList) ∧ r.litList.map Lit.toInt = r.ints) ∧
        ∃ inst, s.preproInstance = .ok inst ∧
          ∀ L ∈ labelLits s.engine.rows, ∀ i < s.nObj,
            ∃ l : Lit, l.toInt = L ∧ [l] ∈ (inst.objective i).clauses) := by
  obtain ⟨s, hs, hlen⟩ := labelled_session_reachable
  exact ⟨s, hs, hlen, reachable_representation hs⟩

end MaxSatPrep
