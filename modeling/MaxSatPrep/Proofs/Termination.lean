import MaxSatPrep.Proofs.Soundness
/-!
Termination of preprocessing. The source runs a repeating group of techniques in a loop that
stops after the first pass in which no technique reports a change, and unit propagation in a
loop that stops after the first round that fixes no new literal; the engine here runs both with
a bound on the passes. This module shows that the bounds are never what stops them.

The measure of the table is the number of its rows plus the number of their literals. No run of
a technique raises it, and a run that reports a change lowers it (`runTechnique_measure`), so a
group started on a table of measure `M` ends within `M + 1` passes. Unit propagation fixes a new
variable of the rows in every round but the last, so it ends within `V + 1` rounds, `V` the
number of distinct variables of the rows.

Main statement: `preprocessing_terminates`.
-/

namespace MaxSatPrep

namespace Outcome

variable {α : Type}

/-! A filter that answers keeps at most the members it was given. -/

theorem filterAuxM_length {p : α → Outcome Bool} {xs acc ys : List α}
    (h : List.filterAuxM p xs acc = .ok ys) : ys.length ≤ xs.length + acc.length := by
  induction xs generalizing acc with
  | nil =>
    cases h
    simp
  | cons x xs ih =>
    rcases hx : p x with f | b
    · simp [List.filterAuxM, hx, bind, Except.bind] at h
    · simp only [List.filterAuxM, hx, bind, Except.bind] at h
      have := ih h
      cases b <;> simp at this ⊢ <;> omega

theorem filterM_length {p : α → Outcome Bool} {xs ys : List α} (h : xs.filterM p = .ok ys) :
    ys.length ≤ xs.length := by
  rcases h' : List.filterAuxM p xs [] with f | zs
  · simp [List.filterM, h', bind, Except.bind] at h
  · simp only [List.filterM, h', bind, Except.bind, pure, Except.pure, Except.ok.injEq] at h
    subst h
    simpa using filterAuxM_length h'

end Outcome

namespace Engine

open Session (intOf)

/-! ## The measure of the table -/


/-- the measure of a list of rows: each row's literals and one -/
def rowsMeasure (rows : List Row) : Nat := (rows.map Row.measure).sum

@[simp] theorem rowsMeasure_nil : rowsMeasure [] = 0 := rfl

@[simp] theorem rowsMeasure_cons (r : Row) (rows : List Row) :
    rowsMeasure (r :: rows) = r.lits.length + 1 + rowsMeasure rows := by
  simp [rowsMeasure, Row.measure]

theorem measure_eq (e : Engine) : e.measure = rowsMeasure e.rows :=
  List.sum_eq_foldl_nat.symm

/-! ## No technique raises the measure

A sweep of unit propagation drops rows and literals and keeps the others; subsumption and
blocked clause elimination drop rows by position. -/

/-- **One sweep.** Sweeping keeps the measure of the rows or lowers it, and the rows it keeps
count one less than the rows it swept when it reports a change. -/
theorem sweep_measure (vs : Fixing) (rows : List Row) (removed : List Datum) :
    rowsMeasure (sweep vs rows removed).rows ≤ rowsMeasure rows ∧
      ((sweep vs rows removed).failure = none →
        rowsMeasure (sweep vs rows removed).alive + (if (sweep vs rows removed).changed then 1 else 0) ≤
          rowsMeasure rows) := by
  induction rows generalizing removed with
  | nil => simp [sweep]
  | cons r rs ih =>
    rcases hany : r.lits.anyM (isTrueUnder vs) with f | sat
    · simp only [sweep, hany]
      simp
    cases sat
    case true =>
      obtain ⟨h1, h2⟩ := ih removed
      simp only [sweep, hany, rowsMeasure_cons, if_true]
      exact ⟨by omega, fun hf => by have := h2 hf; split at this <;> omega⟩
    rcases hkeep : r.lits.filterM (fun l => do pure !(← isFalseUnder vs l)) with f | kept
    · simp only [sweep, hany, hkeep]
      simp
    have hlen := Outcome.filterM_length hkeep
    simp only [sweep, hany, hkeep]
    have hw' : (if decide (kept.length < r.lits.length) = true then { r with lits := kept } else r).weights =
        r.weights := by
      split <;> rfl
    have hl' : (if decide (kept.length < r.lits.length) = true then { r with lits := kept } else r).lits.length +
        (if decide (kept.length < r.lits.length) = true then 1 else 0) ≤ r.lits.length := by
      split
      · simp_all
      · simp
    simp only [hw']
    generalize decide (kept.length < r.lits.length) = sh at hl' ⊢
    generalize (if sh = true then { r with lits := kept } else r) = r' at hl' ⊢
    have hor : ∀ c : Bool, (if (sh || c) = true then 1 else 0) ≤
        (if sh = true then 1 else 0) + (if c = true then 1 else 0) := by
      intro c
      cases sh <;> cases c <;> simp
    have kept_row : rowsMeasure (r' :: (sweep vs rs removed).rows) ≤ rowsMeasure (r :: rs) ∧
        ((sweep vs rs removed).failure = none →
          rowsMeasure (r' :: (sweep vs rs removed).alive) +
            (if (sh || (sweep vs rs removed).changed) then 1 else 0) ≤ rowsMeasure (r :: rs)) := by
      obtain ⟨h1, h2⟩ := ih removed
      simp only [rowsMeasure_cons]
      refine ⟨by split at hl' <;> omega, fun hf => ?_⟩
      have := h2 hf
      have := hor (sweep vs rs removed).changed
      omega
    cases kept with
    | cons d ds => exact kept_row
    | nil =>
      cases hw : r.weights with
      | none => exact kept_row
      | some ws =>
        rcases hret : retireWeights removed 0 ws with ⟨removed', _ | f⟩
        · obtain ⟨h1, h2⟩ := ih removed'
          simp only [hret, rowsMeasure_cons]
          refine ⟨by split at hl' <;> omega, fun hf => ?_⟩
          have := h2 hf
          have := hor (sweep vs rs removed').changed
          omega
        · simp only [hret, rowsMeasure_cons]
          exact ⟨by split at hl' <;> omega, fun hf => by simp at hf⟩

/-- Rounds of propagation keep the measure or lower it, and lower it when they report a change
that the flag they started with does not carry. -/
theorem propagateLoop_measure (fuel : Nat) (vs : Fixing) (c : Bool) {e e' : Engine} {r : Outcome Bool}
    (h : (propagateLoop fuel vs c).run e = (r, e')) :
    rowsMeasure e'.rows ≤ rowsMeasure e.rows ∧ (r = .ok true → c = true ∨ rowsMeasure e'.rows < rowsMeasure e.rows) := by
  induction fuel generalizing vs c e with
  | zero =>
    simp only [propagateLoop, EngineM.run_pure, Prod.mk.injEq] at h
    obtain ⟨rfl, rfl⟩ := h
    exact ⟨le_rfl, fun h => .inl (by cases h; rfl)⟩
  | succ fuel ih =>
    obtain ⟨hrows, halive⟩ := sweep_measure vs e.rows e.removed
    simp only [propagateLoop, EngineM.run_bind, EngineM.run_get] at h
    rcases hf : (sweep vs e.rows e.removed).failure with _ | f
    case some =>
      simp only [hf, EngineM.run_bind, EngineM.run_set, EngineM.run_throw, Prod.mk.injEq] at h
      obtain ⟨rfl, rfl⟩ := h
      exact ⟨hrows, fun h => by cases h⟩
    have hlt := halive hf
    rcases hcu : collectUnits (sweep vs e.rows e.removed).alive vs [] with ⟨vs', fresh, _ | f⟩
    case some =>
      simp only [hf, hcu, EngineM.run_bind, EngineM.run_set, EngineM.run_modify, EngineM.run_throw,
        Prod.mk.injEq] at h
      obtain ⟨rfl, rfl⟩ := h
      exact ⟨by dsimp only; omega, fun h => by cases h⟩
    simp only [hf, hcu, EngineM.run_bind, EngineM.run_set, EngineM.run_modify] at h
    split at h
    · simp only [EngineM.run_pure, Prod.mk.injEq] at h
      obtain ⟨rfl, rfl⟩ := h
      refine ⟨by dsimp only; omega, fun h => ?_⟩
      cases h' : (sweep vs e.rows e.removed).changed
      · rw [h'] at h hlt
        cases c
        · cases h
        · exact .inl rfl
      · rw [h', if_pos rfl] at hlt
        exact .inr (by dsimp only; omega)
    · obtain ⟨h1, h2⟩ := ih _ _ h
      refine ⟨by dsimp only at h1; omega, fun h => ?_⟩
      rcases h2 h with h' | h'
      · cases c
        · simp only [Bool.false_or] at h'
          rw [h', if_pos rfl] at hlt
          exact .inr (by dsimp only at h1; omega)
        · exact .inl rfl
      · exact .inr (by dsimp only at h'; omega)

/-- **Unit propagation** never raises the measure, and lowers it when it reports a change. -/
theorem unitPropagate_measure {e e' : Engine} {r : Outcome Bool} (h : unitPropagate.run e = (r, e')) :
    rowsMeasure e'.rows ≤ rowsMeasure e.rows ∧ (r = .ok true → rowsMeasure e'.rows < rowsMeasure e.rows) := by
  simp only [unitPropagate, EngineM.run_bind, EngineM.run_get, EngineM.run_lift] at h
  rcases hread : e.fixed.foldlM (fun vs l => do pure ((← Datum.magnitude l, l) :: vs)) [] with f | vs
  · simp only [hread, Prod.mk.injEq] at h
    obtain ⟨rfl, rfl⟩ := h
    exact ⟨le_rfl, fun h => by cases h⟩
  · simp only [hread] at h
    obtain ⟨h1, h2⟩ := propagateLoop_measure _ _ false h
    exact ⟨h1, fun hr => (h2 hr).resolve_left Bool.false_ne_true⟩

theorem rowsMeasure_sublist {l₁ l₂ : List Row} (h : l₁.Sublist l₂) : rowsMeasure l₁ + (l₂.length - l₁.length) ≤ rowsMeasure l₂ := by
  induction h with
  | slnil => simp
  | cons a h ih =>
    have := h.length_le
    simp only [rowsMeasure_cons, List.length_cons]
    omega
  | cons_cons a h ih =>
    have := h.length_le
    simp only [rowsMeasure_cons, List.length_cons]
    omega

theorem rowsMeasure_dropAt_lt {rows : List Row} {gone : List Nat} {j : Nat} (hj : j ∈ gone) (hlt : j < rows.length) :
    rowsMeasure (dropAt rows gone) < rowsMeasure rows := by
  have hsub := rowsMeasure_sublist (dropAt_sublist rows gone)
  have hlen : (dropAt rows gone).length < rows.length := by
    have h : (rows.zipIdx.filter (fun p => !gone.contains p.2)).length < rows.zipIdx.length :=
      List.length_filter_lt_length_iff_exists.2
        ⟨(rows[j], j), List.mem_zipIdx_iff_getElem?.2 (List.getElem?_eq_getElem hlt), by simp [hj]⟩
    simpa [dropAt] using h
  omega

theorem run_forM_keeps {α : Type} {xs : List α} {f : α → EngineM PUnit} (h : ∀ x e, ((f x).run e).2 = e)
    (e : Engine) : ((xs.forM f).run e).2 = e := by
  induction xs with
  | nil => rfl
  | cons x xs ih =>
    have hcons : (x :: xs).forM f = (f x >>= fun _ => xs.forM f) := rfl
    rw [hcons, EngineM.run_bind]
    rcases hx : (f x).run e with ⟨_ | ⟨⟩, e₁⟩
    · simpa [hx] using h x e
    · have he₁ : e₁ = e := by simpa [hx] using h x e
      subst he₁
      exact ih

theorem run_check_keeps {α β : Type} (xs : List α) (g : α → Outcome β) (e : Engine) :
    ((xs.forM (fun x => do let _ ← EngineM.lift (g x); pure ())).run e).2 = e := by
  refine run_forM_keeps (fun x e => ?_) e
  rcases g x with f | u <;> rfl

/-- The positions subsumption gives up are positions of rows. -/
theorem removeSupersets_lt {rows : List Row} {i : Nat} {gone : List Nat} (hgone : ∀ j ∈ gone, j < rows.length) :
    ∀ j ∈ removeSupersets rows i gone, j < rows.length := by
  unfold Engine.removeSupersets
  split
  · exact hgone
  · split
    · exact hgone
    · refine List.foldlRecOn (motive := fun acc => ∀ j ∈ acc, j < rows.length) _ _ hgone
        (fun acc hacc j hj => ?_)
      split
      · intro x hx
        rcases List.mem_append.1 hx with hx | hx
        · exact hacc x hx
        · rw [List.mem_singleton.1 hx]
          exact List.mem_range.1 hj
      · exact hacc

/-- **Subsumption** never raises the measure, and lowers it when it reports a change. -/
theorem subsume_measure {e e' : Engine} {r : Outcome Bool} (h : subsume.run e = (r, e')) :
    rowsMeasure e'.rows ≤ rowsMeasure e.rows ∧ (r = .ok true → rowsMeasure e'.rows < rowsMeasure e.rows) := by
  simp only [subsume, EngineM.run_bind, EngineM.run_get] at h
  have hkeep := run_check_keeps e.rows (fun r => r.lits.mapM Datum.hashable) e
  rcases hc : (e.rows.forM (fun r => do let _ ← EngineM.lift (r.lits.mapM Datum.hashable); pure ())).run e
    with ⟨_ | ⟨⟩, e₁⟩
  · rw [hc] at hkeep
    simp only [hc, Prod.mk.injEq] at h hkeep
    obtain ⟨rfl, rfl⟩ := h
    subst hkeep
    exact ⟨le_rfl, fun h => by cases h⟩
  rw [hc] at hkeep
  obtain rfl : e = e₁ := hkeep.symm
  simp only [hc] at h
  split at h
  · simp only [EngineM.run_pure, Prod.mk.injEq] at h
    obtain ⟨rfl, rfl⟩ := h
    exact ⟨le_rfl, fun h => by cases h⟩
  · rename_i hne
    simp only [EngineM.run_bind, EngineM.run_set, EngineM.run_pure, Prod.mk.injEq] at h
    obtain ⟨rfl, rfl⟩ := h
    obtain ⟨j, hj⟩ := List.exists_mem_of_ne_nil _ (by simpa using hne)
    have hlt : j < e.rows.length :=
      (List.foldlRecOn (motive := fun acc => ∀ j ∈ acc, j < e.rows.length) _ _ (by simp)
        (fun acc hacc i _ => removeSupersets_lt hacc)) j hj
    have := rowsMeasure_dropAt_lt hj hlt
    exact ⟨this.le, fun _ => this⟩

/-- The positions a pass of blocked clause elimination gives up are those given up before or
positions it visits. -/
theorem blockedPass_gone (rows : List Row) (hard : List Nat) (soft : List Datum) (is gone : List Nat)
    (events : List Event) : ∀ j ∈ (blockedPass rows hard soft is gone events).1, j ∈ gone ∨ j ∈ is := by
  induction is generalizing gone events with
  | nil => exact fun j hj => .inl hj
  | cons i is ih =>
    intro j hj
    simp only [blockedPass] at hj
    split at hj
    · exact (ih gone events j hj).imp_right (List.mem_cons_of_mem i)
    · split at hj
      · exact .inl hj
      · exact (ih gone events j hj).imp_right (List.mem_cons_of_mem i)
      · rcases ih _ _ j hj with hj | hj
        · rcases List.mem_append.1 hj with hj | hj
          · exact .inl hj
          · exact .inr (by simp [List.mem_singleton.1 hj])
        · exact .inr (List.mem_cons_of_mem i hj)

/-- **Blocked clause elimination** never raises the measure, and lowers it when it reports a
change. -/
theorem eliminateBlocked_measure {e e' : Engine} {r : Outcome Bool} (h : eliminateBlocked.run e = (r, e')) :
    rowsMeasure e'.rows ≤ rowsMeasure e.rows ∧ (r = .ok true → rowsMeasure e'.rows < rowsMeasure e.rows) := by
  simp only [eliminateBlocked, EngineM.run_bind, EngineM.run_get] at h
  by_cases hin : e.inprocessing = true
  · rw [if_pos hin] at h
    simp only [EngineM.run_pure, Prod.mk.injEq] at h
    obtain ⟨rfl, rfl⟩ := h
    exact ⟨le_rfl, fun h => by cases h⟩
  rw [if_neg hin] at h
  simp only [EngineM.run_bind, EngineM.run_lift] at h
  rcases hsoft : ((e.rows.filter (fun r => !r.hard)).flatMap Row.lits).mapM Datum.magnitude with f | soft
  · simp only [hsoft, Prod.mk.injEq] at h
    obtain ⟨rfl, rfl⟩ := h
    exact ⟨le_rfl, fun h => by cases h⟩
  simp only [hsoft] at h
  have hkeep := run_check_keeps ((List.range e.rows.length).filter (fun i => (e.rows[i]?.map Row.hard).getD false))
    (fun i => ((e.rows[i]?.map Row.lits).getD []).mapM Datum.hashable) e
  split at h
  case h_2 f e₁ hc =>
    rw [hc] at hkeep
    simp only [Prod.mk.injEq] at h
    obtain ⟨rfl, rfl⟩ := h
    exact ⟨by rw [← hkeep], fun h => by cases h⟩
  rename_i a e₁ hc
  simp only [EngineM.run_set] at h
  have hgone := blockedPass_gone e.rows ((List.range e.rows.length).filter (fun i => (e.rows[i]?.map Row.hard).getD false))
    soft ((List.range e.rows.length).filter (fun i => (e.rows[i]?.map Row.hard).getD false)) [] []
  generalize blockedPass e.rows ((List.range e.rows.length).filter (fun i => (e.rows[i]?.map Row.hard).getD false))
    soft ((List.range e.rows.length).filter (fun i => (e.rows[i]?.map Row.hard).getD false)) [] [] = p at h hgone
  obtain ⟨gone, events, _ | f⟩ := p
  case some =>
    simp only [EngineM.run_throw, Prod.mk.injEq] at h
    obtain ⟨rfl, rfl⟩ := h
    exact ⟨le_rfl, fun h => by cases h⟩
  dsimp only at h hgone
  split at h
  · simp only [EngineM.run_pure, Prod.mk.injEq] at h
    obtain ⟨rfl, rfl⟩ := h
    exact ⟨le_rfl, fun h => by cases h⟩
  · rename_i hne
    simp only [EngineM.run_bind, EngineM.run_modify, EngineM.run_pure, Prod.mk.injEq] at h
    obtain ⟨rfl, rfl⟩ := h
    obtain ⟨j, hj⟩ := List.exists_mem_of_ne_nil _ (by simpa using hne)
    have hlt : j < e.rows.length := by
      rcases hgone j hj with hj' | hj'
      · cases hj'
      · exact List.mem_range.1 (List.mem_filter.1 hj').1
    have := rowsMeasure_dropAt_lt hj hlt
    exact ⟨this.le, fun _ => this⟩

/-- **Step lemma.** No run of a technique, answering or failing, raises the measure, and a run
that reports a change lowers it. -/
theorem runTechnique_measure (t : String) {e e' : Engine} {r : Outcome Bool}
    (h : (runTechnique t).run e = (r, e')) :
    e'.measure ≤ e.measure ∧ (r = .ok true → e'.measure < e.measure) := by
  rw [measure_eq, measure_eq]
  rcases runTechnique_cases t with ht | ht | ht | ht <;> rw [ht] at h
  · exact unitPropagate_measure h
  · exact subsume_measure h
  · exact eliminateBlocked_measure h
  · simp only [EngineM.run_pure, Prod.mk.injEq] at h
    obtain ⟨rfl, rfl⟩ := h
    exact ⟨le_rfl, fun h => by cases h⟩

/-! ## The passes of a group -/

@[simp] theorem setIdle_rows (e : Engine) (t : String) (n : Nat) : (e.setIdle t n).rows = e.rows := by
  unfold Engine.setIdle
  split <;> rfl

theorem setIdle_measure (e : Engine) (t : String) (n : Nat) : (e.setIdle t n).measure = e.measure := by
  simp [measure_eq]

theorem runLogged_measure (t : String) {e e' : Engine} {r : Outcome Bool} (h : (runLogged t).run e = (r, e')) :
    e'.measure ≤ e.measure ∧ (r = .ok true → e'.measure < e.measure) := by
  simp only [runLogged, EngineM.run_bind, EngineM.run_get] at h
  rcases hrun : (runTechnique t).run e with ⟨_ | c, e₁⟩
  · simp only [hrun, Prod.mk.injEq] at h
    obtain ⟨rfl, rfl⟩ := h
    exact runTechnique_measure t hrun
  · simp only [hrun, EngineM.run_set, EngineM.run_pure, Prod.mk.injEq] at h
    obtain ⟨rfl, rfl⟩ := h
    have hm := runTechnique_measure t hrun
    exact hm

/-- **A pass of a group.** A pass never raises the measure, and one that reports a change lowers
it. -/
theorem groupPass_measure (expired halting : Bool) (skip : Int) (ts : List String) (c : Bool)
    {e e' : Engine} {r : Outcome Ending} (h : (groupPass expired halting skip ts c).run e = (r, e')) :
    e'.measure ≤ e.measure ∧ (r = .ok (.done true) → c = true ∨ e'.measure < e.measure) := by
  induction ts generalizing c e with
  | nil =>
    simp only [groupPass, EngineM.run_pure, Prod.mk.injEq] at h
    obtain ⟨rfl, rfl⟩ := h
    exact ⟨le_rfl, fun h => .inl (by cases h; rfl)⟩
  | cons t ts ih =>
    simp only [groupPass] at h
    split at h
    · exact ih c h
    split at h
    · simp only [EngineM.run_pure, Prod.mk.injEq] at h
      obtain ⟨rfl, rfl⟩ := h
      exact ⟨le_rfl, fun h => by cases h⟩
    simp only [EngineM.run_bind, EngineM.run_get] at h
    split at h
    · exact ih c h
    rcases hrun : (runLogged t).run e with ⟨_ | c₁, e₁⟩
    · simp only [EngineM.run_bind, hrun, Prod.mk.injEq] at h
      obtain ⟨rfl, rfl⟩ := h
      exact ⟨(runLogged_measure t hrun).1, fun h => by cases h⟩
    obtain ⟨h₁, h₁'⟩ := runLogged_measure t hrun
    simp only [EngineM.run_bind, hrun] at h
    split at h
    · simp only [EngineM.run_pure, Prod.mk.injEq] at h
      obtain ⟨rfl, rfl⟩ := h
      exact ⟨h₁, fun h => by cases h⟩
    simp only [EngineM.run_bind, EngineM.run_modify] at h
    obtain ⟨h₂, h₂'⟩ := ih _ h
    rw [setIdle_measure] at h₂ h₂'
    refine ⟨h₂.trans h₁, fun hr => ?_⟩
    rcases h₂' hr with hc | hlt
    · cases c
      · cases c₁
        · cases hc
        · exact .inr (lt_of_le_of_lt h₂ (h₁' rfl))
      · exact .inl rfl
    · exact .inr (lt_of_lt_of_le hlt h₁)

/-- **The repeat loop of a group is fuel-independent above the measure.** Run from an engine of
measure `M` with more than `M` passes allowed, the loop ends on its own: any larger allowance
gives the same answer and engine. -/
theorem runGroup_fuel (expired halting : Bool) (skip : Int) (g : Group) :
    ∀ (n m : Nat) (e : Engine), e.measure < n → e.measure < m →
      (runGroup expired halting skip g n).run e = (runGroup expired halting skip g m).run e := by
  intro n
  induction n with
  | zero => intro m e hn; omega
  | succ n ih =>
    intro m e hn hm
    obtain ⟨m, rfl⟩ : ∃ m', m = m' + 1 := ⟨m - 1, by omega⟩
    simp only [runGroup, EngineM.run_bind]
    rcases hp : (groupPass expired halting skip g.letters false).run e with ⟨_ | ending, e₁⟩
    · rfl
    obtain ⟨hle, hlt⟩ := groupPass_measure expired halting skip g.letters false hp
    cases ending with
    | done c =>
      dsimp only
      by_cases hc : (g.repeats && c) = true
      · rw [if_pos hc, if_pos hc]
        have hc' : c = true := by simp_all
        subst hc'
        have := (hlt rfl).resolve_left Bool.false_ne_true
        exact ih m e₁ (by omega) (by omega)
      · rw [if_neg hc, if_neg hc]
    | expired => rfl
    | halted => rfl

/-! ## The rounds of unit propagation -/

/-- the variables of the rows' literals -/
def varsOf (rows : List Row) : Finset Nat := ((rows.flatMap Row.ints).map Int.natAbs).toFinset

/-- the variables of the rows that a fixing leaves free -/
def freeVars (vs : Fixing) (rows : List Row) : Finset Nat :=
  (varsOf rows).filter (fun x => fixLit vs x = none)

/-- the number of distinct variables of the engine's rows -/
def varCount (e : Engine) : Nat := (varsOf e.rows).card

theorem mem_varsOf {rows : List Row} {x : Nat} :
    x ∈ varsOf rows ↔ ∃ r ∈ rows, ∃ d ∈ r.lits, (intOf d).natAbs = x := by
  simp only [varsOf, Row.ints, List.mem_toFinset, List.mem_map, List.mem_flatMap]
  constructor
  · rintro ⟨z, ⟨r, hr, d, hd, rfl⟩, rfl⟩
    exact ⟨r, hr, d, hd, rfl⟩
  · rintro ⟨r, hr, d, hd, rfl⟩
    exact ⟨intOf d, ⟨r, hr, d, hd, rfl⟩, rfl⟩

/-- What bounds the rounds still to come, besides the last: the free variables of the rows, and
the rows not yet found satisfied. -/
def roundsLeft (vs : Fixing) (rows : List Row) : Nat :=
  min (freeVars vs rows).card (rows.length - if rows.any (satisfiedBy vs) then 1 else 0)

/-- A round that fixes new literals lowers what bounds the rounds: each new literal is on a free
variable of the rows, fixed from then on, and its unit row is satisfied in the next round. -/
theorem roundsLeft_lt {vs : Fixing} {rows : List Row} {F : List Int} (hF : F ≠ [])
    (hnew : ∀ z ∈ F, z ≠ 0 ∧ fixLit vs z.natAbs = none ∧
      ∃ r ∈ rows.filterMap (keptRow vs), r.weights = none ∧ r.lits = [.int z])
    (hnd : (F.map Int.natAbs).Nodup) :
    roundsLeft (F.reverse.map fixEntry ++ vs) (rows.filterMap (keptRow vs)) < roundsLeft vs rows := by
  obtain ⟨z, hz⟩ := List.exists_mem_of_ne_nil F hF
  obtain ⟨-, hfree, r, hr, -, hl⟩ := hnew z hz
  have hfix : fixLit (F.reverse.map fixEntry ++ vs) z.natAbs = some z := fixLit_of_mem hnd hz vs
  have hvars : freeVars (F.reverse.map fixEntry ++ vs) (rows.filterMap (keptRow vs)) ⊂ freeVars vs rows := by
    refine Finset.ssubset_iff_of_subset (fun x hx => ?_) |>.2 ⟨z.natAbs, ?_, ?_⟩
    · obtain ⟨hx, hxfree⟩ := Finset.mem_filter.1 hx
      obtain ⟨r', hr', d, hd, rfl⟩ := mem_varsOf.1 hx
      obtain ⟨r₀, hr₀, hd₀⟩ := mem_lits_of_kept hr' hd
      exact Finset.mem_filter.2 ⟨mem_varsOf.2 ⟨r₀, hr₀, d, hd₀, rfl⟩, fixLit_of_append_none hxfree⟩
    · obtain ⟨r₀, hr₀, hd₀⟩ := mem_lits_of_kept hr (show Datum.int z ∈ r.lits by simp [hl])
      exact Finset.mem_filter.2 ⟨mem_varsOf.2 ⟨r₀, hr₀, _, hd₀, rfl⟩, hfree⟩
    · intro hmem
      rw [freeVars, Finset.mem_filter, hfix] at hmem
      cases hmem.2
  have hsat : (rows.filterMap (keptRow vs)).any (satisfiedBy (F.reverse.map fixEntry ++ vs)) = true := by
    refine List.any_eq_true.2 ⟨r, hr, ?_⟩
    simp only [satisfiedBy, hl, List.any_cons, List.any_nil, Bool.or_false, Session.intOf_int,
      fixedTrue, hfix, decide_true]
  have hcard := Finset.card_lt_card hvars
  have hlen := length_filterMap_keptRow vs rows
  have hpos := List.length_pos_of_mem hr
  unfold roundsLeft
  rw [if_pos hsat]
  omega

/-- **The rounds are fuel-independent.** On integer rows whose weights fit the removed weights,
propagation allowed more rounds than `roundsLeft` ends on its own: any two such allowances give
the same answer and engine. -/
theorem propagateLoop_fuel {vs : Fixing} (hvs : FixingWf vs) {e : Engine} (hwf : RowsWf e.rows e.removed)
    (c : Bool) (n m : Nat) (hn : roundsLeft vs e.rows < n) (hm : roundsLeft vs e.rows < m) :
    (propagateLoop n vs c).run e = (propagateLoop m vs c).run e := by
  induction n generalizing vs e c m with
  | zero => omega
  | succ n ih =>
    obtain ⟨m, rfl⟩ : ∃ m', m = m' + 1 := ⟨m - 1, by omega⟩
    obtain ⟨F, hnew, hnd, -, hrun⟩ := propagateLoop_succ hvs hwf c
    rw [hrun n, hrun m]
    by_cases hF : F = []
    · rw [if_pos hF, if_pos hF]
    rw [if_neg hF, if_neg hF]
    have hlt := roundsLeft_lt hF hnew hnd
    exact ih (hvs.append_map (fun z hz => (hnew z (List.mem_reverse.1 hz)).1))
      (hwf.kept vs (e.rows.filter (retiredBy vs))) _ m (by dsimp only; omega) (by dsimp only; omega)

/-- **Unit propagation ends within `V + 1` rounds.** On integer rows whose weights fit the removed
weights, with integer fixed literals, propagation from the fixed literals allowed any number of
rounds above the number of distinct variables of the rows does what unit propagation does. -/
theorem unitPropagate_rounds {e : Engine} (ht : Tabled e) (n : Nat) (hn : varCount e < n) :
    (propagateLoop n (fixingOf e.fixed) false).run e = unitPropagate.run e := by
  have hfree : (freeVars (fixingOf e.fixed) e.rows).card ≤ varCount e :=
    Finset.card_le_card (Finset.filter_subset _ _)
  rw [unitPropagate_eq ht.fixed]
  exact propagateLoop_fuel (fixingOf_wf ht.fixed) ht.rows false n _
    (lt_of_le_of_lt (min_le_left _ _) (by omega)) (lt_of_le_of_lt (min_le_right _ _) (by omega))

/-! ## Termination -/

/-- **Preprocessing terminates.** No run of a technique raises the measure of the table (its rows
and their literals), and a run that reports a change lowers it; so the repeat loop of a group
started on a table of measure `M` ends within `M + 1` passes: with any larger allowance it does
the same. On integer rows unit propagation ends within `V + 1` rounds, `V` the number of
distinct variables of the rows: with any allowance above `V` it does what unit propagation does. -/
theorem preprocessing_terminates :
    (∀ (t : String) (e e' : Engine) (r : Outcome Bool), (runTechnique t).run e = (r, e') →
      e'.measure ≤ e.measure ∧ (r = .ok true → e'.measure < e.measure)) ∧
    (∀ (expired halting : Bool) (skip : Int) (g : Group) (e : Engine) (n : Nat), e.measure + 1 ≤ n →
      (runGroup expired halting skip g n).run e = (runGroup expired halting skip g (e.measure + 1)).run e) ∧
    (∀ e : Engine, Tabled e → ∀ n : Nat, varCount e + 1 ≤ n →
      (propagateLoop n (fixingOf e.fixed) false).run e = unitPropagate.run e) :=
  ⟨fun t _ _ _ h => runTechnique_measure t h,
    fun expired halting skip g e n hn => runGroup_fuel expired halting skip g n _ e (by omega) (by omega),
    fun _ ht n hn => unitPropagate_rounds ht n (by omega)⟩

/-- On `x1 ∧ (¬x1 ∨ x2)`, of two variables and measure 5, three rounds of propagation do what
unit propagation does, and a repeating group of it is done within six passes. -/
theorem propagation_of_two_variables :
    let e : Engine :=
      { top := .int 1, inprocessing := false, finalized := true, nObj := .int 0,
        rows := [⟨[.int 1], none, false⟩, ⟨[.int (-1), .int 2], none, false⟩] }
    Tabled e ∧ varCount e + 1 ≤ 3 ∧
      (propagateLoop 3 (fixingOf e.fixed) false).run e = unitPropagate.run e ∧
      e.measure + 1 ≤ 6 ∧
      (runGroup false false 0 ⟨["u"], true⟩ 6).run e =
        (runGroup false false 0 ⟨["u"], true⟩ (e.measure + 1)).run e := by
  intro e
  have ht : Tabled e := ⟨⟨by simp [e], by simp [e], by simp [e]⟩, by simp [e]⟩
  have hv : varCount e + 1 ≤ 3 := by decide
  have hm : e.measure + 1 ≤ 6 := by decide
  exact ⟨ht, hv, preprocessing_terminates.2.2 e ht 3 hv, hm,
    preprocessing_terminates.2.1 false false 0 ⟨["u"], true⟩ e 6 hm⟩

end Engine

end MaxSatPrep
