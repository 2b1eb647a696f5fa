import MaxSatPrep.Proofs.Termination
/-!
The change flags of the techniques. Every technique reports whether it changed the formula, and
the schedule believes the report: a run is logged with its flag, a repeating group stops after a
pass whose runs all report no change, and under `skip_technique` the idle count of a technique
grows with every run that reports none.

Subsumption and blocked clause elimination report a change exactly when they remove a row. Unit
propagation reports one exactly when a row has a literal on a variable fixed before it, or it
fixes a new literal (`unitPropagate_flag`). A soft row without literals it retires all the same:
the row goes and its weights are added to the removed weight, and no change is reported. So a
run that reports no change leaves the formula as it was but for those rows (`Engine.retireBare`),
and a run that reports one leaves a table of smaller measure than a run that reports none would.

Main statement: `logged_run_flag_exact`.
-/

namespace MaxSatPrep

namespace Row

/-- a soft row without literals -/
def bare (r : Row) : Bool := r.lits.isEmpty && r.weights.isSome

end Row

namespace Engine

open Session (intOf)

/-- the engine with its soft rows without literals retired: they are dropped, and their weights
are added to the removed weight -/
def retireBare (e : Engine) : Engine :=
  { e with rows := e.rows.filter (fun r => !r.bare),
           removed := addRemoved e.removed (e.rows.filter Row.bare) }

/-- the engine that a run of a technique reporting no change leaves -/
def idleResult (t : String) (e : Engine) : Engine := if t = "u" then e.retireBare else e

theorem idleResult_rows (t : String) (e : Engine) :
    (idleResult t e).rows.length + (if t = "u" then (e.rows.filter Row.bare).length else 0) =
      e.rows.length ∧ (idleResult t e).fixed = e.fixed := by
  unfold idleResult
  by_cases hu : t = "u"
  · rw [if_pos hu, if_pos hu]
    refine ⟨?_, rfl⟩
    have hsplit := e.rows.length_eq_length_filter_add Row.bare
    simp only [retireBare]
    omega
  · rw [if_neg hu, if_neg hu]
    exact ⟨rfl, rfl⟩

/-! ## Rows without a fixed variable -/

section Untouched

variable {vs : Fixing} {r : Row}

theorem untouched_parts (h : touchedBy vs r = false) :
    satisfiedBy vs r = false ∧ Row.without vs r = r := by
  have hfree : ∀ d ∈ r.lits, fixLit vs (intOf d).natAbs = none := by
    intro d hd
    simpa [touchedBy] using List.any_eq_false.1 h d hd
  refine ⟨List.any_eq_false.2 (fun d hd => by simp [fixedTrue, hfree d hd]), ?_⟩
  simp only [Row.without]
  rw [List.filter_eq_self.2 (fun d hd => by simp [fixedFalse, hfree d hd])]

theorem keptRow_untouched (h : touchedBy vs r = false) :
    keptRow vs r = if r.bare then none else some r := by
  obtain ⟨hsat, hwo⟩ := untouched_parts h
  simp [keptRow, hsat, hwo, Row.bare]

theorem retiredBy_untouched (h : touchedBy vs r = false) : retiredBy vs r = r.bare := by
  obtain ⟨hsat, hwo⟩ := untouched_parts h
  simp [retiredBy, hsat, hwo, Row.bare]

theorem filterMap_keptRow_untouched {rows : List Row} (h : ∀ r ∈ rows, touchedBy vs r = false) :
    rows.filterMap (keptRow vs) = rows.filter (fun r => !r.bare) := by
  induction rows with
  | nil => rfl
  | cons r rs ih =>
    rw [List.filterMap_cons, keptRow_untouched (h r (by simp)), ih (fun x hx => h x (by simp [hx]))]
    cases hb : r.bare <;> simp [hb]

theorem Extends.touchedBy {vs' : Fixing} (hext : Extends vs' vs) (h : touchedBy vs r = true) :
    touchedBy vs' r = true := by
  obtain ⟨d, hd, hs⟩ := List.any_eq_true.1 h
  obtain ⟨z, hz⟩ := Option.isSome_iff_exists.1 hs
  exact List.any_eq_true.2 ⟨d, hd, by rw [hext _ _ hz]; rfl⟩

theorem keptRow_touched (hvs : FixingWf vs) (h : touchedBy vs r = true) {r' : Row}
    (hk : keptRow vs r = some r') : r'.lits.length < r.lits.length := by
  obtain ⟨rfl, hsat⟩ := keptRow_eq_some hk
  rw [touchedBy_eq hvs, hsat, Bool.false_or] at h
  simp only [Row.without]
  exact List.length_filter_lt_length_iff_exists.2 (by simpa using List.any_eq_true.1 h)

/-- The rows a sweep keeps measure no more than the rows other than soft rows without literals,
and less when some row has a literal on a fixed variable. -/
theorem keptRows_measure (hvs : FixingWf vs) (rows : List Row) :
    rowsMeasure (rows.filterMap (keptRow vs)) + (if rows.any (touchedBy vs) then 1 else 0) ≤
      rowsMeasure (rows.filter (fun r => !r.bare)) := by
  induction rows with
  | nil => simp
  | cons r rs ih =>
    have hle : rowsMeasure (rs.filterMap (keptRow vs)) ≤ rowsMeasure (rs.filter (fun r => !r.bare)) := by
      split at ih <;> omega
    rw [List.any_cons]
    cases ht : touchedBy vs r
    case false =>
      rw [List.filterMap_cons, keptRow_untouched ht, Bool.false_or]
      cases hb : r.bare
      · simp only [hb, Bool.false_eq_true, if_false, List.filter_cons_of_pos, Bool.not_false,
          rowsMeasure_cons]
        omega
      · simpa [hb] using ih
    case true =>
      have hnb : r.bare = false := by
        obtain ⟨d, hd, -⟩ := List.any_eq_true.1 ht
        simp [Row.bare, List.ne_nil_of_mem hd]
      rw [Bool.true_or, if_pos rfl, List.filterMap_cons, List.filter_cons_of_pos (by simp [hnb]),
        rowsMeasure_cons]
      cases hk : keptRow vs r with
      | none =>
        dsimp only
        omega
      | some r' =>
        have := keptRow_touched hvs ht hk
        dsimp only
        rw [rowsMeasure_cons]
        omega

end Untouched

/-! ## The flag of each technique -/

/-- **Unit propagation's flag.** On a table of integer rows unit propagation answers, and reports
a change exactly when a row has a literal on a variable fixed before it or it fixes fresh
literals `F`; these are literals of rows, on distinct variables left free before. -/
theorem unitPropagate_flag {e : Engine} (ht : Tabled e) :
    ∃ F : List Int,
      unitPropagate.run e =
        (.ok (e.rows.any (touchedBy (fixingOf e.fixed)) || !F.isEmpty),
          { e with rows := e.rows.filterMap (keptRow (F.reverse.map fixEntry ++ fixingOf e.fixed)),
                   removed := addRemoved e.removed
                     (e.rows.filter (retiredBy (F.reverse.map fixEntry ++ fixingOf e.fixed))),
                   fixed := e.fixed ++ F.map .int,
                   trace := e.trace ++ F.map (fun z => .fix (.int z)) }) ∧
      (∀ z ∈ F, z ≠ 0 ∧ fixLit (fixingOf e.fixed) z.natAbs = none) ∧ (F.map Int.natAbs).Nodup ∧
      ∀ z ∈ F, ∃ r ∈ e.rows, Datum.int z ∈ r.lits := by
  have hfuel : e.rows.length < e.rows.length + 1 +
      if e.rows.any (satisfiedBy (fixingOf e.fixed)) then 1 else 0 := by
    omega
  obtain ⟨F, c, hrun, hflag, hnew, hnd, hocc, -⟩ :=
    propagateLoop_spec _ (fixingOf_wf ht.fixed) ht.rows hfuel false
  refine ⟨F, ?_, hnew, hnd, hocc⟩
  rw [unitPropagate_eq ht.fixed, hrun, hflag, Bool.false_or]

theorem unitPropagate_quiet {e e' : Engine} (ht : Tabled e) (h : unitPropagate.run e = (.ok false, e')) :
    e' = e.retireBare := by
  obtain ⟨F, hrun, -⟩ := unitPropagate_flag ht
  rw [hrun, Prod.mk.injEq, Except.ok.injEq] at h
  obtain ⟨hc, rfl⟩ := h
  obtain ⟨huntouched, hF⟩ := Bool.or_eq_false_iff.1 hc
  -- no row has a fixed variable and no literal is fixed, so the sweep only retires bare rows
  obtain rfl : F = [] := by simpa using hF
  have hall : ∀ r ∈ e.rows, touchedBy (fixingOf e.fixed) r = false := by
    simpa using huntouched
  simp only [List.reverse_nil, List.map_nil, List.nil_append, List.append_nil,
    filterMap_keptRow_untouched hall, List.filter_congr (fun r hr => retiredBy_untouched (hall r hr)),
    retireBare]

/-- Unit propagation that reports a change leaves a table of smaller measure than retiring the
soft rows without literals would. -/
theorem unitPropagate_changed {e e' : Engine} (ht : Tabled e) (h : unitPropagate.run e = (.ok true, e')) :
    e'.measure < e.retireBare.measure := by
  obtain ⟨F, hrun, hnew, hnd, hocc⟩ := unitPropagate_flag ht
  rw [hrun, Prod.mk.injEq, Except.ok.injEq] at h
  obtain ⟨hc, rfl⟩ := h
  have hvsF : FixingWf (F.reverse.map fixEntry ++ fixingOf e.fixed) :=
    (fixingOf_wf ht.fixed).append_map (fun z hz => (hnew z (List.mem_reverse.1 hz)).1)
  have hext : Extends (F.reverse.map fixEntry ++ fixingOf e.fixed) (fixingOf e.fixed) :=
    extends_fresh (fun z hz => (hnew z (List.mem_reverse.1 hz)).2)
  have htouched : e.rows.any (touchedBy (F.reverse.map fixEntry ++ fixingOf e.fixed)) = true := by
    rcases Bool.or_eq_true_iff.1 hc with hbefore | hfresh
    · obtain ⟨r, hr, hrt⟩ := List.any_eq_true.1 hbefore
      exact List.any_eq_true.2 ⟨r, hr, hext.touchedBy hrt⟩
    · obtain ⟨z, hz⟩ := List.exists_mem_of_ne_nil F (by simpa using hfresh)
      obtain ⟨r, hr, hzr⟩ := hocc z hz
      refine List.any_eq_true.2 ⟨r, hr, List.any_eq_true.2 ⟨_, hzr, ?_⟩⟩
      rw [Session.intOf_int, fixLit_of_mem hnd hz]
      rfl
  have hm := keptRows_measure hvsF e.rows
  rw [if_pos htouched] at hm
  simp only [measure_eq, retireBare]
  omega

/-- Subsumption that reports no change leaves the engine as it was. -/
theorem subsume_quiet {e e' : Engine} (h : subsume.run e = (.ok false, e')) : e' = e := by
  simp only [subsume, EngineM.run_bind, EngineM.run_get] at h
  have hkeep := run_check_keeps e.rows (fun r => r.lits.mapM Datum.hashable) e
  rcases hc : (e.rows.forM (fun r => do let _ ← EngineM.lift (r.lits.mapM Datum.hashable); pure ())).run e
    with ⟨_ | ⟨⟩, e₁⟩
  · simp only [hc] at h
    cases h
  rw [hc] at hkeep
  obtain rfl : e = e₁ := hkeep.symm
  simp only [hc] at h
  split at h
  · simp only [EngineM.run_pure, Prod.mk.injEq] at h
    exact h.2.symm
  · simp only [EngineM.run_bind, EngineM.run_set, EngineM.run_pure, Prod.mk.injEq] at h
    cases h.1

/-- A pass of blocked clause elimination records one event for each row it gives up. -/
theorem blockedPass_length (rows : List Row) (hard : List Nat) (soft : List Datum) (is gone : List Nat)
    (events : List Event) :
    (blockedPass rows hard soft is gone events).2.1.length + gone.length =
      (blockedPass rows hard soft is gone events).1.length + events.length := by
  induction is generalizing gone events with
  | nil => simp only [blockedPass]; omega
  | cons i is ih =>
    simp only [blockedPass]
    split
    · exact ih gone events
    · split
      · simp only
        omega
      · exact ih gone events
      · rename_i r _ _ lit _
        have := ih (gone ++ [i]) (events ++ [Event.blocked r.lits lit])
        simp only [List.length_append, List.length_singleton] at this
        omega

/-- Blocked clause elimination that reports no change leaves the engine as it was. -/
theorem eliminateBlocked_quiet {e e' : Engine} (h : eliminateBlocked.run e = (.ok false, e')) : e' = e := by
  simp only [eliminateBlocked, EngineM.run_bind, EngineM.run_get] at h
  by_cases hin : e.inprocessing = true
  · rw [if_pos hin] at h
    simp only [EngineM.run_pure, Prod.mk.injEq] at h
    exact h.2.symm
  rw [if_neg hin] at h
  simp only [EngineM.run_bind, EngineM.run_lift] at h
  rcases hsoft : ((e.rows.filter (fun r => !r.hard)).flatMap Row.lits).mapM Datum.magnitude with f | soft
  · simp [hsoft] at h
  simp only [hsoft] at h
  have hkeep := run_check_keeps ((List.range e.rows.length).filter (fun i => (e.rows[i]?.map Row.hard).getD false))
    (fun i => ((e.rows[i]?.map Row.lits).getD []).mapM Datum.hashable) e
  split at h
  case h_2 f e₁ hc => simp at h
  rename_i a e₁ hc
  rw [hc] at hkeep
  obtain rfl : e = e₁ := hkeep.symm
  simp only [EngineM.run_set] at h
  have hlen := blockedPass_length e.rows ((List.range e.rows.length).filter (fun i => (e.rows[i]?.map Row.hard).getD false))
    soft ((List.range e.rows.length).filter (fun i => (e.rows[i]?.map Row.hard).getD false)) [] []
  generalize blockedPass e.rows ((List.range e.rows.length).filter (fun i => (e.rows[i]?.map Row.hard).getD false))
    soft ((List.range e.rows.length).filter (fun i => (e.rows[i]?.map Row.hard).getD false)) [] [] = p at h hlen
  obtain ⟨gone, events, _ | f⟩ := p
  case some => simp at h
  dsimp only at h hlen
  split at h
  · rename_i hg
    simp only [EngineM.run_pure, Prod.mk.injEq] at h
    obtain rfl : events = [] := by
      rw [List.isEmpty_iff.1 hg] at hlen
      simpa using hlen
    rw [← h.2, List.append_nil]
  · simp only [EngineM.run_bind, EngineM.run_modify, EngineM.run_pure, Prod.mk.injEq] at h
    cases h.1

section Technique

variable {e e' : Engine} (ht : Tabled e) (t : String)
include ht

/-- A technique that reports no change leaves what `idleResult` leaves. -/
theorem runTechnique_quiet (h : (runTechnique t).run e = (.ok false, e')) : e' = idleResult t e := by
  unfold runTechnique at h
  unfold idleResult
  by_cases hu : t = "u"
  · rw [if_pos (by simp [hu])] at h
    rw [if_pos hu]
    exact unitPropagate_quiet ht h
  rw [if_neg (by simpa using hu)] at h
  rw [if_neg hu]
  split at h
  · exact subsume_quiet h
  split at h
  · exact eliminateBlocked_quiet h
  · simp only [EngineM.run_pure, Prod.mk.injEq] at h
    exact h.2.symm

theorem runTechnique_changed (h : (runTechnique t).run e = (.ok true, e')) :
    e'.measure < (idleResult t e).measure := by
  unfold idleResult
  split
  · rename_i hu
    subst hu
    exact unitPropagate_changed ht h
  · exact (runTechnique_measure t h).2 rfl

theorem runTechnique_answers : ∃ c e₁, (runTechnique t).run e = (.ok c, e₁) := by
  rcases runTechnique_cases t with hr | hr | hr | hr <;> rw [hr]
  · obtain ⟨F, c, h, -⟩ := unitPropagate_spec ht.fixed ht.rows
    exact ⟨c, _, h⟩
  · obtain ⟨c, gone, h, -⟩ := subsume_spec ht.rows.lits
    exact ⟨c, _, h⟩
  · obtain ⟨c, gone, events, h, -⟩ := eliminateBlocked_spec ht.rows.lits
    exact ⟨c, _, h⟩
  · exact ⟨false, e, rfl⟩

end Technique

theorem runLogged_run {t : String} {e e₁ : Engine} {c : Bool} (h : (runTechnique t).run e = (.ok c, e₁)) :
    (runLogged t).run e =
      (.ok c, { e₁ with log := e₁.log ++ [⟨t, c, e.rows.length, e₁.rows.length, e₁.fixed.length⟩] }) := by
  simp only [runLogged, EngineM.run_bind, EngineM.run_get, h, EngineM.run_set, EngineM.run_pure]

/-- **The change flags are exact, but for soft rows without literals.** On a table of integer
rows, a logged run of any technique answers. It reports no change exactly when it leaves what
`idleResult` leaves (the table as it was, but for the soft rows without literals that unit
propagation retires), and a run that reports a change leaves a table of smaller measure than
that. So the record of a run that reports no change counts as rows after the rows before less
the soft rows without literals, under unit propagation, and keeps the fixed literals. -/
theorem logged_run_flag_exact {e : Engine} (ht : Tabled e) (t : String) :
    ∃ (c : Bool) (e₁ : Engine), (runTechnique t).run e = (.ok c, e₁) ∧
      (runLogged t).run e =
        (.ok c, { e₁ with log := e₁.log ++ [⟨t, c, e.rows.length, e₁.rows.length, e₁.fixed.length⟩] }) ∧
      (c = false ↔ e₁ = idleResult t e) ∧ (c = true → e₁.measure < (idleResult t e).measure) ∧
      (c = false → e₁.rows.length + (if t = "u" then (e.rows.filter Row.bare).length else 0) =
        e.rows.length ∧ e₁.fixed = e.fixed) := by
  obtain ⟨c, e₁, hrun⟩ := runTechnique_answers ht t
  refine ⟨c, e₁, hrun, runLogged_run hrun, ?_, ?_, ?_⟩
  · constructor
    · rintro rfl
      exact runTechnique_quiet ht t hrun
    · intro hidle
      cases c
      · rfl
      · have hlt := runTechnique_changed ht t hrun
        rw [hidle] at hlt
        exact absurd hlt (lt_irrefl _)
  · rintro rfl
    exact runTechnique_changed ht t hrun
  · rintro rfl
    rw [runTechnique_quiet ht t hrun]
    exact idleResult_rows t e

/-- A table of a hard row `x1 ∨ x2` and a soft row without literals, on which the logged run of
unit propagation answers as the general statement says. -/
theorem logged_run_on_bare_row :
    let e : Engine :=
      { top := .int 2, inprocessing := false, finalized := true, nObj := .int 1, removed := [.int 0],
        rows := [⟨[.int 1, .int 2], none, false⟩, ⟨[], some [.int 1], false⟩] }
    Tabled e ∧ ∃ (c : Bool) (e₁ : Engine), (runTechnique "u").run e = (.ok c, e₁) ∧
      (runLogged "u").run e =
        (.ok c, { e₁ with log := e₁.log ++ [⟨"u", c, e.rows.length, e₁.rows.length, e₁.fixed.length⟩] }) ∧
      (c = false ↔ e₁ = idleResult "u" e) ∧ (c = true → e₁.measure < (idleResult "u" e).measure) ∧
      (c = false → e₁.rows.length + (if "u" = "u" then (e.rows.filter Row.bare).length else 0) =
        e.rows.length ∧ e₁.fixed = e.fixed) := by
  intro e
  have ht : Tabled e := ⟨⟨by simp [e], by simp [e], by simp [e]⟩, by simp [e]⟩
  exact ⟨ht, logged_run_flag_exact ht "u"⟩

/-- Unit propagation does not report retiring a soft clause without literals. On the hard clause
`x1 ∨ x2` and an empty soft clause of weight 1, it drops the soft clause and adds its weight to
the removed weight, yet logs the run as one without change, with two clauses before and one
after. -/
theorem empty_soft_clause_retired_unreported :
    ∃ s, Session.openWith .reference {} [[⟨1, false, by decide⟩, ⟨2, false, by decide⟩]] [[([], 1)]]
        false none = .ok s ∧
      (s.preprocess (some (.str "u")) none none false).2.isNone = true ∧
      (s.preprocess (some (.str "u")) none none false).1.printTechniqueLog =
        .ok ["c u changed=0 2->1 fixed=0 *s"] ∧
      (s.preprocess (some (.str "u")) none none false).1.nPreproClauses = .ok 1 ∧
      (s.preprocess (some (.str "u")) none none false).1.removedWeight = .ok [1] := by
  have hview : (Session.openWith .reference {} [[⟨1, false, by decide⟩, ⟨2, false, by decide⟩]]
      [[([], 1)]] false none).toOption.map (fun s =>
        ((s.preprocess (some (.str "u")) none none false).2.isNone,
          (s.preprocess (some (.str "u")) none none false).1.printTechniqueLog.toOption,
          (s.preprocess (some (.str "u")) none none false).1.nPreproClauses.toOption,
          (s.preprocess (some (.str "u")) none none false).1.removedWeight.toOption)) =
      some (true, some ["c u changed=0 2->1 fixed=0 *s"], some 1, some [1]) := by
    decide +kernel
  obtain ⟨s, hO, hs⟩ := Outcome.exists_of_toOption_map hview
  simp only [Prod.mk.injEq] at hs
  obtain ⟨hok, hlog, hafter, hremoved⟩ := hs
  exact ⟨s, hO, hok, Outcome.eq_ok_of_toOption hlog, Outcome.eq_ok_of_toOption hafter,
    Outcome.eq_ok_of_toOption hremoved⟩

end Engine

end MaxSatPrep
