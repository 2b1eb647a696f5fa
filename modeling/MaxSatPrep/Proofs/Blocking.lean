import MaxSatPrep.Proofs.Subsumption
import MaxSatPrep.Proofs.Replay
/-!
Blocked clause elimination on integer rows. A hard row `c` is blocked on its literal `b` when
every other hard row with the negation of `b` also has the negation of another literal of `c`:
then a valuation that satisfies the other rows but not `c` satisfies all of them, `c` included,
once `b` is made true (`replayEvent_blocked`), which is what reconstruction does with the event
the elimination records.

Main statement, `eliminateBlocked_spec`: on integer rows the elimination does not fail; it drops
hard rows only, records one event for each, on a blocking variable that no soft row mentions,
and replaying these events on any valuation that satisfies the hard rows left gives one that
satisfies every hard row there was.
-/

namespace MaxSatPrep

namespace Engine

open Session (intOf)

/-! ## The flip -/

/-- **The flip.** If every clause of a family with the negation of `b` has the negation of
another literal of `c`, a valuation satisfying the family satisfies it and `c` once the
elimination of `c` on `b` is replayed on it. -/
theorem replayEvent_blocked {c : List Datum} {b : Datum} (hc : ∀ d ∈ c, IsLit d) (hb : b ∈ c)
    {P : List Int → Prop}
    (hblk : ∀ D, P D → -intOf b ∈ D → ∃ m ∈ c.map intOf, m ≠ intOf b ∧ -m ∈ D)
    {σ : Valuation} (hσ : ∀ D, P D → σ.clause D) :
    (σ.replayEvent (.blocked c b)).clause (c.map intOf) ∧
      ∀ D, P D → (σ.replayEvent (.blocked c b)).clause D := by
  by_cases hsat : σ.clause (c.map intOf)
  · simp only [Valuation.replayEvent, if_pos hsat]
    exact ⟨hsat, hσ⟩
  simp only [Valuation.replayEvent, if_neg hsat]
  have hb0 : intOf b ≠ 0 := (hc b hb).ne_zero
  refine ⟨⟨intOf b, List.mem_map_of_mem hb, Valuation.lit_setLit_self σ _⟩, fun D hD => ?_⟩
  obtain ⟨w, hw, hlw⟩ := hσ D hD
  by_cases hvar : w.natAbs = (intOf b).natAbs
  case neg => exact ⟨w, hw, (Valuation.lit_setLit_of_ne hvar).2 hlw⟩
  -- `D` has `b` itself, or its negation and then the negation of another literal of `c`
  rcases Int.natAbs_eq_natAbs_iff.1 hvar with rfl | rfl
  · exact ⟨intOf b, hw, Valuation.lit_setLit_self σ _⟩
  obtain ⟨m, hm, hmb, hneg⟩ := hblk D hD hw
  obtain ⟨dm, hdm, rfl⟩ := List.mem_map.1 hm
  have hm0 : intOf dm ≠ 0 := (hc dm hdm).ne_zero
  have hmvar : (intOf dm).natAbs ≠ (intOf b).natAbs := by
    intro heq
    rcases Int.natAbs_eq_natAbs_iff.1 heq with h | h
    · exact hmb h
    · apply hsat
      by_cases hbt : σ.lit (intOf b)
      · exact ⟨intOf b, List.mem_map_of_mem hb, hbt⟩
      · exact ⟨intOf dm, List.mem_map_of_mem hdm, h ▸ (Valuation.lit_neg hb0).2 hbt⟩
  refine ⟨-intOf dm, hneg, ?_⟩
  rw [Valuation.lit_setLit_of_ne (by rwa [Int.natAbs_neg])]
  exact (Valuation.lit_neg hm0).2 (fun h => hsat ⟨intOf dm, hm, h⟩)

/-! ## Blockedness as the engine checks it -/

/-- The row `c` is blocked on `b` among the hard positions other than `i` and those gone:
every such row with the negation of `b` has the negation of another literal of `c`. -/
def BlockedAt (rows : List Row) (hard gone : List Nat) (i : Nat) (c : List Int) (b : Int) : Prop :=
  ∀ j ∈ hard, j ≠ i → j ∉ gone → ∀ other, rows[j]? = some other → -b ∈ other.ints →
    ∃ m ∈ c, m ≠ b ∧ -m ∈ other.ints

theorem tautologicalResolvent_int {row : List Datum} (hrow : ∀ d ∈ row, IsLit d) {other : Row}
    (hother : ∀ d ∈ other.lits, IsLit d) (b : Int) :
    tautologicalResolvent row (.int b) other.lits =
      .ok (row.any (fun m => !decide (intOf m = b) && decide (-intOf m ∈ other.ints))) := by
  refine Outcome.anyM_ok (fun m hm => ?_)
  obtain ⟨z, -, rfl⟩ := hrow m hm
  by_cases hzb : z = b
  · subst hzb
    simp [pure, Except.pure]
  · simp [hzb, memberOf_lits hother, bind, Except.bind, pure, Except.pure]

theorem blockedOn_int {rows : List Row} (hrows : ∀ r ∈ rows, ∀ d ∈ r.lits, IsLit d)
    {row : List Datum} (hrow : ∀ d ∈ row, IsLit d) (hard gone : List Nat) (i : Nat) (b : Int) :
    ∃ v, blockedOn rows hard gone i row (.int b) = .ok v ∧
      (v = true → BlockedAt rows hard gone i (row.map intOf) b) := by
  let q : Nat → Bool := fun j =>
    j == i || gone.contains j || (rows[j]?).all (fun other => !decide (-b ∈ other.ints) ||
      row.any (fun m => !decide (intOf m = b) && decide (-intOf m ∈ other.ints)))
  refine ⟨hard.all q, ?_, fun hall j hj hji hjg other hget hneg => ?_⟩
  · unfold blockedOn
    apply Outcome.allM_ok
    intro j _
    by_cases hji : (j == i || gone.contains j) = true
    · rw [if_pos hji]
      simp only [q, hji, Bool.true_or]
      rfl
    · simp only [Bool.not_eq_true] at hji
      simp only [q, hji, Bool.false_eq_true, if_false, Bool.false_or]
      cases hget : rows[j]? with
      | none => rfl
      | some other =>
        have hother := hrows other (List.mem_of_getElem? hget)
        by_cases hneg : -b ∈ other.ints
        · simp [memberOf_lits hother, hneg, tautologicalResolvent_int hrow hother, bind, Except.bind,
            -Row.mem_ints]
        · simp [memberOf_lits hother, hneg, bind, Except.bind, pure, Except.pure, -Row.mem_ints]
  have hqj : q j = true := List.all_eq_true.1 hall j hj
  have hji' : (j == i || gone.contains j) = false := by simp [hji, hjg]
  simp only [q, hji', Bool.false_or, hget, Option.all_some, decide_eq_true hneg, Bool.not_true] at hqj
  obtain ⟨m, hm, hmq⟩ := List.any_eq_true.1 hqj
  simp only [Bool.and_eq_true, Bool.not_eq_eq_eq_not, Bool.not_true, decide_eq_false_iff_not,
    decide_eq_true_eq] at hmq
  exact ⟨intOf m, List.mem_map_of_mem hm, hmq.1, hmq.2⟩

theorem firstBlocking_int {rows : List Row} (hrows : ∀ r ∈ rows, ∀ d ∈ r.lits, IsLit d)
    {row : List Datum} (hrow : ∀ d ∈ row, IsLit d) {soft : List Datum}
    (hsoft : ∀ d ∈ soft, ∃ k : Int, d = .int k) (hard gone : List Nat) (i : Nat) {lits : List Datum}
    (hlits : ∀ d ∈ lits, IsLit d) :
    ∃ o, firstBlocking rows hard gone i row soft lits = .ok o ∧
      ∀ lit, o = some lit → lit ∈ lits ∧ ((intOf lit).natAbs : Int) ∉ soft.map intOf ∧
        BlockedAt rows hard gone i (row.map intOf) (intOf lit) := by
  have hsoft' : (soft.map intOf).map Datum.int = soft := by
    rw [List.map_map]
    conv => rhs; rw [← List.map_id soft]
    exact List.map_congr_left (fun d hd => by obtain ⟨k, rfl⟩ := hsoft d hd; rfl)
  induction lits with
  | nil => exact ⟨none, rfl, by simp⟩
  | cons lit lits ih =>
    obtain ⟨o, ho, hspec⟩ := ih (fun d hd => hlits d (by simp [hd]))
    have hnext : ∀ lit', o = some lit' → lit' ∈ lit :: lits ∧ ((intOf lit').natAbs : Int) ∉ soft.map intOf ∧
        BlockedAt rows hard gone i (row.map intOf) (intOf lit') := fun lit' h =>
      let ⟨h1, h2, h3⟩ := hspec lit' h
      ⟨List.mem_cons_of_mem _ h1, h2, h3⟩
    obtain ⟨z, -, rfl⟩ := hlits lit (by simp)
    have hmem : Datum.memberOf (.int z.natAbs) soft = decide ((z.natAbs : Int) ∈ soft.map intOf) := by
      conv => lhs; rw [← hsoft']
      exact Datum.memberOf_ints _ _
    obtain ⟨v, hv, hvb⟩ := blockedOn_int hrows hrow hard gone i z
    by_cases hs : (z.natAbs : Int) ∈ soft.map intOf
    · refine ⟨o, ?_, hnext⟩
      simp only [firstBlocking, Datum.magnitude_int, bind, Except.bind, hmem, decide_eq_true hs,
        ↓reduceIte, ho]
    · have hs' := decide_eq_false hs
      cases v with
      | true =>
        refine ⟨some (.int z), ?_, ?_⟩
        · simp only [firstBlocking, Datum.magnitude_int, bind, Except.bind, hmem, hs', hv,
            Bool.false_eq_true, ↓reduceIte]
          rfl
        · rintro lit' ⟨⟩
          exact ⟨by simp, hs, hvb rfl⟩
      | false =>
        refine ⟨o, ?_, hnext⟩
        simp only [firstBlocking, Datum.magnitude_int, bind, Except.bind, hmem, hs', hv,
          Bool.false_eq_true, ↓reduceIte, ho]

/-! ## The pass over the hard rows -/

/-- What a pass has established so far: the positions gone are hard, each event records a row
eliminated on a literal whose variable no soft row mentions, and replaying the events on a
valuation that satisfies the hard rows not gone satisfies every hard row. -/
structure PassInv (rows : List Row) (hard : List Nat) (softVars : List Int) (gone : List Nat)
    (events : List Event) : Prop where
  gone_hard : ∀ j ∈ gone, j ∈ hard
  events_blocked : ∀ ev ∈ events, ∃ c b, ev = .blocked c b ∧ (∀ d ∈ c, IsLit d) ∧ IsLit b ∧
    ((intOf b).natAbs : Int) ∉ softVars
  restores : ∀ α : Valuation, (∀ j ∈ hard, j ∉ gone → ∀ r, rows[j]? = some r → α.clause r.ints) →
    ∀ j ∈ hard, ∀ r, rows[j]? = some r → (α.replay events).clause r.ints

theorem passInv_nil (rows : List Row) (hard : List Nat) (softVars : List Int) :
    PassInv rows hard softVars [] [] :=
  ⟨by simp, by simp, fun α hα j hj r hr => hα j hj (by simp) r hr⟩

/-- Eliminating the row at `i` on a literal that blocks it keeps the invariant: its event,
replayed first, restores the row from the rows still present. -/
theorem PassInv.eliminate {rows : List Row} (hrows : ∀ r ∈ rows, ∀ d ∈ r.lits, IsLit d)
    {hard : List Nat} {softVars : List Int} {gone : List Nat} {events : List Event}
    (h : PassInv rows hard softVars gone events) {i : Nat} (hi : i ∈ hard) {r : Row}
    (hget : rows[i]? = some r) {lit : Datum} (hlit : lit ∈ r.lits)
    (hfree : ((intOf lit).natAbs : Int) ∉ softVars)
    (hblk : BlockedAt rows hard gone i r.ints (intOf lit)) :
    PassInv rows hard softVars (gone ++ [i]) (events ++ [.blocked r.lits lit]) := by
  have hr := hrows r (List.mem_of_getElem? hget)
  refine ⟨fun j hj => ?_, fun ev hev => ?_, fun α hα => ?_⟩
  · rcases List.mem_append.1 hj with hj | hj
    · exact h.gone_hard j hj
    · rw [List.mem_singleton.1 hj]
      exact hi
  · rcases List.mem_append.1 hev with hev | hev
    · exact h.events_blocked ev hev
    · exact ⟨r.lits, lit, List.mem_singleton.1 hev, hr, hr lit hlit, hfree⟩
  have hfam : ∀ D, (∃ j ∈ hard, j ≠ i ∧ j ∉ gone ∧ ∃ r', rows[j]? = some r' ∧ D = r'.ints) →
      α.clause D := by
    rintro D ⟨j, hj, hji, hjg, r', hr', rfl⟩
    exact hα j hj (by simp [hjg, hji]) r' hr'
  have hblk' : ∀ D, (∃ j ∈ hard, j ≠ i ∧ j ∉ gone ∧ ∃ r', rows[j]? = some r' ∧ D = r'.ints) →
      -intOf lit ∈ D → ∃ m ∈ r.lits.map intOf, m ≠ intOf lit ∧ -m ∈ D := by
    rintro D ⟨j, hj, hji, hjg, r', hr', rfl⟩ hneg
    exact hblk j hj hji hjg r' hr' hneg
  obtain ⟨hself, hothers⟩ := replayEvent_blocked hr hlit hblk' hfam
  rw [Valuation.replay_concat]
  refine h.restores _ (fun j hj hjg r' hr' => ?_)
  by_cases hji : j = i
  · subst hji
    rw [hget] at hr'
    cases hr'
    exact hself
  · exact hothers _ ⟨j, hj, hji, hjg, r', hr', rfl⟩

theorem blockedPass_spec {rows : List Row} (hrows : ∀ r ∈ rows, ∀ d ∈ r.lits, IsLit d)
    {hard : List Nat} {soft : List Datum} (hsoft : ∀ d ∈ soft, ∃ k : Int, d = .int k)
    {is : List Nat} (hnd : is.Nodup) (his : ∀ i ∈ is, i ∈ hard) {gone : List Nat}
    {events : List Event} (hfresh : ∀ j ∈ gone, j ∉ is)
    (h : PassInv rows hard (soft.map intOf) gone events) :
    ∃ gone' events', blockedPass rows hard soft is gone events = (gone', events', none) ∧
      PassInv rows hard (soft.map intOf) gone' events' := by
  induction is generalizing gone events with
  | nil => exact ⟨gone, events, rfl, h⟩
  | cons i is ih =>
    have hnd' := (List.nodup_cons.1 hnd).2
    have his' : ∀ x ∈ is, x ∈ hard := fun x hx => his x (by simp [hx])
    have hfresh' : ∀ j ∈ gone, j ∉ is := fun j hj hmem => hfresh j hj (by simp [hmem])
    cases hget : rows[i]? with
    | none =>
      simp only [blockedPass, hget]
      exact ih hnd' his' hfresh' h
    | some r =>
      have hr := hrows r (List.mem_of_getElem? hget)
      obtain ⟨o, ho, hspec⟩ := firstBlocking_int hrows hr hsoft hard gone i hr
      cases o with
      | none =>
        simp only [blockedPass, hget, ho]
        exact ih hnd' his' hfresh' h
      | some lit =>
        obtain ⟨hlit, hfree, hblk⟩ := hspec lit rfl
        simp only [blockedPass, hget, ho]
        refine ih hnd' his' (fun j hj hmem => ?_) (h.eliminate hrows (his i (by simp)) hget hlit hfree hblk)
        rcases List.mem_append.1 hj with hj | hj
        · exact hfresh' j hj hmem
        · rw [List.mem_singleton.1 hj] at hmem
          exact (List.nodup_cons.1 hnd).1 hmem

/-! ## The elimination -/

/-- the magnitudes of the literals of the soft rows, as the elimination reads them on integer
rows -/
def softMagnitudes (rows : List Row) : List Datum :=
  ((rows.filter (fun r => !r.hard)).flatMap Row.lits).map (fun d => Datum.int (intOf d).natAbs)

/-- the positions the elimination drops and the events it records, on integer rows -/
def blockedOut (rows : List Row) : List Nat × List Event :=
  ((blockedPass rows (hardPositions rows) (softMagnitudes rows) (hardPositions rows) [] []).1,
    (blockedPass rows (hardPositions rows) (softMagnitudes rows) (hardPositions rows) [] []).2.1)

theorem blockedPass_ok {rows : List Row} (hlits : ∀ r ∈ rows, ∀ d ∈ r.lits, IsLit d) :
    blockedPass rows (hardPositions rows) (softMagnitudes rows) (hardPositions rows) [] [] =
        ((blockedOut rows).1, (blockedOut rows).2, none) ∧
      PassInv rows (hardPositions rows) ((softMagnitudes rows).map intOf) (blockedOut rows).1
        (blockedOut rows).2 := by
  have hsoftInts : ∀ d ∈ softMagnitudes rows, ∃ k : Int, d = .int k := by
    intro d hd
    obtain ⟨x, -, rfl⟩ := List.mem_map.1 hd
    exact ⟨_, rfl⟩
  have hnd : (hardPositions rows).Nodup := List.nodup_range.filter _
  obtain ⟨gone, events, hpass, hinv⟩ := blockedPass_spec hlits hsoftInts hnd (fun i hi => hi)
    (by simp) (passInv_nil rows (hardPositions rows) _)
  simp only [blockedOut, hpass]
  exact ⟨trivial, hinv⟩

/-- On integer rows the elimination drops the positions `blockedOut` finds, records its events
and reports whether it dropped a row; an inprocessing engine changes nothing. -/
theorem eliminateBlocked_run {e : Engine} (hlits : ∀ r ∈ e.rows, ∀ d ∈ r.lits, IsLit d) :
    eliminateBlocked.run e = if e.inprocessing = true then (.ok false, e) else
      (.ok !(blockedOut e.rows).1.isEmpty,
        { e with rows := dropAt e.rows (blockedOut e.rows).1, trace := e.trace ++ (blockedOut e.rows).2 }) := by
  simp only [eliminateBlocked, EngineM.run_bind, EngineM.run_get]
  split
  · simp only [EngineM.run_pure]
  have hsoft : ((e.rows.filter (fun r => !r.hard)).flatMap Row.lits).mapM Datum.magnitude =
      .ok (softMagnitudes e.rows) := by
    refine Outcome.mapM_ok (fun d hd => ?_)
    obtain ⟨r, hr, hd⟩ := List.mem_flatMap.1 hd
    obtain ⟨z, -, rfl⟩ := hlits r (List.mem_of_mem_filter hr) d hd
    rfl
  have hcheck : ((hardPositions e.rows).forM (fun i => do
      let _ ← EngineM.lift (((e.rows[i]?.map Row.lits).getD []).mapM Datum.hashable)
      pure ())).run e = (.ok ⟨⟩, e) := by
    refine EngineM.run_forM_ok (fun i _ e' => ?_)
    have hhash : ∀ d ∈ (e.rows[i]?.map Row.lits).getD [], Datum.hashable d = .ok d := by
      intro d hd
      cases hget : e.rows[i]? with
      | none => simp [hget] at hd
      | some r =>
        simp only [hget, Option.map_some, Option.getD_some] at hd
        rw [(hlits r (List.mem_of_getElem? hget) d hd).eq]
        rfl
    rw [Outcome.mapM_ok hhash]
    rfl
  have hpass := (blockedPass_ok hlits).1
  simp only [hardPositions] at hcheck hpass
  simp only [EngineM.run_bind, EngineM.run_lift, hsoft, hcheck, hpass, EngineM.run_set]
  cases hg : (blockedOut e.rows).1.isEmpty
  · simp only [Bool.false_eq_true, if_false, EngineM.run_bind, EngineM.run_modify,
      EngineM.run_pure, Bool.not_false]
    rfl
  · rw [List.isEmpty_iff.1 hg]
    simp only [if_true, EngineM.run_pure, dropAt_nil, Bool.not_true]

/-- **Blocked clause elimination.** On integer rows the elimination does not fail. It drops hard
rows only, and records for them events eliminating a row on a literal whose variable no soft row
mentions; replaying the events on a valuation that satisfies the hard rows left satisfies every
hard row there was. An inprocessing engine changes nothing. -/
theorem eliminateBlocked_spec {e : Engine} (hlits : ∀ r ∈ e.rows, ∀ d ∈ r.lits, IsLit d) :
    ∃ (c : Bool) (gone : List Nat) (events : List Event),
      eliminateBlocked.run e =
        (.ok c, { e with rows := dropAt e.rows gone, trace := e.trace ++ events }) ∧
      (∀ j ∈ gone, ∀ r, e.rows[j]? = some r → r.weights = none) ∧
      (∀ ev ∈ events, ∃ c b, ev = .blocked c b ∧ (∀ d ∈ c, IsLit d) ∧ IsLit b ∧
        ∀ r ∈ e.rows, r.weights ≠ none → ∀ d ∈ r.lits, (intOf d).natAbs ≠ (intOf b).natAbs) ∧
      ∀ α : Valuation, (∀ r ∈ dropAt e.rows gone, r.weights = none → α.clause r.ints) →
        ∀ r ∈ e.rows, r.weights = none → (α.replay events).clause r.ints := by
  by_cases hin : e.inprocessing = true
  case pos =>
    refine ⟨false, [], [], ?_, by simp, by simp, fun α hα => by simpa using hα⟩
    rw [eliminateBlocked_run hlits, if_pos hin]
    simp only [dropAt_nil, List.append_nil]
  obtain ⟨-, hinv⟩ := blockedPass_ok hlits
  refine ⟨_, (blockedOut e.rows).1, (blockedOut e.rows).2, by rw [eliminateBlocked_run hlits, if_neg hin],
    ?_, ?_, ?_⟩
  · intro j hj r hr
    obtain ⟨r', hr', hw⟩ := mem_hardPositions.1 (hinv.gone_hard j hj)
    rw [hr] at hr'
    cases hr'
    exact hw
  · intro ev hev
    obtain ⟨c, b, rfl, hc, hb, hfree⟩ := hinv.events_blocked ev hev
    refine ⟨c, b, rfl, hc, hb, fun r hr hw d hd heq => hfree ?_⟩
    have hsoftRow : r ∈ e.rows.filter (fun r => !r.hard) :=
      List.mem_filter.2 ⟨hr, by cases h : r.weights <;> simp_all [Row.hard]⟩
    simp only [softMagnitudes, List.map_map]
    exact List.mem_map.2 ⟨d, List.mem_flatMap.2 ⟨r, hsoftRow, hd⟩,
      by simp only [Function.comp, Session.intOf_int, heq]⟩
  · intro α hα r hr hw
    obtain ⟨j, hj, hget⟩ := List.getElem_of_mem hr
    have hget' : e.rows[j]? = some r := by rw [List.getElem?_eq_getElem hj, hget]
    refine hinv.restores α (fun i hi hig r' hr' => ?_) j (mem_hardPositions.2 ⟨r, hget', hw⟩) r hget'
    obtain ⟨r'', hr'', hw'⟩ := mem_hardPositions.1 hi
    rw [hr'] at hr''
    cases hr''
    exact hα r' (mem_dropAt hr' hig) hw'

end Engine

end MaxSatPrep
