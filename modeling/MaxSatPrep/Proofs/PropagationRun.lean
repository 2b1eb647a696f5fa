import MaxSatPrep.Proofs.Propagation
/-!
The whole unit propagation. Passes repeat while new units are found; each pass after the first
drops the unit rows the previous one fixed, so the fuel the engine gives (the number of rows plus
one) is never used up before the fixpoint.

Main statement, `propagateLoop_spec`: on integer rows the propagation does not fail; it fixes a
list of fresh literals, each forced by the hard rows and the literals fixed before, on distinct
free variables; the rows left are those `keptRow` keeps under the final fixing, and the removed
weights grow by the weights of the rows it retires (`addRemoved`).
-/

namespace MaxSatPrep

open Session (intOf)

/-- the weight of a row in objective `i`, zero past its weights -/
def Row.weightAt (r : Row) (i : Nat) : Int := intOf ((r.weights.getD []).getD i (.int 0))

namespace Engine

/-! ## Removed weight -/

/-- the total weight of rows in objective `i` -/
def weightSum (rows : List Row) (i : Nat) : Int := (rows.map (fun r => r.weightAt i)).sum

/-- the removed weights with the weights of some rows added, objective by objective -/
def addRemoved (removed : List Datum) (rows : List Row) : List Datum :=
  removed.mapIdx (fun i d => .int (intOf d + weightSum rows i))

@[simp] theorem weightSum_nil (i : Nat) : weightSum [] i = 0 := rfl

@[simp] theorem weightSum_cons (r : Row) (rows : List Row) (i : Nat) :
    weightSum (r :: rows) i = r.weightAt i + weightSum rows i := by
  simp [weightSum]

@[simp] theorem weightSum_append (a b : List Row) (i : Nat) :
    weightSum (a ++ b) i = weightSum a i + weightSum b i := by
  simp [weightSum]

@[simp] theorem length_addRemoved (removed : List Datum) (rows : List Row) :
    (addRemoved removed rows).length = removed.length := by
  simp [addRemoved]

theorem mapIdx_add_zero {rem : List Datum} (hrem : ∀ d ∈ rem, ∃ k : Int, d = .int k)
    {f : Nat → Int} (hf : ∀ i, f i = 0) : rem.mapIdx (fun i d => .int (intOf d + f i)) = rem := by
  induction rem generalizing f with
  | nil => rfl
  | cons d ds ih =>
    obtain ⟨k, rfl⟩ := hrem d (by simp)
    simp only [List.mapIdx_cons, hf 0, Session.intOf_int, add_zero, List.cons.injEq, true_and]
    exact ih (fun x hx => hrem x (by simp [hx])) (fun i => hf (i + 1))

theorem addRemoved_nil {removed : List Datum} (h : ∀ d ∈ removed, ∃ k : Int, d = .int k) :
    addRemoved removed [] = removed :=
  mapIdx_add_zero h (fun i => weightSum_nil i)

theorem addRemoved_addRemoved (removed : List Datum) (a b : List Row) :
    addRemoved (addRemoved removed a) b = addRemoved removed (a ++ b) := by
  simp only [addRemoved, List.mapIdx_mapIdx, weightSum_append]
  congr 1
  funext i d
  simp [Function.comp, add_assoc]

theorem addRemoved_ints (removed : List Datum) (rows : List Row) :
    ∀ d ∈ addRemoved removed rows, ∃ k : Int, d = .int k := by
  intro d hd
  obtain ⟨i, -, rfl⟩ := List.exists_of_mem_mapIdx hd
  exact ⟨_, rfl⟩

theorem retireInto_eq_mapIdx {rem ws : List Datum} (hrem : ∀ d ∈ rem, ∃ k : Int, d = .int k)
    (hlen : ws.length ≤ rem.length) :
    retireInto rem ws = rem.mapIdx (fun i d => .int (intOf d + intOf (ws.getD i (.int 0)))) := by
  induction rem generalizing ws with
  | nil => cases ws <;> simp [retireInto] at hlen ⊢
  | cons d rem ih =>
    cases ws with
    | nil =>
      rw [mapIdx_add_zero hrem (fun i => by simp)]
      rfl
    | cons w ws =>
      obtain ⟨k, rfl⟩ := hrem d (by simp)
      simp only [retireInto, List.mapIdx_cons, List.getD_cons_zero, List.getD_cons_succ]
      rw [ih (fun x hx => hrem x (by simp [hx])) (by simpa using hlen)]

theorem retireInto_eq_addRemoved {rem : List Datum} {r : Row}
    (hrem : ∀ d ∈ rem, ∃ k : Int, d = .int k) (hlen : (r.weights.getD []).length ≤ rem.length) :
    retireInto rem (r.weights.getD []) = addRemoved rem [r] := by
  rw [retireInto_eq_mapIdx hrem hlen]
  simp [addRemoved, Row.weightAt]

theorem addRemoved_congr (removed : List Datum) {a b : List Row} (h : ∀ i, weightSum a i = weightSum b i) :
    addRemoved removed a = addRemoved removed b := by
  simp only [addRemoved, h]

theorem foldl_retireInto {rows : List Row} {removed : List Datum}
    (hrem : ∀ d ∈ removed, ∃ k : Int, d = .int k)
    (hlen : ∀ r ∈ rows, (r.weights.getD []).length ≤ removed.length) :
    rows.foldl (fun rem r => retireInto rem (r.weights.getD [])) removed = addRemoved removed rows := by
  induction rows generalizing removed with
  | nil => exact (addRemoved_nil hrem).symm
  | cons r rs ih =>
    rw [List.foldl_cons, retireInto_eq_addRemoved hrem (hlen r (by simp)),
      ih (addRemoved_ints _ _) (fun x hx => by simpa using hlen x (by simp [hx])), addRemoved_addRemoved]
    rfl

/-! ## Rows the propagation works on -/

/-- Integer rows whose weights fit the removed weights, which are integers. -/
structure RowsWf (rows : List Row) (removed : List Datum) : Prop where
  lits : ∀ r ∈ rows, ∀ d ∈ r.lits, IsLit d
  weights : ∀ r ∈ rows, ∀ ws, r.weights = some ws →
    ws.length ≤ removed.length ∧ ∀ w ∈ ws, ∃ k : Int, w = .int k
  removed : ∀ d ∈ removed, ∃ k : Int, d = .int k

theorem RowsWf.weights_length {rows : List Row} {removed : List Datum} (h : RowsWf rows removed) :
    ∀ r ∈ rows, (r.weights.getD []).length ≤ removed.length := by
  intro r hr
  cases hw : r.weights with
  | none => simp
  | some ws => exact (h.weights r hr ws hw).1

theorem RowsWf.kept {rows : List Row} {removed : List Datum} (h : RowsWf rows removed)
    (vs : Fixing) (retired : List Row) :
    RowsWf (rows.filterMap (keptRow vs)) (addRemoved removed retired) := by
  have hsrc : ∀ r' ∈ rows.filterMap (keptRow vs), ∃ r ∈ rows, r' = Row.without vs r := by
    intro r' hr'
    obtain ⟨r, hr, hk⟩ := List.mem_filterMap.1 hr'
    exact ⟨r, hr, (keptRow_eq_some hk).1⟩
  refine ⟨fun r' hr' d hd => ?_, fun r' hr' ws hws => ?_, addRemoved_ints _ _⟩
  · obtain ⟨r, hr, rfl⟩ := hsrc r' hr'
    exact h.lits r hr d (List.mem_of_mem_filter hd)
  · obtain ⟨r, hr, rfl⟩ := hsrc r' hr'
    rw [length_addRemoved]
    exact h.weights r hr ws hws

theorem sweep_removed {vs : Fixing} (hvs : FixingWf vs) {rows : List Row} {removed : List Datum}
    (h : RowsWf rows removed) :
    (sweep vs rows removed).failure = none ∧
    (sweep vs rows removed).alive = rows.filterMap (keptRow vs) ∧
    (sweep vs rows removed).removed = addRemoved removed (rows.filter (retiredBy vs)) := by
  obtain ⟨hf, halive, hrem⟩ := sweep_spec hvs h.lits h.weights h.removed
  refine ⟨hf, halive, ?_⟩
  rw [hrem, foldl_retireInto h.removed (fun r hr => h.weights_length r (List.mem_of_mem_filter hr))]

/-! ## Retiring under a growing fixing -/

section Growing

variable {vs' vs : Fixing}

theorem retiredBy_of_kept {r r' : Row} (hk : keptRow vs r = some r') : retiredBy vs r = false := by
  unfold keptRow at hk
  unfold retiredBy
  split at hk
  · cases hk
  · split at hk
    · cases hk
    · rename_i hsat hret
      simpa [hsat] using hret

theorem retiredBy_mono (hvs' : FixingWf vs') (hext : Extends vs' vs) {r : Row}
    (h : retiredBy vs r = true) : retiredBy vs' r = true := by
  simp only [retiredBy, Bool.and_eq_true, Bool.not_eq_eq_eq_not, Bool.not_true, List.isEmpty_iff,
    Row.without, List.filter_eq_nil_iff, Bool.not_eq_eq_eq_not, Bool.not_true, Bool.not_eq_false] at h ⊢
  obtain ⟨⟨-, hfalse⟩, hw⟩ := h
  have hfalse' : ∀ d ∈ r.lits, fixedFalse vs' (intOf d) = true :=
    fun d hd => hext.fixedFalse (by simpa using hfalse d hd)
  refine ⟨⟨?_, fun d hd => by simpa using hfalse' d hd⟩, hw⟩
  simp only [satisfiedBy, List.any_eq_false]
  intro d hd ht
  exact hvs'.not_true_and_false (by simpa using ht) (hfalse' d hd)

/-- A row dropped as satisfied stays satisfied, so it is not retired later. -/
theorem retiredBy_of_dropped (hext : Extends vs' vs) {r : Row} (hk : keptRow vs r = none)
    (h : retiredBy vs r = false) : retiredBy vs' r = false := by
  have hsat : satisfiedBy vs r = true := by
    unfold keptRow at hk
    unfold retiredBy at h
    split at hk
    · assumption
    · rename_i hsat
      split at hk
      · rename_i hret
        simp [hsat, hret] at h
      · cases hk
  obtain ⟨d, hd, ht⟩ := List.any_eq_true.1 hsat
  have hsat' : satisfiedBy vs' r = true := List.any_eq_true.2 ⟨d, hd, hext.fixedTrue ht⟩
  simp [retiredBy, hsat']

theorem retiredBy_kept (hvs' : FixingWf vs') (hext : Extends vs' vs) {r r' : Row}
    (hk : keptRow vs r = some r') : retiredBy vs' r' = retiredBy vs' r := by
  obtain ⟨rfl, -⟩ := keptRow_eq_some hk
  simp only [retiredBy, satisfiedBy_without hvs' hext, without_without hext, Row.without_weights]

theorem weightAt_kept {r r' : Row} (hk : keptRow vs r = some r') (i : Nat) :
    r'.weightAt i = r.weightAt i := by
  obtain ⟨rfl, -⟩ := keptRow_eq_some hk
  rfl

/-- The weight retired under a larger fixing is that retired by the first sweep plus that
retired from the rows it keeps. -/
theorem weightSum_retired (hvs' : FixingWf vs') (hext : Extends vs' vs) (rows : List Row) (i : Nat) :
    weightSum (rows.filter (retiredBy vs')) i =
      weightSum (rows.filter (retiredBy vs)) i +
        weightSum ((rows.filterMap (keptRow vs)).filter (retiredBy vs')) i := by
  induction rows with
  | nil => simp
  | cons r rs ih =>
    cases hk : keptRow vs r with
    | some r' =>
      have h1 := retiredBy_of_kept hk
      have h2 := retiredBy_kept hvs' hext hk
      have h3 := weightAt_kept hk i
      cases hr : retiredBy vs' r
      · simp [hk, h1, h2, hr, ih]
      · simp [hk, h1, h2, h3, hr, ih]
        ring
    | none =>
      cases hr : retiredBy vs r
      · have h2 := retiredBy_of_dropped hext hk hr
        simp [hk, h2, hr, ih]
      · have h2 := retiredBy_mono hvs' hext hr
        simp [hk, h2, hr, ih]
        ring

end Growing

/-! ## Valuations that agree with a fixing -/

/-- the valuation makes every literal of the fixing true -/
def Agrees (σ : Valuation) (vs : Fixing) : Prop := ∀ n w, fixLit vs n = some w → σ.lit w

theorem Agrees.on {σ : Valuation} {vs : Fixing} (h : Agrees σ vs) (r : Row) : AgreesOn σ vs r :=
  fun _ _ w hw => h _ w hw

theorem Agrees.append {σ : Valuation} {vs : Fixing} (h : Agrees σ vs) {F : List Int}
    (hF : ∀ z ∈ F, σ.lit z) : Agrees σ (F.map fixEntry ++ vs) := by
  intro n w hw
  rw [fixLit_append_map] at hw
  cases hfind : F.find? (fun z => z.natAbs = n) with
  | some z =>
    rw [hfind] at hw
    cases hw
    exact hF w (List.mem_of_find?_eq_some hfind)
  | none =>
    rw [hfind] at hw
    exact h n w hw

theorem Agrees.kept_hard {σ : Valuation} {vs : Fixing} (hvs : FixingWf vs) (h : Agrees σ vs)
    {rows : List Row} (hrows : ∀ r ∈ rows, r.weights = none → σ.clause r.ints) :
    ∀ r' ∈ rows.filterMap (keptRow vs), r'.weights = none → σ.clause r'.ints := by
  intro r' hr' hw
  obtain ⟨r, hr, hk⟩ := List.mem_filterMap.1 hr'
  have hw' : r.weights = none := by
    rw [(keptRow_eq_some hk).1] at hw
    simpa using hw
  exact (keptRow_some_iff hvs (h.on r) hk).2 (hrows r hr hw')

theorem fixLit_of_mem {F : List Int} (hnd : (F.map Int.natAbs).Nodup) {z : Int} (hz : z ∈ F)
    (vs : Fixing) : fixLit (F.reverse.map fixEntry ++ vs) z.natAbs = some z := by
  rw [fixLit_append_map]
  have hsome : (F.reverse.find? (fun x => x.natAbs = z.natAbs)).isSome := by
    rw [List.find?_isSome]
    exact ⟨z, List.mem_reverse.2 hz, by simp⟩
  obtain ⟨x, hx⟩ := Option.isSome_iff_exists.1 hsome
  have hxF : x ∈ F := List.mem_reverse.1 (List.mem_of_find?_eq_some hx)
  have hxz : x.natAbs = z.natAbs := by simpa using List.find?_some hx
  rw [hx, List.inj_on_of_nodup_map hnd hxF hz hxz]
  rfl

/-- A sweep keeps at most the rows it does not find satisfied. -/
theorem length_filterMap_keptRow (vs : Fixing) (rows : List Row) :
    (rows.filterMap (keptRow vs)).length + (if rows.any (satisfiedBy vs) then 1 else 0) ≤
      rows.length := by
  induction rows with
  | nil => simp
  | cons r rs ih =>
    have hle := List.length_filterMap_le (keptRow vs) rs
    cases hsat : satisfiedBy vs r
    · have h1 : ((r :: rs).filterMap (keptRow vs)).length ≤ (rs.filterMap (keptRow vs)).length + 1 := by
        rw [List.filterMap_cons]
        cases keptRow vs r <;> simp
      have h2 : (r :: rs).any (satisfiedBy vs) = rs.any (satisfiedBy vs) := by simp [hsat]
      rw [h2, List.length_cons]
      omega
    · have hk : keptRow vs r = none := by simp [keptRow, hsat]
      simp [hk, hsat]
      omega

/-! ## Fresh literals -/

section Fresh

variable {F : List Int} {vs : Fixing}

theorem FixingWf.append_map (hvs : FixingWf vs) (hF : ∀ z ∈ F, z ≠ 0) :
    FixingWf (F.map fixEntry ++ vs) := by
  intro p hp
  rcases List.mem_append.1 hp with hp | hp
  · obtain ⟨z, hz, rfl⟩ := List.mem_map.1 hp
    exact ⟨z, hF z hz, rfl⟩
  · exact hvs p hp

theorem extends_fresh (hF : ∀ z ∈ F, fixLit vs z.natAbs = none) : Extends (F.map fixEntry ++ vs) vs := by
  intro n w hw
  rw [fixLit_append_map]
  cases hfind : F.find? (fun z => z.natAbs = n) with
  | none => simpa using hw
  | some x =>
    have hx : x.natAbs = n := by simpa using List.find?_some hfind
    have hfree := hF x (List.mem_of_find?_eq_some hfind)
    rw [hx, hw] at hfree
    cases hfree

theorem fixLit_of_append_none {n : Nat} (h : fixLit (F.map fixEntry ++ vs) n = none) :
    fixLit vs n = none := by
  rw [fixLit_append_map, Option.or_eq_none_iff] at h
  exact h.2

end Fresh

/-! ## The passes -/

theorem mem_lits_of_kept {vs : Fixing} {rows : List Row} {r : Row}
    (hr : r ∈ rows.filterMap (keptRow vs)) {d : Datum} (hd : d ∈ r.lits) :
    ∃ r₀ ∈ rows, d ∈ r₀.lits := by
  obtain ⟨r₀, hr₀, hk⟩ := List.mem_filterMap.1 hr
  rw [(keptRow_eq_some hk).1] at hd
  exact ⟨r₀, hr₀, List.mem_of_mem_filter hd⟩

/-- **One pass.** On such rows a pass does not fail: it sweeps the rows and fixes the new units
`F`, one for each hard unit row kept on a variable still free, then ends if there are none and
goes on under the larger fixing otherwise, whatever the fuel left. -/
theorem propagateLoop_succ {vs : Fixing} (hvs : FixingWf vs) {e : Engine}
    (hwf : RowsWf e.rows e.removed) (c : Bool) :
    ∃ F : List Int,
      (∀ z ∈ F, z ≠ 0 ∧ fixLit vs z.natAbs = none ∧
        ∃ r ∈ e.rows.filterMap (keptRow vs), r.weights = none ∧ r.lits = [.int z]) ∧
      (F.map Int.natAbs).Nodup ∧
      (∀ r ∈ e.rows.filterMap (keptRow vs), r.weights = none → ∀ z, r.lits = [.int z] →
        (fixLit (F.reverse.map fixEntry ++ vs) z.natAbs).isSome) ∧ ∀ fuel : Nat,
      (propagateLoop (fuel + 1) vs c).run e =
        if F = [] then
          (.ok (c || (sweep vs e.rows e.removed).changed),
            { e with rows := e.rows.filterMap (keptRow vs),
                     removed := addRemoved e.removed (e.rows.filter (retiredBy vs)) })
        else
          (propagateLoop fuel (F.reverse.map fixEntry ++ vs) (c || (sweep vs e.rows e.removed).changed)).run
            { e with rows := e.rows.filterMap (keptRow vs),
                     removed := addRemoved e.removed (e.rows.filter (retiredBy vs)),
                     fixed := e.fixed ++ F.map .int,
                     trace := e.trace ++ F.map (fun z => .fix (.int z)) } := by
  obtain ⟨hf, halive, hrem⟩ := sweep_removed hvs hwf
  obtain ⟨F, hF, hnew, hnd, hunits⟩ := collectUnits_spec hvs (hwf.kept vs []).lits []
  refine ⟨F, hnew, hnd, hunits, fun fuel => ?_⟩
  simp only [propagateLoop, EngineM.run_bind, EngineM.run_get, hf, EngineM.run_set, halive, hF,
    EngineM.run_modify, hrem, List.nil_append]
  by_cases hF0 : F = []
  · subst hF0
    simp
  · have hne : (F.map Datum.int).isEmpty = false := by simpa using hF0
    simp only [hne, hF0, if_false, Bool.false_eq_true, List.map_map]
    rfl

theorem satisfiedBy_newUnit {vs : Fixing} {F : List Int} (hnd : (F.map Int.natAbs).Nodup) {z : Int}
    (hz : z ∈ F) {r : Row} (hl : r.lits = [.int z]) : satisfiedBy (F.reverse.map fixEntry ++ vs) r = true := by
  simp only [satisfiedBy, hl, List.any_cons, List.any_nil, Bool.or_false, Session.intOf_int,
    fixedTrue, fixLit_of_mem hnd hz vs, decide_true]

/-- After a pass that fixes new units `F`, the next pass starts under a well-formed larger
fixing, on rows of the same kind, with fuel enough: the unit row of a new literal is satisfied
in it. -/
theorem propagateLoop_next {vs : Fixing} (hvs : FixingWf vs) {rows : List Row} {removed : List Datum}
    (hwf : RowsWf rows removed) {F : List Int} (hF : F ≠ [])
    (hnew : ∀ z ∈ F, z ≠ 0 ∧ fixLit vs z.natAbs = none ∧
      ∃ r ∈ rows.filterMap (keptRow vs), r.weights = none ∧ r.lits = [.int z])
    (hnd : (F.map Int.natAbs).Nodup) {fuel : Nat}
    (hfuel : rows.length < fuel + 1 + if rows.any (satisfiedBy vs) then 1 else 0)
    (retired : List Row) :
    FixingWf (F.reverse.map fixEntry ++ vs) ∧
      RowsWf (rows.filterMap (keptRow vs)) (addRemoved removed retired) ∧
      (rows.filterMap (keptRow vs)).length < fuel +
        if (rows.filterMap (keptRow vs)).any (satisfiedBy (F.reverse.map fixEntry ++ vs)) then 1 else 0 := by
  refine ⟨hvs.append_map (fun z hz => (hnew z (List.mem_reverse.1 hz)).1), hwf.kept vs retired, ?_⟩
  obtain ⟨z, hz⟩ := List.exists_mem_of_ne_nil F hF
  obtain ⟨-, -, r, hr, -, hl⟩ := hnew z hz
  have hlen := length_filterMap_keptRow vs rows
  rw [if_pos (List.any_eq_true.2 ⟨r, hr, satisfiedBy_newUnit hnd hz hl⟩)]
  omega

/-- **The passes.** With more fuel than there are rows not yet satisfied (the engine gives the
number of rows plus one), the passes on such rows do not fail. They fix fresh literals `F` on
distinct free variables, each a literal of a row and forced by the hard rows and the fixing; the
rows left are those `keptRow` keeps under the final fixing, and the removed weights grow by the
weights of the rows retired under it. The flag reports a change when a row had a literal on a
variable of the fixing or a fresh literal was fixed. -/
theorem propagateLoop_spec (fuel : Nat) {vs : Fixing} (hvs : FixingWf vs) {e : Engine}
    (hwf : RowsWf e.rows e.removed)
    (hfuel : e.rows.length < fuel + if e.rows.any (satisfiedBy vs) then 1 else 0) (c : Bool) :
    ∃ (F : List Int) (c' : Bool),
      (propagateLoop fuel vs c).run e =
        (.ok c', { e with rows := e.rows.filterMap (keptRow (F.reverse.map fixEntry ++ vs)),
                          removed := addRemoved e.removed
                            (e.rows.filter (retiredBy (F.reverse.map fixEntry ++ vs))),
                          fixed := e.fixed ++ F.map .int,
                          trace := e.trace ++ F.map (fun z => .fix (.int z)) }) ∧
      c' = (c || e.rows.any (touchedBy vs) || !F.isEmpty) ∧
      (∀ z ∈ F, z ≠ 0 ∧ fixLit vs z.natAbs = none) ∧ (F.map Int.natAbs).Nodup ∧
      (∀ z ∈ F, ∃ r ∈ e.rows, Datum.int z ∈ r.lits) ∧
      ∀ σ : Valuation, Agrees σ vs → (∀ r ∈ e.rows, r.weights = none → σ.clause r.ints) →
        ∀ z ∈ F, σ.lit z := by
  induction fuel generalizing vs e c with
  | zero =>
    -- out of fuel only if some row is satisfied, and then there are rows
    exfalso
    split at hfuel
    · rename_i hany
      obtain ⟨r, hr, -⟩ := List.any_eq_true.1 hany
      have := List.length_pos_of_mem hr
      omega
    · omega
  | succ fuel ih =>
    obtain ⟨F₁, hnew, hnd, -, hrun⟩ := propagateLoop_succ hvs hwf c
    specialize hrun fuel
    have hchanged : (sweep vs e.rows e.removed).changed = e.rows.any (touchedBy vs) :=
      sweep_changed hvs hwf.lits e.removed (sweep_removed hvs hwf).1
    by_cases hF0 : F₁ = []
    case pos =>
      subst hF0
      refine ⟨[], c || (sweep vs e.rows e.removed).changed, ?_, by simp [hchanged], by simp, by simp, by simp,
        by simp⟩
      rw [hrun, if_pos rfl]
      simp
    case neg =>
      -- the new units extend the fixing, and the next pass starts from the rows this one kept
      obtain ⟨hvs₁, hwf₁, hfuel₁⟩ := propagateLoop_next hvs hwf hF0 hnew hnd hfuel
        (e.rows.filter (retiredBy vs))
      have hext₁ : Extends (F₁.reverse.map fixEntry ++ vs) vs :=
        extends_fresh (fun z hz => (hnew z (List.mem_reverse.1 hz)).2.1)
      obtain ⟨z, hz⟩ := List.exists_mem_of_ne_nil F₁ hF0
      obtain ⟨-, -, r, hr, -, hl⟩ := hnew z hz
      obtain ⟨F₂, c', hrun₂, hflag₂, hnew₂, hnd₂, hocc₂, hforced₂⟩ := @ih _ hvs₁
        { e with rows := e.rows.filterMap (keptRow vs),
                 removed := addRemoved e.removed (e.rows.filter (retiredBy vs)),
                 fixed := e.fixed ++ F₁.map .int,
                 trace := e.trace ++ F₁.map (fun z => .fix (.int z)) }
        hwf₁ hfuel₁ (c || (sweep vs e.rows e.removed).changed)
      have hvsF : F₂.reverse.map fixEntry ++ (F₁.reverse.map fixEntry ++ vs) =
          (F₁ ++ F₂).reverse.map fixEntry ++ vs := by
        simp
      have hwfF : FixingWf ((F₁ ++ F₂).reverse.map fixEntry ++ vs) :=
        hvsF ▸ hvs₁.append_map (fun z hz => (hnew₂ z (List.mem_reverse.1 hz)).1)
      have hextF : Extends ((F₁ ++ F₂).reverse.map fixEntry ++ vs) vs :=
        hvsF ▸ (extends_fresh (fun z hz => (hnew₂ z (List.mem_reverse.1 hz)).2)).trans hext₁
      refine ⟨F₁ ++ F₂, c', ?_, ?_, ?_, ?_, ?_, ?_⟩
      · have hrem : addRemoved e.removed (e.rows.filter (retiredBy vs) ++
            (e.rows.filterMap (keptRow vs)).filter (retiredBy ((F₁ ++ F₂).reverse.map fixEntry ++ vs))) =
            addRemoved e.removed (e.rows.filter (retiredBy ((F₁ ++ F₂).reverse.map fixEntry ++ vs))) :=
          addRemoved_congr _ (fun i => by rw [weightSum_append, weightSum_retired hwfF hextF e.rows i])
        rw [hrun, if_neg hF0, hrun₂]
        simp only [hvsF]
        rw [filterMap_keptRow_comp hwfF hextF, addRemoved_addRemoved, hrem]
        simp
      · have htouched : (e.rows.filterMap (keptRow vs)).any (touchedBy (F₁.reverse.map fixEntry ++ vs)) :=
          List.any_eq_true.2 ⟨r, hr, by rw [touchedBy_eq hvs₁, satisfiedBy_newUnit hnd hz hl, Bool.true_or]⟩
        have hne : (F₁ ++ F₂).isEmpty = false := by simp [hF0]
        rw [hflag₂, htouched, hne]
        simp
      · intro z hz
        rcases List.mem_append.1 hz with hz | hz
        · exact ⟨(hnew z hz).1, (hnew z hz).2.1⟩
        · exact ⟨(hnew₂ z hz).1, fixLit_of_append_none (hnew₂ z hz).2⟩
      · rw [List.map_append, List.nodup_append]
        refine ⟨hnd, hnd₂, ?_⟩
        intro a ha b hb hab
        obtain ⟨x, hx, rfl⟩ := List.mem_map.1 ha
        obtain ⟨y, hy, rfl⟩ := List.mem_map.1 hb
        have h₁ := fixLit_of_mem hnd hx vs
        rw [hab, (hnew₂ y hy).2] at h₁
        cases h₁
      · intro z hz
        rcases List.mem_append.1 hz with hz | hz
        · obtain ⟨-, -, r, hr, -, hl⟩ := hnew z hz
          exact mem_lits_of_kept hr (by simp [hl])
        · obtain ⟨r, hr, hd⟩ := hocc₂ z hz
          exact mem_lits_of_kept hr hd
      · intro σ hσ hhard
        have h₁ : ∀ z ∈ F₁, σ.lit z := by
          intro z hz
          obtain ⟨-, -, r, hr, hw, hl⟩ := hnew z hz
          simpa [Row.ints, hl, Valuation.clause] using hσ.kept_hard hvs hhard r hr hw
        have hσ₁ : Agrees σ (F₁.reverse.map fixEntry ++ vs) :=
          hσ.append (fun z hz => h₁ z (List.mem_reverse.1 hz))
        intro z hz
        rcases List.mem_append.1 hz with hz | hz
        · exact h₁ z hz
        · exact hforced₂ σ hσ₁ (hσ.kept_hard hvs hhard) z hz

/-! ## Unit propagation from the engine's fixed literals -/

/-- the fixing of a list of fixed literals, the latest first -/
def fixingOf (ds : List Datum) : Fixing := (ds.map intOf).reverse.map fixEntry

theorem fixingOf_append (ds : List Datum) (F : List Int) :
    fixingOf (ds ++ F.map .int) = F.reverse.map fixEntry ++ fixingOf ds := by
  simp [fixingOf]

theorem fixingOf_wf {ds : List Datum} (h : ∀ d ∈ ds, IsLit d) : FixingWf (fixingOf ds) := by
  have hF : ∀ z ∈ (ds.map intOf).reverse, z ≠ 0 := by
    intro z hz
    obtain ⟨d, hd, rfl⟩ := List.mem_map.1 (List.mem_reverse.1 hz)
    exact (h d hd).ne_zero
  have hwf := (show FixingWf ([] : Fixing) by simp [FixingWf]).append_map hF
  simpa [fixingOf] using hwf

theorem agrees_fixingOf {σ : Valuation} {ds : List Datum} (h : ∀ d ∈ ds, σ.lit (intOf d)) :
    Agrees σ (fixingOf ds) := by
  have hF : ∀ z ∈ (ds.map intOf).reverse, σ.lit z := by
    intro z hz
    obtain ⟨d, hd, rfl⟩ := List.mem_map.1 (List.mem_reverse.1 hz)
    exact h d hd
  have hag := (show Agrees σ [] by simp [Agrees]).append hF
  simpa [fixingOf] using hag

theorem foldlM_fixing {ds : List Datum} (h : ∀ d ∈ ds, IsLit d) (acc : Fixing) :
    ds.foldlM (fun vs l => do pure ((← Datum.magnitude l, l) :: vs)) acc =
      .ok (fixingOf ds ++ acc) := by
  induction ds generalizing acc with
  | nil => rfl
  | cons d ds ih =>
    obtain ⟨z, -, rfl⟩ := h d (by simp)
    rw [List.foldlM_cons]
    exact (ih (fun x hx => h x (by simp [hx])) (fixEntry z :: acc)).trans (by simp [fixingOf])

theorem unitPropagate_eq {e : Engine} (hfix : ∀ d ∈ e.fixed, IsLit d) :
    unitPropagate.run e = (propagateLoop (e.rows.length + 1) (fixingOf e.fixed) false).run e := by
  have hread := foldlM_fixing hfix []
  rw [List.append_nil] at hread
  simp only [unitPropagate, EngineM.run_bind, EngineM.run_get, hread, EngineM.run_lift]

/-- **Unit propagation.** On integer rows whose weights fit the removed weights, with integer
fixed literals, propagation does not fail. It fixes fresh literals `F`, on variables distinct
from each other and from those fixed before, each a literal of a row and forced by the hard rows
and the literals fixed before; the rows left are those `keptRow` keeps under all the fixed
literals, and the removed weights grow by the weights of the rows retired under them. -/
theorem unitPropagate_spec {e : Engine} (hfix : ∀ d ∈ e.fixed, IsLit d)
    (hwf : RowsWf e.rows e.removed) :
    ∃ (F : List Int) (c : Bool),
      unitPropagate.run e =
        (.ok c, { e with rows := e.rows.filterMap (keptRow (fixingOf (e.fixed ++ F.map .int))),
                         removed := addRemoved e.removed
                           (e.rows.filter (retiredBy (fixingOf (e.fixed ++ F.map .int)))),
                         fixed := e.fixed ++ F.map .int,
                         trace := e.trace ++ F.map (fun z => .fix (.int z)) }) ∧
      (∀ z ∈ F, z ≠ 0 ∧ fixLit (fixingOf e.fixed) z.natAbs = none) ∧ (F.map Int.natAbs).Nodup ∧
      (∀ z ∈ F, ∃ r ∈ e.rows, Datum.int z ∈ r.lits) ∧
      ∀ σ : Valuation, (∀ d ∈ e.fixed, σ.lit (intOf d)) →
        (∀ r ∈ e.rows, r.weights = none → σ.clause r.ints) → ∀ z ∈ F, σ.lit z := by
  have hvs := fixingOf_wf hfix
  have hfuel : e.rows.length < e.rows.length + 1 +
      if e.rows.any (satisfiedBy (fixingOf e.fixed)) then 1 else 0 := by
    omega
  obtain ⟨F, c, hrun, -, hnew, hnd, hocc, hforced⟩ := propagateLoop_spec _ hvs hwf hfuel false
  refine ⟨F, c, ?_, hnew, hnd, hocc, fun σ hσ => hforced σ (agrees_fixingOf hσ)⟩
  rw [unitPropagate_eq hfix, hrun, fixingOf_append]

end Engine

end MaxSatPrep
