import MaxSatPrep.Proofs.Shape
/-!
Unit propagation computes its fixpoint. Read as a set of literals, the fixed literals at the end
decide every row: a row with a fixed literal is dropped, a row keeps its other literals but loses
those whose negation is fixed, and a soft row left without literals is dropped with its weights
added to the removed weights (`Row.leftBy`, `Row.emptiedBy`). When the fixed literals are on
distinct variables this is what the engine's lookup by variable does (`keptRow_fixingOf`). The
passes stop at a pass that fixes nothing new, so every hard unit row that pass keeps is on a
variable fixed already, while the rows it keeps have no literal on a fixed variable: no hard unit
row is left (`propagateLoop_settled`).

Main statement: `unitPropagate_computes_fixpoint`.
-/

namespace MaxSatPrep

open Session (intOf)

/-- The row that fixed literals leave of a row: nothing when one of its literals is fixed, or when
it is soft and every literal of it has its negation fixed; otherwise the row without the literals
whose negation is fixed. -/
def Row.leftBy (fixed : List Int) (r : Row) : Option Row :=
  if r.lits.any (fun d => decide (intOf d ∈ fixed)) then none
  else if (r.lits.filter (fun d => decide (-intOf d ∉ fixed))).isEmpty && r.weights.isSome then none
  else some { r with lits := r.lits.filter (fun d => decide (-intOf d ∉ fixed)) }

/-- a soft row that fixed literals empty: none of its literals is fixed and each has its negation
fixed -/
def Row.emptiedBy (fixed : List Int) (r : Row) : Bool :=
  !r.lits.any (fun d => decide (intOf d ∈ fixed)) &&
    (r.lits.filter (fun d => decide (-intOf d ∉ fixed))).isEmpty && r.weights.isSome

theorem Row.leftBy_soft {fixed : List Int} {r r' : Row} (h : r.leftBy fixed = some r')
    (hw : r'.weights ≠ none) : r'.lits ≠ [] := by
  unfold Row.leftBy at h
  split at h
  · cases h
  split at h
  · cases h
  rename_i hkeep
  cases h
  intro hnil
  apply hkeep
  simp only at hnil hw
  simp only [hnil, List.isEmpty_nil, Bool.true_and]
  exact Option.isSome_iff_ne_none.2 hw

namespace Engine

/-! ## Fixed literals read as a set -/

section FixedSet

variable {ds : List Datum}

theorem fixLit_fixingOf_some {n : Nat} {z : Int} (h : fixLit (fixingOf ds) n = some z) :
    z ∈ ds.map intOf ∧ z.natAbs = n := by
  have hfix := @fixLit_append_map (ds.map intOf).reverse [] n
  rw [List.append_nil] at hfix
  rw [fixingOf, hfix, fixLit_nil, Option.or_none] at h
  exact ⟨List.mem_reverse.1 (List.mem_of_find?_eq_some h), by simpa using List.find?_some h⟩

theorem fixLit_fixingOf_of_mem (hvars : ((ds.map intOf).map Int.natAbs).Nodup) {z : Int}
    (hz : z ∈ ds.map intOf) : fixLit (fixingOf ds) z.natAbs = some z := by
  have hfix := fixLit_of_mem hvars hz []
  rwa [List.append_nil] at hfix

theorem fixedTrue_fixingOf (hvars : ((ds.map intOf).map Int.natAbs).Nodup) (z : Int) :
    fixedTrue (fixingOf ds) z = decide (z ∈ ds.map intOf) := by
  by_cases hz : z ∈ ds.map intOf
  · simp [fixedTrue, fixLit_fixingOf_of_mem hvars hz, hz]
  · have hne : fixLit (fixingOf ds) z.natAbs ≠ some z := fun h => hz (fixLit_fixingOf_some h).1
    simp [fixedTrue, hne, hz]

theorem fixedFalse_fixingOf (hvars : ((ds.map intOf).map Int.natAbs).Nodup) (z : Int) :
    fixedFalse (fixingOf ds) z = decide (-z ∈ ds.map intOf) := by
  by_cases hz : -z ∈ ds.map intOf
  · have hfix := fixLit_fixingOf_of_mem hvars hz
    rw [Int.natAbs_neg] at hfix
    simp [fixedFalse, hfix, hz]
  · have hne : fixLit (fixingOf ds) z.natAbs ≠ some (-z) := fun h => hz (fixLit_fixingOf_some h).1
    simp [fixedFalse, hne, hz]

/-- On distinct variables, a sweep under the fixed literals keeps what they leave of each row. -/
theorem keptRow_fixingOf (hvars : ((ds.map intOf).map Int.natAbs).Nodup) :
    keptRow (fixingOf ds) = Row.leftBy (ds.map intOf) := by
  funext r
  simp only [keptRow, satisfiedBy, Row.without, Row.leftBy, fixedTrue_fixingOf hvars,
    fixedFalse_fixingOf hvars, decide_not]

theorem retiredBy_fixingOf (hvars : ((ds.map intOf).map Int.natAbs).Nodup) :
    retiredBy (fixingOf ds) = Row.emptiedBy (ds.map intOf) := by
  funext r
  simp only [retiredBy, satisfiedBy, Row.without, Row.emptiedBy, fixedTrue_fixingOf hvars,
    fixedFalse_fixingOf hvars, decide_not]

end FixedSet

/-! ## The last pass -/

/-- **The passes settle.** With fuel enough, the rows the passes leave hold no hard unit row: the
last pass fixed nothing new, so each hard unit row it kept was on a variable fixed already, and it
keeps no literal on a fixed variable. -/
theorem propagateLoop_settled (fuel : Nat) {vs : Fixing} (hvs : FixingWf vs) {e : Engine}
    (hwf : RowsWf e.rows e.removed)
    (hfuel : e.rows.length < fuel + if e.rows.any (satisfiedBy vs) then 1 else 0) (c : Bool) :
    ∀ r ∈ ((propagateLoop fuel vs c).run e).2.rows, r.weights = none → ∀ z, r.lits ≠ [.int z] := by
  induction fuel generalizing vs e c with
  | zero =>
    exfalso
    split at hfuel
    · rename_i hany
      obtain ⟨r, hr, -⟩ := List.any_eq_true.1 hany
      have := List.length_pos_of_mem hr
      omega
    · omega
  | succ fuel ih =>
    obtain ⟨F, hnew, hnd, hunits, hrun⟩ := propagateLoop_succ hvs hwf c
    rw [hrun fuel]
    by_cases hF : F = []
    case neg =>
      obtain ⟨hvs₁, hwf₁, hfuel₁⟩ := propagateLoop_next hvs hwf hF hnew hnd hfuel
        (e.rows.filter (retiredBy vs))
      rw [if_neg hF]
      exact ih hvs₁ hwf₁ hfuel₁ _
    subst hF
    rw [if_pos rfl]
    intro r hr hw z hz
    have hfixed := hunits r hr hw z hz
    obtain ⟨r₀, -, hk⟩ := List.mem_filterMap.1 hr
    have hfree := keptRow_free hvs hk (.int z) (by simp [hz])
    rw [Session.intOf_int] at hfree
    simp [hfree] at hfixed

/-! ## Unit propagation -/

/-- **Unit propagation computes the fixpoint.** On integer rows whose weights fit the removed
weights, with fixed literals on distinct variables, unit propagation answers. It appends fresh
literals `F` to the fixed literals, on variables distinct from each other and from those fixed
before, and one fixing event for each to the trace, in the same order. Under the fixed literals
`L` it ends with, the rows left are, in order, what `L` leaves of each row, and the removed
weights grow by the weights of the soft rows `L` empties. No row left has a literal on a variable
of `L`, no hard row left is a unit, and no soft row left is empty. Every valuation satisfying the
hard rows and the literals fixed before satisfies each fresh literal. -/
theorem unitPropagate_computes_fixpoint {e : Engine} (hfix : ∀ d ∈ e.fixed, IsLit d)
    (hvars : ((e.fixed.map intOf).map Int.natAbs).Nodup) (hwf : RowsWf e.rows e.removed) :
    ∃ (F : List Int) (c : Bool),
      unitPropagate.run e =
        (.ok c, { e with rows := e.rows.filterMap (Row.leftBy (e.fixed.map intOf ++ F)),
                         removed := addRemoved e.removed
                           (e.rows.filter (Row.emptiedBy (e.fixed.map intOf ++ F))),
                         fixed := e.fixed ++ F.map .int,
                         trace := e.trace ++ F.map (fun z => .fix (.int z)) }) ∧
      ((e.fixed.map intOf ++ F).map Int.natAbs).Nodup ∧
      (∀ r ∈ e.rows.filterMap (Row.leftBy (e.fixed.map intOf ++ F)),
        (∀ d ∈ r.lits, ∀ z ∈ e.fixed.map intOf ++ F, z.natAbs ≠ (intOf d).natAbs) ∧
        (r.weights = none → r.lits.length ≠ 1) ∧ (r.weights ≠ none → r.lits ≠ [])) ∧
      ∀ σ : Valuation, (∀ r ∈ e.rows, r.weights = none → σ.clause r.ints) →
        (∀ d ∈ e.fixed, σ.lit (intOf d)) → ∀ z ∈ F, σ.lit z := by
  obtain ⟨F, c, hrun, hnew, hnd, -, hforced⟩ := unitPropagate_spec hfix hwf
  have hints : (e.fixed ++ F.map Datum.int).map intOf = e.fixed.map intOf ++ F := by
    simp [Function.comp_def]
  have hvarsF : ((e.fixed.map intOf ++ F).map Int.natAbs).Nodup := by
    rw [List.map_append, List.nodup_append]
    refine ⟨hvars, hnd, fun a ha b hb hab => ?_⟩
    obtain ⟨x, hx, rfl⟩ := List.mem_map.1 ha
    obtain ⟨d, hd, rfl⟩ := List.mem_map.1 hx
    obtain ⟨z, hz, rfl⟩ := List.mem_map.1 hb
    exact fixLit_fixingOf_eq_none (hnew z hz).2 d hd hab
  have hvarsD : (((e.fixed ++ F.map Datum.int).map intOf).map Int.natAbs).Nodup := by rwa [hints]
  have hkept := keptRow_fixingOf hvarsD
  have hretired := retiredBy_fixingOf hvarsD
  rw [hints] at hkept hretired
  have hfixD : ∀ d ∈ e.fixed ++ F.map .int, IsLit d := by
    intro d hd
    rcases List.mem_append.1 hd with hd | hd
    · exact hfix d hd
    · obtain ⟨z, hz, rfl⟩ := List.mem_map.1 hd
      exact (isLit_int z).2 (hnew z hz).1
  have hvsD := fixingOf_wf hfixD
  have hfuel : e.rows.length < e.rows.length + 1 +
      if e.rows.any (satisfiedBy (fixingOf e.fixed)) then 1 else 0 := by
    omega
  have hsettled := propagateLoop_settled _ (fixingOf_wf hfix) hwf hfuel false
  rw [← unitPropagate_eq hfix, hrun] at hsettled
  refine ⟨F, c, by rw [hrun, hkept, hretired], hvarsF, fun r hr => ⟨?_, fun hw hlen => ?_, ?_⟩,
    fun σ hhard hfixed => hforced σ hfixed hhard⟩
  · intro d hd z hz hzd
    rw [← hkept] at hr
    obtain ⟨r₀, -, hk⟩ := List.mem_filterMap.1 hr
    have hfree := fixLit_fixingOf_eq_none (keptRow_free hvsD hk d hd)
    rw [← hints] at hz
    obtain ⟨d', hd', rfl⟩ := List.mem_map.1 hz
    exact hfree d' hd' hzd
  · rw [← hkept] at hr
    obtain ⟨d, hd⟩ := List.length_eq_one_iff.1 hlen
    obtain ⟨z, -, rfl⟩ := (hwf.kept _ []).lits r hr d (by simp [hd])
    exact hsettled r hr hw z hd
  · obtain ⟨r₀, -, hk⟩ := List.mem_filterMap.1 hr
    exact fun hw => Row.leftBy_soft hk hw

/-- Unit propagation on the hard rows `x1`, `¬x1 ∨ x2`, `x2 ∨ x3` and the soft rows `¬x2` of
weight 4 and `x3` of weight 1, as the general statement says. -/
theorem propagation_fixes_and_retires :
    let e : Engine :=
      { top := .int 6, inprocessing := false, finalized := true, nObj := .int 1, maxVar := .int 3,
        removed := [.int 0],
        rows := [⟨[.int 1], none, false⟩, ⟨[.int (-1), .int 2], none, false⟩,
          ⟨[.int 2, .int 3], none, false⟩, ⟨[.int (-2)], some [.int 4], true⟩,
          ⟨[.int 3], some [.int 1], true⟩] }
    (∀ d ∈ e.fixed, IsLit d) ∧ ((e.fixed.map intOf).map Int.natAbs).Nodup ∧ RowsWf e.rows e.removed ∧
    ∃ (F : List Int) (c : Bool),
      unitPropagate.run e =
        (.ok c, { e with rows := e.rows.filterMap (Row.leftBy (e.fixed.map intOf ++ F)),
                         removed := addRemoved e.removed
                           (e.rows.filter (Row.emptiedBy (e.fixed.map intOf ++ F))),
                         fixed := e.fixed ++ F.map .int,
                         trace := e.trace ++ F.map (fun z => .fix (.int z)) }) ∧
      ((e.fixed.map intOf ++ F).map Int.natAbs).Nodup ∧
      (∀ r ∈ e.rows.filterMap (Row.leftBy (e.fixed.map intOf ++ F)),
        (∀ d ∈ r.lits, ∀ z ∈ e.fixed.map intOf ++ F, z.natAbs ≠ (intOf d).natAbs) ∧
        (r.weights = none → r.lits.length ≠ 1) ∧ (r.weights ≠ none → r.lits ≠ [])) ∧
      ∀ σ : Valuation, (∀ r ∈ e.rows, r.weights = none → σ.clause r.ints) →
        (∀ d ∈ e.fixed, σ.lit (intOf d)) → ∀ z ∈ F, σ.lit z := by
  intro e
  have hfix : ∀ d ∈ e.fixed, IsLit d := by simp [e]
  have hvars : ((e.fixed.map intOf).map Int.natAbs).Nodup := by simp [e]
  have hwf : RowsWf e.rows e.removed := ⟨by simp [e], by simp [e], by simp [e]⟩
  exact ⟨hfix, hvars, hwf, unitPropagate_computes_fixpoint hfix hvars hwf⟩

end Engine

end MaxSatPrep
