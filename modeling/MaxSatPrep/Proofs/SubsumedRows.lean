import MaxSatPrep.Proofs.AtRest
/-!
The rows subsumption drops are exactly the rows a hard row left subsumes. Hard rows are taken by
the size of their literal set and then by position; each one still present when its turn comes
drops every other row present whose literals include its own (`mem_removeSupersets`). A row
dropped has a hard row left among whose literals it has its own: the row that dropped it, or,
when that one is dropped later, the row that dropped that one (`KeptSubset`). A hard row left was
present at its turn, so every other row including its literals was dropped then
(`subsumedPositions_covers`): no row left includes the literals of another hard row left.

Main statement: `subsume_drops_exactly_subsumed`.
-/

namespace MaxSatPrep

namespace Engine

open Session (intOf)

/-! ## Literal sets -/

theorem subsetOf_iff {a b : List Datum} (ha : ∀ d ∈ a, IsLit d) (hb : ∀ d ∈ b, IsLit d) :
    subsetOf a b = true ↔ a ⊆ b := by
  refine ⟨subsetOf_ints ha hb, fun hsub => List.all_eq_true.2 (fun d hd => ?_)⟩
  obtain ⟨z, -, rfl⟩ := ha d hd
  have hb' : b = (b.map intOf).map Datum.int := (ints_map_int hb).symm
  rw [hb', Datum.memberOf_ints, decide_eq_true_eq]
  exact List.mem_map.2 ⟨.int z, hsub hd, rfl⟩

/-! ## The positions one hard row drops -/

/-- A fold that appends each position passing a test, unless it is listed already, lists the
positions it started with and those that pass. -/
theorem mem_foldl_appendNew {P : Nat → Prop} [DecidablePred P] (xs acc : List Nat) {j : Nat} :
    j ∈ xs.foldl (fun acc x => if P x ∧ x ∉ acc then acc ++ [x] else acc) acc ↔
      j ∈ acc ∨ (j ∈ xs ∧ P j) := by
  induction xs generalizing acc with
  | nil => simp
  | cons x xs ih =>
    rw [List.foldl_cons, ih]
    by_cases hx : P x ∧ x ∉ acc
    · rw [if_pos hx]
      simp only [List.mem_append, List.mem_cons, List.not_mem_nil, or_false]
      constructor
      · rintro ((h | rfl) | h)
        · exact .inl h
        · exact .inr ⟨.inl rfl, hx.1⟩
        · exact .inr ⟨.inr h.1, h.2⟩
      · rintro (h | ⟨rfl | h, hp⟩)
        · exact .inl (.inl h)
        · exact .inl (.inr rfl)
        · exact .inr ⟨h, hp⟩
    · rw [if_neg hx]
      simp only [List.mem_cons]
      constructor
      · rintro (h | h)
        · exact .inl h
        · exact .inr ⟨.inr h.1, h.2⟩
      · rintro (h | ⟨rfl | h, hp⟩)
        · exact .inl h
        · exact .inl (by by_contra hn; exact hx ⟨hp, hn⟩)
        · exact .inr ⟨h, hp⟩

/-- **One hard row's turn.** The row at `i`, if it is still present, drops every other row whose
literals include its own; the positions dropped before stay dropped. -/
theorem mem_removeSupersets {rows : List Row} {i j : Nat} {gone : List Nat} :
    j ∈ removeSupersets rows i gone ↔
      j ∈ gone ∨ (i ∉ gone ∧ j ≠ i ∧ ∃ ri rj, rows[i]? = some ri ∧ rows[j]? = some rj ∧
        subsetOf ri.lits rj.lits = true) := by
  unfold removeSupersets
  by_cases hi : i ∈ gone
  · simp [hi]
  rw [if_neg (by simpa using hi)]
  cases hri : rows[i]? with
  | none => simp
  | some ri =>
    have hstep : (fun acc j => if (j != i && !acc.contains j &&
        (rows[j]?.map (fun rj => subsetOf ri.lits rj.lits)).getD false) = true then acc ++ [j] else acc) =
        (fun acc x => if (x ≠ i ∧ (rows[x]?.map (fun rj => subsetOf ri.lits rj.lits)).getD false = true) ∧
          x ∉ acc then acc ++ [x] else acc) := by
      funext acc x
      simp only [Bool.and_eq_true, bne_iff_ne, ne_eq, Bool.not_eq_eq_eq_not, Bool.not_true,
        List.contains_eq_mem, decide_eq_false_iff_not]
      congr 1
      exact propext ⟨fun ⟨⟨h1, h2⟩, h3⟩ => ⟨⟨h1, h3⟩, h2⟩, fun ⟨⟨h1, h3⟩, h2⟩ => ⟨⟨h1, h2⟩, h3⟩⟩
    dsimp only
    rw [hstep, mem_foldl_appendNew]
    apply or_congr_right
    constructor
    · rintro ⟨-, hji, hsub⟩
      cases hrj : rows[j]? with
      | none => simp [hrj] at hsub
      | some rj => exact ⟨hi, hji, ri, rj, rfl, rfl, by simpa [hrj] using hsub⟩
    · rintro ⟨-, hji, ri', rj, hri', hrj, hsub⟩
      cases hri'
      exact ⟨List.mem_range.2 (List.getElem?_eq_some_iff.1 hrj).1, hji, by simp [hrj, hsub]⟩

/-! ## All the turns -/

section Turns

variable {rows : List Row}

theorem removeSupersets_foldl_extends (order acc : List Nat) :
    acc <+: order.foldl (fun acc i => removeSupersets rows i acc) acc :=
  prefix_foldl (fun acc i => removeSupersets_prefix rows i acc) order acc

theorem foldl_removeSupersets_row (order : List Nat) {acc : List Nat}
    (hacc : ∀ j ∈ acc, ∃ r, rows[j]? = some r) :
    ∀ j ∈ order.foldl (fun acc i => removeSupersets rows i acc) acc, ∃ r, rows[j]? = some r := by
  induction order generalizing acc with
  | nil => exact hacc
  | cons i order ih =>
    refine ih (fun j hj => ?_)
    rcases mem_removeSupersets.1 hj with hj | ⟨-, -, -, rj, -, hrj, -⟩
    · exact hacc j hj
    · exact ⟨rj, hrj⟩

/-- **A hard row left drops its supersets.** A hard row that subsumption does not drop was present
at its turn, so every other row whose literals include its own is dropped. -/
theorem subsumedPositions_covers {i : Nat} {h : Row} (hget : rows[i]? = some h) (hw : h.weights = none)
    (hi : i ∉ subsumedPositions rows) {j : Nat} {r : Row} (hr : rows[j]? = some r) (hji : j ≠ i)
    (hsub : subsetOf h.lits r.lits = true) : j ∈ subsumedPositions rows := by
  have hord : i ∈ hardOrder rows := List.mem_mergeSort.2 (mem_hardPositions.2 ⟨h, hget, hw⟩)
  obtain ⟨pre, post, hsplit⟩ := List.append_of_mem hord
  set before := pre.foldl (fun acc k => removeSupersets rows k acc) []
  have hafter : removeSupersets rows i before <+: subsumedPositions rows := by
    unfold subsumedPositions
    rw [hsplit, List.foldl_append, List.foldl_cons]
    exact removeSupersets_foldl_extends post _
  have hturn := removeSupersets_prefix rows i before
  have hbefore : i ∉ before := fun hb => hi (hafter.subset (hturn.subset hb))
  exact hafter.subset (mem_removeSupersets.2 (.inr ⟨hbefore, hji, h, r, hget, hr, hsub⟩))

end Turns

/-! ## Subsumption -/

/-- **Subsumption drops exactly the subsumed rows.** On integer rows subsumption answers, and
keeps the rows in their order but for a set of positions, which it reports as a change exactly
when there is one. Every row dropped includes the literals of a hard row left at another
position; no row left includes the literals of a hard row left at another position. -/
theorem subsume_drops_exactly_subsumed {e : Engine} (hlits : ∀ r ∈ e.rows, ∀ d ∈ r.lits, IsLit d) :
    ∃ gone : List Nat,
      subsume.run e = (.ok !gone.isEmpty, { e with rows := dropAt e.rows gone }) ∧
      (∀ j ∈ gone, ∃ r, e.rows[j]? = some r ∧
        ∃ i, i ∉ gone ∧ i ≠ j ∧ ∃ h, e.rows[i]? = some h ∧ h.weights = none ∧ h.lits ⊆ r.lits) ∧
      ∀ i j, i ∉ gone → j ∉ gone → i ≠ j → ∀ h r, e.rows[i]? = some h → e.rows[j]? = some r →
        h.weights = none → ¬ h.lits ⊆ r.lits := by
  have hkept : KeptSubset e.rows (subsumedPositions e.rows) :=
    List.foldlRecOn _ _ (keptSubset_nil e.rows)
      (fun _ hacc _ hk => hacc.removeSupersets hlits (hardOrder_hard hk))
  refine ⟨subsumedPositions e.rows, subsume_run hlits, fun j hj => ?_, ?_⟩
  · obtain ⟨r, hr⟩ := foldl_removeSupersets_row (hardOrder e.rows) (by simp) j hj
    obtain ⟨i, hi, h, hget, hw, hsub⟩ := hkept j hj r hr
    exact ⟨r, hr, i, hi, fun hij => hi (hij ▸ hj), h, hget, hw, hsub⟩
  · intro i j hi hj hij h r hget hr hw hsub
    have hsub' := (subsetOf_iff (hlits h (List.mem_of_getElem? hget))
      (hlits r (List.mem_of_getElem? hr))).2 hsub
    exact hj (subsumedPositions_covers hget hw hi hr (Ne.symm hij) hsub')

/-- Subsumption on the hard rows `x1 ∨ x2` and `x1 ∨ x2 ∨ x4` and the soft rows `x1 ∨ x2 ∨ x3`
and `x3`, as the general statement says. -/
theorem subsumption_by_hard_rows :
    let e : Engine :=
      { top := .int 4, inprocessing := false, finalized := true, nObj := .int 1, removed := [.int 0],
        rows := [⟨[.int 1, .int 2], none, false⟩, ⟨[.int 1, .int 2, .int 4], none, false⟩,
          ⟨[.int 1, .int 2, .int 3], some [.int 2], false⟩, ⟨[.int 3], some [.int 1], true⟩] }
    (∀ r ∈ e.rows, ∀ d ∈ r.lits, IsLit d) ∧
    ∃ gone : List Nat,
      subsume.run e = (.ok !gone.isEmpty, { e with rows := dropAt e.rows gone }) ∧
      (∀ j ∈ gone, ∃ r, e.rows[j]? = some r ∧
        ∃ i, i ∉ gone ∧ i ≠ j ∧ ∃ h, e.rows[i]? = some h ∧ h.weights = none ∧ h.lits ⊆ r.lits) ∧
      ∀ i j, i ∉ gone → j ∉ gone → i ≠ j → ∀ h r, e.rows[i]? = some h → e.rows[j]? = some r →
        h.weights = none → ¬ h.lits ⊆ r.lits := by
  intro e
  have hlits : ∀ r ∈ e.rows, ∀ d ∈ r.lits, IsLit d := by simp [e]
  exact ⟨hlits, subsume_drops_exactly_subsumed hlits⟩

end Engine

end MaxSatPrep
