import MaxSatPrep.Proofs.Blocking
/-!
Blocked clause elimination records only rows that are blocked when it eliminates them. The pass
visits the hard rows in order; a row is eliminated on the first of its literals whose variable no
soft row mentions and against which every other hard row not yet eliminated gives a
tautological resolvent. Each elimination is recorded as an event with the row's literals and that
literal. The check runs against the rows as they stand at the row's turn, so a row eliminated
earlier no longer counts against a later one (`Elimination.Genuine`).

Main statement: `eliminateBlocked_records_blocked`.
-/

namespace MaxSatPrep

namespace Engine

open Session (intOf)

/-- one elimination of the pass: the position of a hard row, the row, and the literal it is
blocked on -/
structure Elimination where
  pos : Nat
  row : Row
  lit : Datum

/-- the trace event that records an elimination -/
def Elimination.event (x : Elimination) : Event := .blocked x.row.lits x.lit

/-- An elimination made after the positions `before` were eliminated is genuine: the row at its
position is hard and holds the literal, no soft row mentions the literal's variable, and every
other hard row not eliminated before that holds the literal's negation also holds the negation of
another literal of the row. -/
structure Elimination.Genuine (rows : List Row) (before : List Nat) (x : Elimination) : Prop where
  row : rows[x.pos]? = some x.row
  hard : x.row.weights = none
  mem : x.lit ∈ x.row.lits
  free : ∀ r ∈ rows, r.weights ≠ none → ∀ d ∈ r.lits, (intOf d).natAbs ≠ (intOf x.lit).natAbs
  blocked : ∀ j D, rows[j]? = some D → D.weights = none → j ≠ x.pos → j ∉ before →
    -intOf x.lit ∈ D.ints → ∃ m ∈ x.row.ints, m ≠ intOf x.lit ∧ -m ∈ D.ints

theorem not_mem_softMagnitudes {rows : List Row} {b : Datum}
    (h : ((intOf b).natAbs : Int) ∉ (softMagnitudes rows).map intOf) :
    ∀ r ∈ rows, r.weights ≠ none → ∀ d ∈ r.lits, (intOf d).natAbs ≠ (intOf b).natAbs := by
  intro r hr hw d hd heq
  have hsoftRow : r ∈ rows.filter (fun r => !r.hard) :=
    List.mem_filter.2 ⟨hr, by cases h' : r.weights <;> simp_all [Row.hard]⟩
  apply h
  simp only [softMagnitudes, List.map_map]
  exact List.mem_map.2 ⟨d, List.mem_flatMap.2 ⟨r, hsoftRow, hd⟩,
    by simp only [Function.comp, Session.intOf_int, heq]⟩

theorem BlockedAt.hardRows {rows : List Row} {gone : List Nat} {i : Nat} {c : List Int} {b : Int}
    (h : BlockedAt rows (hardPositions rows) gone i c b) :
    ∀ j D, rows[j]? = some D → D.weights = none → j ≠ i → j ∉ gone →
      -b ∈ D.ints → ∃ m ∈ c, m ≠ b ∧ -m ∈ D.ints :=
  fun j D hD hw hji hjg => h j (mem_hardPositions.2 ⟨D, hD, hw⟩) hji hjg D hD

/-- **The pass records genuine eliminations.** Visiting hard positions after the eliminations
`pre`, the pass does not fail; it appends eliminations `post`, at positions it visits, in the order
it visits them, each genuine against the positions eliminated before it. -/
theorem blockedPass_eliminations {rows : List Row} (hrows : ∀ r ∈ rows, ∀ d ∈ r.lits, IsLit d)
    (is : List Nat) (his : ∀ i ∈ is, i ∈ hardPositions rows) (pre : List Elimination) :
    ∃ post : List Elimination,
      blockedPass rows (hardPositions rows) (softMagnitudes rows) is (pre.map Elimination.pos)
          (pre.map Elimination.event) =
        ((pre ++ post).map Elimination.pos, (pre ++ post).map Elimination.event, none) ∧
      (post.map Elimination.pos).Sublist is ∧
      ∀ a x b, post = a ++ x :: b → x.Genuine rows ((pre ++ a).map Elimination.pos) := by
  have hsoft : ∀ d ∈ softMagnitudes rows, ∃ k : Int, d = .int k := by
    intro d hd
    obtain ⟨x, -, rfl⟩ := List.mem_map.1 hd
    exact ⟨_, rfl⟩
  induction is generalizing pre with
  | nil => exact ⟨[], by simp [blockedPass], by simp, by simp⟩
  | cons i is ih =>
    have his' : ∀ x ∈ is, x ∈ hardPositions rows := fun x hx => his x (by simp [hx])
    have skip : blockedPass rows (hardPositions rows) (softMagnitudes rows) (i :: is)
          (pre.map Elimination.pos) (pre.map Elimination.event) =
        blockedPass rows (hardPositions rows) (softMagnitudes rows) is (pre.map Elimination.pos)
          (pre.map Elimination.event) →
        ∃ post : List Elimination,
          blockedPass rows (hardPositions rows) (softMagnitudes rows) (i :: is)
              (pre.map Elimination.pos) (pre.map Elimination.event) =
            ((pre ++ post).map Elimination.pos, (pre ++ post).map Elimination.event, none) ∧
          (post.map Elimination.pos).Sublist (i :: is) ∧
          ∀ a x b, post = a ++ x :: b → x.Genuine rows ((pre ++ a).map Elimination.pos) := by
      intro heq
      obtain ⟨post, hpass, hsub, hgen⟩ := ih his' pre
      exact ⟨post, heq.trans hpass, hsub.cons i, hgen⟩
    cases hget : rows[i]? with
    | none => exact skip (by simp only [blockedPass, hget])
    | some r =>
      have hr := hrows r (List.mem_of_getElem? hget)
      obtain ⟨o, ho, hspec⟩ := firstBlocking_int hrows hr hsoft (hardPositions rows)
        (pre.map Elimination.pos) i hr
      cases o with
      | none => exact skip (by simp only [blockedPass, hget, ho])
      | some lit =>
        obtain ⟨hlit, hfree, hblk⟩ := hspec lit rfl
        let x : Elimination := ⟨i, r, lit⟩
        have hw : r.weights = none := by
          obtain ⟨r', hr', hw⟩ := mem_hardPositions.1 (his i (by simp))
          rw [hget] at hr'
          cases hr'
          exact hw
        have hx : x.Genuine rows (pre.map Elimination.pos) :=
          ⟨hget, hw, hlit, not_mem_softMagnitudes hfree, hblk.hardRows⟩
        obtain ⟨post, hpass, hsub, hgen⟩ := ih his' (pre ++ [x])
        refine ⟨x :: post, ?_, hsub.cons_cons i, fun a y b hab => ?_⟩
        · simp only [blockedPass, hget, ho]
          simpa [x, Elimination.event] using hpass
        · cases a with
          | nil =>
            obtain ⟨rfl, -⟩ := List.cons.inj hab
            simpa using hx
          | cons z a =>
            simp only [List.cons_append, List.cons.injEq] at hab
            obtain ⟨rfl, hab⟩ := hab
            simpa using hgen a y b hab

theorem hardPositions_pairwise (rows : List Row) : (hardPositions rows).Pairwise (· < ·) :=
  (List.pairwise_lt_range).filter _

/-- **Blocked clause elimination records only blocked rows.** On integer rows the elimination
does not fail. An inprocessing engine answers that nothing changed and keeps its state. Any other
engine eliminates hard rows at increasing positions, keeps the other rows in their order, appends
one event per elimination, in the order of the eliminations, with the row's literals and the
literal it is blocked on, and reports a change exactly when it eliminated a row. Each elimination
is genuine against the rows not eliminated before it. -/
theorem eliminateBlocked_records_blocked {e : Engine} (hlits : ∀ r ∈ e.rows, ∀ d ∈ r.lits, IsLit d) :
    (e.inprocessing = true → eliminateBlocked.run e = (.ok false, e)) ∧
    (e.inprocessing = false → ∃ elims : List Elimination,
      eliminateBlocked.run e = (.ok !elims.isEmpty,
        { e with rows := dropAt e.rows (elims.map Elimination.pos),
                 trace := e.trace ++ elims.map Elimination.event }) ∧
      (elims.map Elimination.pos).Pairwise (· < ·) ∧
      ∀ pre x post, elims = pre ++ x :: post → x.Genuine e.rows (pre.map Elimination.pos)) := by
  refine ⟨fun hin => by rw [eliminateBlocked_run hlits, if_pos hin], fun hin => ?_⟩
  obtain ⟨elims, hpass, hsub, hgen⟩ := blockedPass_eliminations hlits (hardPositions e.rows)
    (fun i hi => hi) []
  have hout : blockedOut e.rows = (elims.map Elimination.pos, elims.map Elimination.event) := by
    simp only [List.map_nil, List.nil_append] at hpass
    simp only [blockedOut, hpass]
  refine ⟨elims, ?_, (hardPositions_pairwise e.rows).sublist hsub, fun pre x post h => ?_⟩
  · rw [eliminateBlocked_run hlits, if_neg (by simp [hin]), hout]
    simp
  · simpa using hgen pre x post h

/-- Blocked clause elimination on the hard row `x1 ∨ x2` beside the soft row `x3`, as the general
statement says. -/
theorem elimination_beside_soft_unit :
    let e : Engine :=
      { top := .int 2, inprocessing := false, finalized := true, nObj := .int 1, removed := [.int 0],
        rows := [⟨[.int 1, .int 2], none, false⟩, ⟨[.int 3], some [.int 1], true⟩] }
    (∀ r ∈ e.rows, ∀ d ∈ r.lits, IsLit d) ∧
    (e.inprocessing = true → eliminateBlocked.run e = (.ok false, e)) ∧
    (e.inprocessing = false → ∃ elims : List Elimination,
      eliminateBlocked.run e = (.ok !elims.isEmpty,
        { e with rows := dropAt e.rows (elims.map Elimination.pos),
                 trace := e.trace ++ elims.map Elimination.event }) ∧
      (elims.map Elimination.pos).Pairwise (· < ·) ∧
      ∀ pre x post, elims = pre ++ x :: post → x.Genuine e.rows (pre.map Elimination.pos)) := by
  intro e
  have hlits : ∀ r ∈ e.rows, ∀ d ∈ r.lits, IsLit d := by simp [e]
  exact ⟨hlits, eliminateBlocked_records_blocked hlits⟩

end Engine

end MaxSatPrep
