import MaxSatPrep.Proofs.SoftReadback
/-!
Edits of a finalized engine: one spec lemma per edit, giving the engine it leaves and the answer
it gives. Each edit is refused on a guard of its own (a frozen engine, an unknown variable, a
literal already labelled, a top weight past 64 bits) and a refused edit leaves the engine as it
was; the lemmas name the guard and the state in one `if`.

Label rows are looked up by their literal. Under `UnitLabels` (every label row holds one integer
literal) the lookups do not fail, and `labelLits` and `labelPos` say what they read.
-/

namespace MaxSatPrep

open Session (intOf)

/-! ## Label rows -/

/-- the literal of a label row: its first -/
def Row.labelLit (r : Row) : Int := intOf (r.lits.headD (.int 0))

/-- the weight a label row carries in its objective -/
def Row.labelWeight (r : Row) : Int :=
  intOf ((r.weights.getD []).getD (Engine.labelObjective (r.weights.getD [])) (.int 0))

/-- a label row with its weight in its objective replaced -/
def Row.reweigh (r : Row) (w : Int) : Row :=
  { r with weights := some ((r.weights.getD []).set (Engine.labelObjective (r.weights.getD [])) (.int w)) }

/-- every label row holds one integer literal -/
def UnitLabels (rows : List Row) : Prop := ∀ r ∈ rows, r.label = true → ∃ z : Int, r.lits = [.int z]

/-- the literals of the label rows, in row order -/
def labelLits (rows : List Row) : List Int := (rows.filter (·.label)).map Row.labelLit

/-- the position of the first label row of a literal -/
def labelPos (rows : List Row) (z : Int) : Option Nat :=
  rows.findIdx? (fun r => r.label && decide (r.labelLit = z))

theorem UnitLabels.tail {r : Row} {rows : List Row} (h : UnitLabels (r :: rows)) : UnitLabels rows :=
  fun r' hr' => h r' (List.mem_cons_of_mem _ hr')

namespace Engine

theorem succ_shift (i : Nat) : ((fun x => x + i) ∘ fun x => x + 1) = fun x => x + (i + 1) := by
  funext x
  simp only [Function.comp]
  omega

theorem labelsOf_eq {rows : List Row} (h : UnitLabels rows) :
    labelsOf rows = .ok ((labelLits rows).map .int) := by
  induction rows with
  | nil => rfl
  | cons r rows ih =>
    cases hlab : r.label
    · simp [labelsOf, hlab, ih h.tail, labelLits]
    · obtain ⟨z, hz⟩ := h r (by simp) hlab
      simp [labelsOf, hlab, hz, ih h.tail, labelLits, Row.labelLit, bind, Except.bind, pure, Except.pure]

theorem labelIndex_eq {rows : List Row} (h : UnitLabels rows) (z : Int) (i : Nat) :
    labelIndex (.int z) rows i = .ok ((labelPos rows z).map (· + i)) := by
  induction rows generalizing i with
  | nil => rfl
  | cons r rows ih =>
    cases hlab : r.label
    · simp only [labelIndex, hlab, Bool.false_eq_true, if_false, ih h.tail, labelPos, List.findIdx?_cons,
        Bool.false_and, Option.map_map]
      rw [succ_shift]
    · obtain ⟨a, ha⟩ := h r (by simp) hlab
      simp only [labelIndex, hlab, if_true, ha, Datum.numEq_int, labelPos, List.findIdx?_cons, Bool.true_and,
        Row.labelLit, List.headD_cons, Session.intOf_int]
      by_cases haz : a = z
      · simp [haz]
      · simp only [haz, decide_false, Bool.false_eq_true, if_false, ih h.tail, labelPos, Option.map_map,
          Row.labelLit]
        rw [succ_shift]

theorem labelRow?_eq {e : Engine} (hl : UnitLabels e.rows) (z : Int) :
    e.labelRow? (.int z) = .ok (labelPos e.rows z) := by
  simp [labelRow?, labelIndex_eq hl]

theorem labelObjective_lt {ws : List Datum} (h : ws ≠ []) : labelObjective ws < ws.length := by
  unfold labelObjective
  cases hf : ws.findIdx? Datum.truthy with
  | none => simpa using List.length_pos_of_ne_nil h
  | some k => simpa using List.findIdx?_eq_some_iff_getElem.1 hf |>.1

/-! ## Counts and positions inside the machine words -/

theorem zeros_ok {k : Int} (h0 : -1 ≤ k) (hk : k ≤ Datum.repeatLimit) :
    Datum.zeros (.int k) = .ok (List.replicate k.toNat (.int 0)) := by
  have hw : ¬ (Datum.wordBound ≤ k ∨ k < -Datum.wordBound) := by
    simp only [Datum.wordBound, Datum.repeatLimit] at hk ⊢
    norm_num at hk ⊢
    omega
  simp [Datum.zeros, Datum.wholeOf?, hw, not_lt.2 hk]

theorem itemAt_lt {α : Type} {xs : List α} {j : Nat} (hj : j < xs.length)
    (hw : (j : Int) < Datum.wordBound) : Datum.itemAt xs (.int j) = .ok xs[j] := by
  have hpos : Datum.position (.int j) xs.length = .ok j := by
    have hword : ¬ (Datum.wordBound ≤ (j : Int) ∨ (j : Int) < -Datum.wordBound) := by
      simp only [Datum.wordBound] at hw ⊢
      omega
    have hj' : (j : Int) < xs.length := by exact_mod_cast hj
    have h0 : ¬ ((j : Int) < 0) := by omega
    simp [Datum.position, Datum.wholeOf?, hword, h0, hj']
  simp [Datum.itemAt, hpos, List.getElem?_eq_getElem hj, bind, Except.bind, pure, Except.pure]

/-! ## Variables and clauses -/

theorem addVar_run {e : Engine} {m : Int} (hm : e.maxVar = .int m) :
    addVar.run e = if e.mutable then (.ok (.int (m + 1)), { e with maxVar := .int (m + 1) })
      else (.ok (.int 0), e) := by
  cases hmut : e.mutable <;>
    simp only [addVar, EngineM.run_bind, EngineM.run_get, hmut, hm, Bool.not_false, Bool.not_true,
      if_true, if_false, Bool.false_eq_true, EngineM.run_pure, EngineM.run_lift, Datum.plus_int, EngineM.run_set]

/-- Streaming the literals of a clause to add puts them after the buffered ones. -/
theorem addLits_run (c : List Lit) (e : Engine) :
    (c.forM (fun l => do let _ ← addLit (.int l.toInt); pure ())).run e =
      (.ok (), { e with addBuffer := e.addBuffer ++ litData c }) := by
  induction c generalizing e with
  | nil => simp [litData]
  | cons l c ih =>
    have hnz : Datum.numEq (.int l.toInt) (.int 0) = false := by simpa using Lit.toInt_ne_zero l
    have hcons : (l :: c).forM (fun l => do let _ ← addLit (.int l.toInt); pure ()) =
        ((do let _ ← addLit (.int l.toInt); pure ()) >>=
          fun _ => c.forM (fun l => do let _ ← addLit (.int l.toInt); pure ())) := rfl
    have hone : (do let _ ← addLit (.int l.toInt); pure () : EngineM Unit).run e =
        (.ok (), { e with addBuffer := e.addBuffer ++ [.int l.toInt] }) := by
      simp only [addLit, EngineM.run_bind, EngineM.run_get, hnz, Bool.not_false, if_true, EngineM.run_set,
        EngineM.run_pure]
    rw [hcons, EngineM.run_bind_ok hone, ih]
    simp [litData]

/-- **Adding a clause.** With nothing buffered, streaming a clause and its end adds it as a hard
row when the engine is mutable and knows all its variables, and otherwise leaves the engine as
it was. -/
theorem addClause_run {e : Engine} {m : Int} (hm : e.maxVar = .int m) (hbuf : e.addBuffer = [])
    (c : List Lit) :
    (do c.forM (fun l => do let _ ← addLit (.int l.toInt); pure ()); addLit (.int 0)).run e =
      if e.mutable ∧ ∀ l ∈ c, (l.var : Int) ≤ m then
        (.ok true, { e with rows := e.rows ++ [streamedRow c none] })
      else (.ok false, e) := by
  have hzero : Datum.numEq (.int 0) (.int 0) = true := by simp
  have hback : ({ e with addBuffer := [] } : Engine) = e := by rw [← hbuf]
  have hbeyond : (litData c).anyM (beyondVars { e with addBuffer := litData c }) =
      .ok (c.any (fun l => decide (m < l.var))) := by
    rw [litData, Outcome.anyM_ok (q := fun d => decide (m < (intOf d).natAbs))]
    · simp only [List.any_map, Function.comp_def, Session.intOf_int, Lit.natAbs_toInt]
    · intro d hd
      obtain ⟨l, -, rfl⟩ := List.mem_map.1 hd
      simp [beyondVars, hm, bind, Except.bind]
  have hmut : ({ e with addBuffer := litData c } : Engine).mutable = e.mutable := rfl
  rw [EngineM.run_bind_ok (addLits_run c e), hbuf, List.nil_append]
  simp only [addLit, EngineM.run_bind, EngineM.run_get, hzero, Bool.not_true, Bool.false_eq_true, if_false,
    EngineM.run_set, EngineM.run_lift, hbeyond, EngineM.run_ite, EngineM.run_pure, EngineM.run_modify, hmut,
    hback]
  by_cases hc : e.mutable ∧ ∀ l ∈ c, (l.var : Int) ≤ m
  · have hany : (c.any fun l => decide (m < l.var)) = false := by simpa using hc.2
    conv_rhs => rw [if_pos hc]
    simp [hc.1, hany, streamedRow, litData, hbuf]
  · rw [if_neg hc]
    split_ifs with g1 g2
    any_goals rfl
    refine absurd ⟨?_, ?_⟩ hc <;> simp_all

/-! ## Labels -/

/-- the row of a new label: its literal, with its weight in the first objective and zero in the
others -/
def labelRow (z w : Int) (n : Nat) : Row :=
  { lits := [.int z], weights := some (.int w :: List.replicate (n - 1) (.int 0)), label := true }

/-- **Adding a label.** A label on a known variable that no label row uses yet, with objectives
to weigh it in and room under the 64-bit top weight, is appended as a label row and raises the
top weight by its weight; otherwise the engine is left as it was and the answer is zero. -/
theorem addLabel_run {e : Engine} {n : Nat} {m t : Int} (hn : e.nObj = .int n)
    (hbound : (n : Int) ≤ Datum.repeatLimit) (hm : e.maxVar = .int m) (ht : e.top = .int t)
    (hl : UnitLabels e.rows) (z w : Int) :
    (addLabel (.int z) (.int w)).run e =
      if e.mutable ∧ n ≠ 0 ∧ z ≠ 0 ∧ (z.natAbs : Int) ≤ m ∧
          (∀ x ∈ labelLits e.rows, x.natAbs ≠ z.natAbs) ∧ t + w ≤ u64Max then
        (.ok (.int z), { e with rows := e.rows ++ [labelRow z w n], top := .int (t + w) })
      else (.ok (.int 0), e) := by
  have hlabels : e.labels = .ok ((labelLits e.rows).map .int) := labelsOf_eq hl
  have htaken : ((labelLits e.rows).map Datum.int).anyM (fun m' => do
      pure (Datum.numEq (← Datum.magnitude m') (← Datum.magnitude (.int z)))) =
      .ok ((labelLits e.rows).any (fun x => x.natAbs = z.natAbs)) := by
    rw [Outcome.anyM_ok (q := fun m' => decide ((intOf m').natAbs = z.natAbs))]
    · simp [Function.comp_def]
      rfl
    · intro x hx
      obtain ⟨a, -, rfl⟩ := List.mem_map.1 hx
      simp only [Datum.magnitude_int, Datum.numEq_int, bind, Except.bind, pure, Except.pure, Session.intOf_int,
        Nat.cast_inj]
      rfl
  have hbeyond : e.beyondVars (.int z) = .ok (decide (m < z.natAbs)) := by
    simp [beyondVars, hm, bind, Except.bind]
  have hpad : (do Datum.zeros (← Datum.minus (.int n) (.int 1)) : Outcome (List Datum)) =
      .ok (List.replicate (n - 1) (.int 0)) := by
    simp only [Datum.minus_int, bind, Except.bind]
    rw [zeros_ok (by omega) (by omega)]
    congr 2
    omega
  unfold addLabel
  simp only [EngineM.run_bind, EngineM.run_get, hn, Datum.numEq_int, EngineM.run_lift, hbeyond, hlabels, htaken,
    ht, Datum.plus_int, Datum.greater_int, hpad, EngineM.run_ite, EngineM.run_pure, EngineM.run_set]
  by_cases hc : e.mutable ∧ n ≠ 0 ∧ z ≠ 0 ∧ (z.natAbs : Int) ≤ m ∧
      (∀ x ∈ labelLits e.rows, x.natAbs ≠ z.natAbs) ∧ t + w ≤ u64Max
  · obtain ⟨h1, h2, h3, h4, h5, h6⟩ := hc
    have g1 : (!e.mutable || decide ((n : Int) = 0) || decide (z = 0)) = false := by simp [h1, h2, h3]
    have g2 : decide (m < (z.natAbs : Int)) = false := decide_eq_false (not_lt.2 h4)
    have g3 : (labelLits e.rows).any (fun x => decide (x.natAbs = z.natAbs)) = false := by simpa using h5
    have g4 : decide (u64Max < t + w) = false := decide_eq_false (not_lt.2 h6)
    conv_rhs => rw [if_pos ⟨h1, h2, h3, h4, h5, h6⟩]
    simp only [g1, g2, g3, g4, Bool.false_eq_true, if_false]
    rfl
  · rw [if_neg hc]
    split_ifs with g1 g2 g3 g4
    any_goals rfl
    refine absurd ⟨?_, ?_, ?_, ?_, ?_, ?_⟩ hc <;> simp_all

theorem alterWeight_absent {e : Engine} (hl : UnitLabels e.rows) {z : Int} (h : labelPos e.rows z = none)
    (w : Datum) : (alterWeight (.int z) w).run e = (.ok false, e) := by
  simp only [alterWeight, EngineM.run_bind, EngineM.run_get, EngineM.run_lift, labelRow?_eq hl, h,
    EngineM.run_pure]

theorem alterWeight_frozen {e : Engine} (hl : UnitLabels e.rows) (hmut : e.mutable = false) (z : Int)
    (w : Datum) : (alterWeight (.int z) w).run e = (.ok false, e) := by
  cases h : labelPos e.rows z with
  | none => exact alterWeight_absent hl h w
  | some i =>
    simp only [alterWeight, EngineM.run_bind, EngineM.run_get, EngineM.run_lift, labelRow?_eq hl, h, hmut,
      Bool.not_false, if_true, EngineM.run_pure]

/-- **Changing a label's weight.** On the label row found, a new weight replaces the old one in
its objective; a raise lifts the top weight by the difference and is refused, leaving the
engine as it was, when that passes 64 bits. -/
theorem alterWeight_found {e : Engine} {t : Int} (ht : e.top = .int t) (hl : UnitLabels e.rows) {z : Int}
    {i : Nat} (hpos : labelPos e.rows z = some i) (hmut : e.mutable = true) {r : Row}
    (hr : e.rows[i]? = some r) {ws : List Datum} (hws : r.weights = some ws) (hne : ws ≠ [])
    (hlen : (ws.length : Int) ≤ Datum.wordBound) (hints : ∀ x ∈ ws, ∃ k : Int, x = .int k) (w : Int) :
    (alterWeight (.int z) (.int w)).run e =
      if r.labelWeight < w ∧ u64Max < t + w - r.labelWeight then (.ok false, e)
      else (.ok true, { e with
        rows := e.rows.set i (r.reweigh w)
        top := .int (if r.labelWeight < w then t + (w - r.labelWeight) else t) }) := by
  have hj := labelObjective_lt hne
  obtain ⟨k, hk⟩ := hints _ (List.getElem_mem hj)
  have hold : Datum.itemAt ws (.int (labelObjective ws)) = .ok (.int k) := by
    rw [itemAt_lt hj (by omega), hk]
  have hweight : r.labelWeight = k := by
    simp [Row.labelWeight, hws, List.getD_eq_getElem?_getD, List.getElem?_eq_getElem hj, hk]
  simp only [alterWeight, EngineM.run_bind, EngineM.run_get, EngineM.run_lift, labelRow?_eq hl, hpos, hmut,
    Bool.not_true, Bool.false_eq_true, if_false, hr, hws, Option.getD_some, hold, Datum.greater_int,
    EngineM.run_ite, ht, Datum.plus_int, Datum.minus_int, EngineM.run_pure, EngineM.run_set, hweight]
  simp only [bind, Except.bind, Datum.minus_int, Datum.plus_int, Datum.greater_int]
  by_cases hkw : k < w
  · by_cases hover : u64Max < t + w - k
    · simp [hkw, hover]
    · simp [hkw, hover, Row.reweigh, hws]
  · simp [hkw, Row.reweigh, hws]

theorem labelToVar_run {e : Engine} (hl : UnitLabels e.rows) (z : Int) :
    (labelToVar (.int z)).run e = (labelPos e.rows z).elim (.ok false, e)
      (fun i => if e.mutable then (.ok true, { e with rows := e.rows.eraseIdx i }) else (.ok false, e)) := by
  cases h : labelPos e.rows z with
  | none =>
    simp only [labelToVar, EngineM.run_bind, EngineM.run_get, EngineM.run_lift, labelRow?_eq hl, h,
      EngineM.run_pure, Option.elim_none]
  | some i =>
    cases hmut : e.mutable <;>
      simp only [labelToVar, EngineM.run_bind, EngineM.run_get, EngineM.run_lift, labelRow?_eq hl, h, hmut,
        Bool.not_false, Bool.not_true, if_true, if_false, Bool.false_eq_true, EngineM.run_pure,
        EngineM.run_set, Option.elim_some]

/-! ## The removed weight -/

theorem resetRemovedWeight_run {e : Engine} {n : Nat} (hn : e.nObj = .int n)
    (hbound : (n : Int) ≤ Datum.repeatLimit) :
    resetRemovedWeight.run e =
      if e.finalized then (.ok true, { e with removed := List.replicate n (.int 0) }) else (.ok false, e) := by
  have hz : Datum.zeros (.int n) = .ok (List.replicate n (.int 0)) := by
    rw [zeros_ok (by omega) hbound, Int.toNat_natCast]
  cases hfin : e.finalized <;>
    simp only [resetRemovedWeight, EngineM.run_bind, EngineM.run_get, hfin, Bool.not_false, Bool.not_true,
      if_true, if_false, Bool.false_eq_true, EngineM.run_pure, EngineM.run_lift, hn, hz, EngineM.run_set]

end Engine

end MaxSatPrep
