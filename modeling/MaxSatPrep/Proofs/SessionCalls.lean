import MaxSatPrep.Proofs.Shape
/-!
The incremental calls of an open session, one equation each. A call checks its arguments first
(a literal; a weight that is a natural number within 64 bits), then runs on the engine and
raises when the engine refuses: `RejectedError` for a variable, a clause or a label, and
`UnknownLabelError` for a label to reweigh or to turn back into a variable. The equations hold
on a session that is `Ready`: open, free, and with its engine in shape.
-/

namespace MaxSatPrep

open Session (intOf)

/-! ## Failures and arguments -/

theorem Cause.fail_cases (c : Cause) : c.fail = ⟨c.kind, c⟩ ∨ c.fail = ⟨.value, .longIntText⟩ := by
  unfold Cause.fail
  split
  · exact .inr rfl
  · exact .inl rfl

theorem Datum.longInt_eq_false_iff (n : Int) :
    Datum.longInt n = false ↔ n.natAbs < 10 ^ Datum.writableDigits := by
  simp only [Datum.longInt, decide_eq_false_iff_not, not_lt]
  exact Nat.length_repr_le_iff (by decide)

theorem Cause.fail_writing {c : Cause} {n : Int} (hw : c.writesLongInt = Datum.longInt n) :
    c.fail = if n.natAbs < 10 ^ Datum.writableDigits then ⟨c.kind, c⟩ else ⟨.value, .longIntText⟩ := by
  unfold Cause.fail
  rw [hw]
  by_cases h : n.natAbs < 10 ^ Datum.writableDigits
  · rw [if_pos h, (Datum.longInt_eq_false_iff n).2 h]
    rfl
  · have hl : Datum.longInt n = true := by simpa using mt (Datum.longInt_eq_false_iff n).1 h
    rw [if_neg h, hl]
    rfl

namespace Lit

/-- A literal argument is a non-zero integer. -/
theorem ofDatum_eq_ok {d : Datum} {l : Lit} : ofDatum d = .ok l ↔ d = .int l.toInt := by
  constructor
  · intro h
    cases d with
    | int z =>
      simp only [ofDatum, decode] at h
      cases hz : ofInt? z with
      | none => simp [hz, Except.mapError, refuse] at h
      | some l' =>
        simp only [hz, Except.mapError, Except.ok.injEq] at h
        subst h
        rw [toInt_of_ofInt? hz]
    | _ => simp [ofDatum, refuse] at h
  · rintro rfl
    simp [ofDatum, decode, ofInt?_toInt, Except.mapError]

theorem ofDatum_error {d : Datum} {f : Failure} (h : ofDatum d = .error f) :
    f.kind = .validation ∨ f = ⟨.value, .longIntText⟩ := by
  cases d with
  | int z =>
    simp only [ofDatum, decode] at h
    cases hz : ofInt? z with
    | none =>
      simp only [hz, refuse, Except.mapError, Except.error.injEq] at h
      exact .inl (h ▸ rfl)
    | some l => simp [hz, Except.mapError] at h
  | _ =>
    simp only [ofDatum, refuse, Except.error.injEq] at h
    subst h
    rcases Cause.fail_cases (.expectedLiteral _) with h' | h' <;> rw [h'] <;> simp [Cause.kind]

end Lit

/-! ## Label lookup -/

/-- the label row of a literal with its position: the first label row whose literal it is -/
def labelEntry (rows : List Row) (z : Int) : Option (Nat × Row) :=
  (labelPos rows z).bind fun i => (rows[i]?).map fun r => (i, r)

section LabelEntry

variable {rows : List Row} {z : Int}

theorem labelEntry_of_labelPos {i : Nat} (h : labelPos rows z = some i) :
    ∃ r, rows[i]? = some r ∧ r.label = true ∧ r.labelLit = z ∧ labelEntry rows z = some (i, r) := by
  obtain ⟨hi, hp, -⟩ := List.findIdx?_eq_some_iff_getElem.1 h
  simp only [Bool.and_eq_true, decide_eq_true_eq] at hp
  refine ⟨rows[i], List.getElem?_eq_getElem hi, hp.1, hp.2, ?_⟩
  simp [labelEntry, h, List.getElem?_eq_getElem hi]

theorem labelEntry_eq_none_of_labelPos (h : labelPos rows z = none) : labelEntry rows z = none := by
  simp [labelEntry, h]

theorem labelEntry_eq_some {i : Nat} {r : Row} (h : labelEntry rows z = some (i, r)) :
    rows[i]? = some r ∧ r.label = true ∧ r.labelLit = z := by
  cases hp : labelPos rows z with
  | none => simp [labelEntry, hp] at h
  | some j =>
    obtain ⟨r', hr', hlab, hlit, he⟩ := labelEntry_of_labelPos hp
    rw [he] at h
    cases h
    exact ⟨hr', hlab, hlit⟩

end LabelEntry

/-- **Changing a label's weight** on an engine in shape. The label row of the literal gets the new
weight when the engine is mutable and a raise keeps the top weight within 64 bits; every other
run answers no and hands the engine back. -/
theorem Engine.alterWeight_shape {n : Nat} {e : Engine} {t : Int} (hs : Engine.Shape n e)
    (ht : e.top = .int t) (z w : Int) :
    (Engine.alterWeight (.int z) (.int w)).run e = (labelEntry e.rows z).elim (.ok false, e) fun p =>
      if e.mutable ∧ ¬ (p.2.labelWeight < w ∧ Engine.u64Max < t + w - p.2.labelWeight) then
        (.ok true, { e with
          rows := e.rows.set p.1 (p.2.reweigh w)
          top := .int (if p.2.labelWeight < w then t + (w - p.2.labelWeight) else t) })
      else (.ok false, e) := by
  cases hp : labelPos e.rows z with
  | none =>
    rw [labelEntry_eq_none_of_labelPos hp, Option.elim_none, Engine.alterWeight_absent hs.unitLabels hp]
  | some i =>
    obtain ⟨r, hr, hlab, -, he⟩ := labelEntry_of_labelPos hp
    rw [he, Option.elim_some]
    cases hmut : e.mutable
    · simp [Engine.alterWeight_frozen hs.unitLabels hmut]
    have hmem : r ∈ e.rows := List.mem_of_getElem? hr
    obtain ⟨ws, hws⟩ := Option.isSome_iff_exists.1 (hs.rows.labels r hmem hlab).1
    obtain ⟨hn, hlen, hwts⟩ := hs.rows.weights r hmem ws hws
    have hne : ws ≠ [] := by
      rintro rfl
      simp at hlen
      omega
    have hbound : (ws.length : Int) ≤ Datum.wordBound := by
      have := hs.nBound
      simp only [Datum.repeatLimit, Datum.wordBound] at this ⊢
      norm_num at this ⊢
      omega
    rw [Engine.alterWeight_found ht hs.unitLabels hp hmut hr hws hne hbound
      (fun x hx => ⟨_, (hwts x hx).eq⟩) w]
    by_cases hover : r.labelWeight < w ∧ Engine.u64Max < t + w - r.labelWeight <;> simp [hover]

/-! ## Reconstruction -/

theorem Engine.solutionLines_state {e e₁ : Engine} (w : Datum)
    (hrec : Engine.reconstruct.run e = (.ok (), e₁)) : ((Engine.solutionLines w).run e).2 = e₁ := by
  unfold Engine.solutionLines
  rw [EngineM.run_bind_ok hrec]
  simp only [EngineM.run_bind, EngineM.run_get, EngineM.run_lift, EngineM.run_pure]
  cases e₁.variableBound with
  | error f => rfl
  | ok b =>
    cases w.written with
    | error f => rfl
    | ok o =>
      dsimp only
      split <;> rename_i heq <;> exact (Prod.mk.inj heq).2.symm

namespace Session

/-- A weight argument is a natural number within 64 bits. -/
theorem checkWeight_eq_ok {d : Datum} {w : Nat} :
    checkWeight d = .ok w ↔ d = .int w ∧ (w : Int) ≤ Engine.u64Max := by
  constructor
  · intro h
    cases d with
    | int n =>
      simp only [checkWeight] at h
      split_ifs at h with h0 h1
      · simp [refuse] at h
      · simp [refuse] at h
      · cases h
        refine ⟨by rw [Int.toNat_of_nonneg (by omega)], ?_⟩
        rw [Int.toNat_of_nonneg (by omega)]
        omega
    | _ => simp [checkWeight, refuse] at h
  · rintro ⟨rfl, hw⟩
    simp [checkWeight, not_lt.2 hw]

theorem checkWeight_error {d : Datum} {f : Failure} (h : checkWeight d = .error f) :
    f.kind = .validation ∨ f = ⟨.value, .longIntText⟩ := by
  have hval : ∀ c : Cause, c.kind = .validation → c.fail = f →
      f.kind = .validation ∨ f = ⟨.value, .longIntText⟩ := by
    intro c hc hf
    subst hf
    rcases Cause.fail_cases c with h' | h' <;> rw [h'] <;> simp [hc]
  cases d with
  | int n =>
    simp only [checkWeight] at h
    split_ifs at h
    · exact hval _ rfl (Except.error.inj h)
    · exact hval _ rfl (Except.error.inj h)
  | _ => exact hval _ rfl (Except.error.inj h)

theorem checkWeight_unfit {n : Int} (h : Engine.u64Max < n) :
    checkWeight (.int n) = .error (if n.natAbs < 10 ^ Datum.writableDigits then
      ⟨.validation, .weightTooLarge n⟩ else ⟨.value, .longIntText⟩) := by
  have h0 : ¬ n < 0 := by
    have : (0 : Int) ≤ Engine.u64Max := by decide
    omega
  simp only [checkWeight, if_neg h0, if_pos h, refuse]
  rw [Cause.fail_writing rfl]
  rfl

/-! ## Ready sessions -/

/-- A session between calls: open, free, and with its engine in shape for its objectives. -/
structure Ready (s : Session) : Prop where
  shape : Engine.Shape s.nObj s.engine
  closed : s.closed = false
  locked : s.locked = false

variable {s : Session}

@[simp] theorem withEngine_engine (s : Session) : s.withEngine s.engine = s := rfl

theorem Ready.exclusive (h : s.Ready) : s.exclusive = .ok s.engine := by
  simp [Session.exclusive, live, h.closed, h.locked]

theorem Ready.shared (h : s.Ready) : s.shared = .ok s.engine := by
  simp [Session.shared, live, h.closed, h.locked]

theorem Ready.maxVar (h : s.Ready) : s.engine.maxVar = .int ((intOf s.engine.maxVar).natAbs : Nat) := by
  obtain ⟨m, hm⟩ := h.shape.maxVar
  simp [hm]

theorem Ready.top (h : s.Ready) : s.engine.top = .int (intOf s.engine.top) := by
  obtain ⟨t, ht⟩ := h.shape.top
  simp [ht]

theorem call_ok {α : Type} (s : Session) {e e' : Engine} {m : EngineM α} {a : α}
    (h : m.run e = (.ok a, e')) : s.call e m = .ok (a, s.withEngine e') := by
  simp [call, h]

/-! ## The calls -/

/-- **Adding a variable** gives the next one when the engine is mutable; otherwise it is
refused. -/
theorem addVar_eq (h : s.Ready) :
    s.addVar = if s.engine.mutable then
        .ok ((intOf s.engine.maxVar).natAbs + 1,
          s.withEngine { s.engine with maxVar := .int ((intOf s.engine.maxVar).natAbs + 1 : Nat) })
      else refuse .refusedVariable := by
  obtain ⟨m, hm⟩ := h.shape.maxVar
  have hrun := Engine.addVar_run hm
  simp only [hm, intOf_int, Int.natAbs_natCast]
  unfold addVar
  rw [h.exclusive]
  cases hmut : s.engine.mutable
  · simp only [hmut, Bool.false_eq_true, if_false] at hrun
    simp [bind, Except.bind, call_ok s hrun]
  · simp only [hmut, if_true] at hrun
    have hv : Datum.numEq (.int ((m : Int) + 1)) (.int 0) = false := by
      simp only [Datum.numEq_int, decide_eq_false_iff_not]
      omega
    have hnext : ((m : Int) + 1).natAbs = m + 1 := by omega
    simp only [bind, Except.bind, call_ok s hrun, hv, Bool.false_eq_true, if_false, pure, Except.pure, intOf_int,
      hnext, if_true, Nat.cast_add, Nat.cast_one]

/-- **Adding a clause.** The canonical clause of the literals given is added as a hard row when
the engine is mutable and knows all its variables; otherwise it is refused. -/
theorem addClause_eq (h : s.Ready) (d : Datum) :
    s.addClause d = (clauseOf d).bind fun c =>
      if s.engine.mutable ∧ ∀ l ∈ c, l.var ≤ (intOf s.engine.maxVar).natAbs then
        .ok (s.withEngine { s.engine with rows := s.engine.rows ++ [streamedRow c none] })
      else refuse (.refusedClause c) := by
  obtain ⟨m, hm⟩ := h.shape.maxVar
  rw [show (intOf s.engine.maxVar).natAbs = m by simp [hm]]
  unfold addClause
  rcases hc : clauseOf d with f | c
  · rfl
  have hrun := Engine.addClause_run hm h.shape.addBuffer c
  have hg : (s.engine.mutable ∧ ∀ l ∈ c, (l.var : Int) ≤ (m : Int)) ↔
      (s.engine.mutable ∧ ∀ l ∈ c, l.var ≤ m) := by
    simp only [Nat.cast_le]
  simp only [bind, Except.bind, h.exclusive] at hrun ⊢
  by_cases hgood : s.engine.mutable ∧ ∀ l ∈ c, l.var ≤ m
  · rw [if_pos (hg.2 hgood)] at hrun
    rw [call_ok s hrun, if_pos hgood]
    rfl
  · rw [if_neg (mt hg.1 hgood)] at hrun
    rw [call_ok s hrun, if_neg hgood]
    rfl

/-- **Adding a label.** A label on a known variable that no label row uses, with objectives to
weigh it in and room under the 64-bit top weight, is appended as a soft unit row weighing `w` in
the first objective and raises the top weight by `w`; otherwise it is refused. -/
theorem addLabel_eq (h : s.Ready) (lit weight : Datum) :
    s.addLabel lit weight = (Lit.ofDatum lit).bind fun l => (checkWeight weight).bind fun w =>
      if s.engine.mutable ∧ s.nObj ≠ 0 ∧ l.var ≤ (intOf s.engine.maxVar).natAbs ∧
          (∀ x ∈ labelLits s.engine.rows, x.natAbs ≠ l.var) ∧ intOf s.engine.top + w ≤ Engine.u64Max then
        .ok (l, s.withEngine { s.engine with
          rows := s.engine.rows ++ [Engine.labelRow l.toInt w s.nObj]
          top := .int (intOf s.engine.top + w) })
      else refuse (.refusedLabel l) := by
  obtain ⟨m, hm⟩ := h.shape.maxVar
  obtain ⟨t, ht⟩ := h.shape.top
  rw [show (intOf s.engine.maxVar).natAbs = m by simp [hm], show intOf s.engine.top = t by simp [ht]]
  unfold addLabel
  rcases hl : Lit.ofDatum lit with f | l
  · rfl
  rcases hw : checkWeight weight with f | w
  · rfl
  have hrun := Engine.addLabel_run h.shape.nObj h.shape.nBound hm ht h.shape.unitLabels l.toInt w
  have hg : (s.engine.mutable ∧ s.nObj ≠ 0 ∧ l.toInt ≠ 0 ∧ (l.toInt.natAbs : Int) ≤ m ∧
      (∀ x ∈ labelLits s.engine.rows, x.natAbs ≠ l.toInt.natAbs) ∧ t + w ≤ Engine.u64Max) ↔
      (s.engine.mutable ∧ s.nObj ≠ 0 ∧ l.var ≤ m ∧ (∀ x ∈ labelLits s.engine.rows, x.natAbs ≠ l.var) ∧
        t + w ≤ Engine.u64Max) := by
    simp only [Lit.natAbs_toInt, Nat.cast_le, ne_eq, Lit.toInt_ne_zero l, not_false_eq_true, true_and]
  simp only [bind, Except.bind, h.exclusive]
  by_cases hgood : s.engine.mutable ∧ s.nObj ≠ 0 ∧ l.var ≤ m ∧
      (∀ x ∈ labelLits s.engine.rows, x.natAbs ≠ l.var) ∧ t + w ≤ Engine.u64Max
  · rw [if_pos (hg.2 hgood)] at hrun
    rw [call_ok s hrun, if_pos hgood]
    simp [intOf_int, Lit.ofInt?_toInt, pure, Except.pure]
  · rw [if_neg (mt hg.1 hgood)] at hrun
    rw [call_ok s hrun, if_neg hgood]
    simp [intOf_int, Lit.ofInt?]

/-- **Changing a label's weight.** The label row of the literal gets the new weight in its
objective; a raise lifts the top weight by the difference. The call is refused when the engine
is not mutable, when no label row has the literal, and when a raise would take the top weight
past 64 bits. -/
theorem alterWeight_eq (h : s.Ready) (label weight : Datum) :
    s.alterWeight label weight = (Lit.ofDatum label).bind fun l => (checkWeight weight).bind fun w =>
      (labelEntry s.engine.rows l.toInt).elim (refuse (.noLabel l)) fun p =>
        if s.engine.mutable ∧
            ¬ (p.2.labelWeight < w ∧ Engine.u64Max < intOf s.engine.top + w - p.2.labelWeight) then
          .ok (s.withEngine { s.engine with
            rows := s.engine.rows.set p.1 (p.2.reweigh w)
            top := .int (if p.2.labelWeight < w then intOf s.engine.top + (w - p.2.labelWeight)
              else intOf s.engine.top) })
        else refuse (.noLabel l) := by
  obtain ⟨t, ht⟩ := h.shape.top
  rw [show intOf s.engine.top = t by simp [ht]]
  unfold alterWeight
  rcases hl : Lit.ofDatum label with f | l
  · rfl
  rcases hw : checkWeight weight with f | w
  · rfl
  have hrun := Engine.alterWeight_shape h.shape ht l.toInt w
  simp only [bind, Except.bind, h.exclusive]
  rcases he : labelEntry s.engine.rows l.toInt with _ | p
  · rw [he, Option.elim_none] at hrun
    rw [call_ok s hrun]
    rfl
  rw [he, Option.elim_some] at hrun
  rw [Option.elim_some]
  by_cases hg : s.engine.mutable ∧ ¬ (p.2.labelWeight < w ∧ Engine.u64Max < t + w - p.2.labelWeight)
  · rw [if_pos hg] at hrun
    rw [call_ok s hrun, if_pos hg]
    rfl
  · rw [if_neg hg] at hrun
    rw [call_ok s hrun, if_neg hg]
    rfl

/-- **Turning a label back into a variable** drops its label row when the engine is mutable; the
call is refused when the engine is not mutable or no label row has the literal. -/
theorem labelToVar_eq (h : s.Ready) (label : Datum) :
    s.labelToVar label = (Lit.ofDatum label).bind fun l =>
      (labelEntry s.engine.rows l.toInt).elim (refuse (.noLabel l)) fun p =>
        if s.engine.mutable then .ok (s.withEngine { s.engine with rows := s.engine.rows.eraseIdx p.1 })
        else refuse (.noLabel l) := by
  unfold labelToVar
  rcases hl : Lit.ofDatum label with f | l
  · rfl
  have hrun := Engine.labelToVar_run h.shape.unitLabels l.toInt
  simp only [bind, Except.bind, h.exclusive]
  cases hp : labelPos s.engine.rows l.toInt with
  | none =>
    rw [hp, Option.elim_none] at hrun
    rw [call_ok s hrun, labelEntry_eq_none_of_labelPos hp]
    rfl
  | some i =>
    obtain ⟨r, -, -, -, he⟩ := labelEntry_of_labelPos hp
    rw [hp, Option.elim_some] at hrun
    rw [he, Option.elim_some]
    cases hmut : s.engine.mutable
    · simp only [hmut, Bool.false_eq_true, if_false] at hrun
      rw [call_ok s hrun]
      rfl
    · simp only [hmut, if_true] at hrun
      rw [call_ok s hrun]
      rfl

/-- **Resetting the removed weight** never fails: every objective's removed weight is zero
after it. -/
theorem resetRemovedWeight_eq (h : s.Ready) :
    s.resetRemovedWeight =
      .ok (s.withEngine { s.engine with removed := List.replicate s.nObj (.int 0) }) := by
  have hrun := Engine.resetRemovedWeight_run h.shape.nObj h.shape.nBound
  rw [if_pos h.shape.finalized] at hrun
  simp [resetRemovedWeight, bind, Except.bind, h.exclusive, call_ok s hrun, pure, Except.pure]

/-- **Reconstruction** that answers leaves the engine with nothing pushed and the values it
reconstructed. -/
theorem reconstruct_engine (h : s.Ready) {tau : List Datum} {model : List Int} {s' : Session}
    (hr : s.reconstruct tau = .ok (model, s')) :
    ∃ vs, s' = s.withEngine { s.engine with assignment := [], reconstructed := vs } := by
  rcases ha : Assignment.ofDatums tau with f | a
  · simp [reconstruct, h.exclusive, ha, bind, Except.bind] at hr
  obtain ⟨m, hm⟩ := h.shape.maxVar
  obtain ⟨vs, hrec, -⟩ := reconstruct_model h.closed h.locked h.shape.trace hm h.shape.assignment ha
  rw [hrec] at hr
  cases hr
  exact ⟨vs, rfl⟩

/-- **The solution lines** that answer leave the engine as reconstruction does. -/
theorem printSolution_engine (h : s.Ready) {tau : List Datum} {w : Datum} {lines : List String}
    {s' : Session} (hp : s.printSolution tau w = .ok (lines, s')) :
    ∃ vs, s' = s.withEngine { s.engine with assignment := [], reconstructed := vs } := by
  rcases ha : Assignment.ofDatums tau with f | a
  · simp [printSolution, h.exclusive, ha, bind, Except.bind] at hp
  have hpush := Engine.pushAssignment_run a s.engine
  rw [h.shape.assignment, List.nil_append] at hpush
  have hzs : ∀ z ∈ a.lits.map Lit.toInt, z ≠ 0 := by
    intro z hz
    obtain ⟨l, -, rfl⟩ := List.mem_map.1 hz
    exact Lit.toInt_ne_zero l
  obtain ⟨m, hm⟩ := h.shape.maxVar
  obtain ⟨vs, hrec, -⟩ := @Engine.reconstruct_run
    { s.engine with assignment := (a.lits.map Lit.toInt).map .int } h.shape.trace m hm _ hzs rfl
  have hstate := Engine.solutionLines_state w hrec
  have hrun : ((do pushAssignment a; Engine.solutionLines w : EngineM (List String)).run s.engine).2 =
      { s.engine with assignment := [], reconstructed := vs } := by
    rw [EngineM.run_bind_ok hpush, hstate]
  unfold printSolution at hp
  simp only [h.exclusive, ha, bind, Except.bind] at hp
  unfold call at hp
  split at hp
  · rename_i lines' e' heq
    cases hp
    exact ⟨vs, congrArg s.withEngine ((congrArg Prod.snd heq).symm.trans hrun)⟩
  · cases hp

end Session

end MaxSatPrep
