import MaxSatPrep.Proofs.Classification
/-!
The incremental calls of a session raise exactly on their conditions and change nothing when
they raise. Each call checks its arguments before it reaches the engine, so a bad literal or
weight is a validation error; it then asks the engine, whose guard decides, and raises the
engine's refusal with the cause named in its equation (`Cause.kind` makes a refused variable,
clause or label a rejection and a missing label an unknown label). Every engine run that refuses
hands its engine back, and preprocessing reads its techniques before it touches the engine.

Main statements: the refusal lemmas `Engine.addVar_refused` … `Engine.labelToVar_refused`,
`Session.Ready.preprocess_unparsed`, and `Session.CallContract`, which every reachable session
keeps. A weight too large to write out is refused as a value error
(`long_label_weight_refused_as_value_error`).
-/

namespace MaxSatPrep

open Session (intOf)

/-! ## Refused runs hand the engine back -/

namespace Engine

variable {n : Nat} {e e' : Engine}

/-- A variable the engine refuses leaves it as it was. -/
theorem addVar_refused (hs : Shape n e) (h : addVar.run e = (.ok (.int 0), e')) : e' = e := by
  obtain ⟨m, hm⟩ := hs.maxVar
  rw [addVar_run hm] at h
  split_ifs at h
  · have hv := (Datum.int.inj (Except.ok.inj (Prod.mk.inj h).1))
    omega
  · exact (Prod.mk.inj h).2.symm

theorem addClause_refused (hs : Shape n e) (c : List Lit)
    (h : (do c.forM (fun l => do let _ ← addLit (.int l.toInt); pure ()); addLit (.int 0)).run e =
      (.ok false, e')) : e' = e := by
  obtain ⟨m, hm⟩ := hs.maxVar
  rw [addClause_run hm hs.addBuffer c] at h
  split_ifs at h
  · cases (Prod.mk.inj h).1
  · exact (Prod.mk.inj h).2.symm

theorem addLabel_refused (hs : Shape n e) (z w : Int)
    (h : (addLabel (.int z) (.int w)).run e = (.ok (.int 0), e')) : e' = e := by
  obtain ⟨m, hm⟩ := hs.maxVar
  obtain ⟨t, ht⟩ := hs.top
  rw [addLabel_run hs.nObj hs.nBound hm ht hs.unitLabels z w] at h
  split_ifs at h with hg
  · have hz := Datum.int.inj (Except.ok.inj (Prod.mk.inj h).1)
    exact absurd hz hg.2.2.1
  · exact (Prod.mk.inj h).2.symm

theorem alterWeight_refused (hs : Shape n e) (z w : Int)
    (h : (alterWeight (.int z) (.int w)).run e = (.ok false, e')) : e' = e := by
  obtain ⟨t, ht⟩ := hs.top
  rw [alterWeight_shape hs ht z w] at h
  rcases hp : labelEntry e.rows z with _ | p
  · rw [hp, Option.elim_none] at h
    exact (Prod.mk.inj h).2.symm
  rw [hp, Option.elim_some] at h
  by_cases hg : e.mutable ∧ ¬ (p.2.labelWeight < w ∧ u64Max < t + w - p.2.labelWeight)
  · rw [if_pos hg] at h
    cases (Prod.mk.inj h).1
  · rw [if_neg hg] at h
    exact (Prod.mk.inj h).2.symm

/-- A label the engine does not turn back into a variable stays as it was. -/
theorem labelToVar_refused (hs : Shape n e) (z : Int)
    (h : (labelToVar (.int z)).run e = (.ok false, e')) : e' = e := by
  rw [labelToVar_run hs.unitLabels z] at h
  rcases hp : labelPos e.rows z with _ | i
  · rw [hp, Option.elim_none] at h
    exact (Prod.mk.inj h).2.symm
  rw [hp, Option.elim_some] at h
  split_ifs at h
  · cases (Prod.mk.inj h).1
  · exact (Prod.mk.inj h).2.symm

/-- Preprocessing reads its techniques before anything else: techniques that do not read stop
the run with the engine untouched. -/
theorem preprocess_unparsed (hfin : e.finalized = true) {t : Datum} {f : Failure}
    (hp : Plan.ofDatum t = .error f) (logLevel timeLimit : Datum) (addRemoved : Bool) :
    (preprocess t logLevel timeLimit addRemoved).run e = (.error f, e) := by
  simp [preprocess, EngineM.run_bind, hfin, hp]

end Engine

/-! ## Arguments -/

theorem clauseOf_error {d : Datum} {xs : List Datum} (hd : d.elements? = some xs) {f : Failure}
    (h : clauseOf d = .error f) : f.kind = .validation ∨ f = ⟨.value, .longIntText⟩ := by
  simp only [clauseOf, Datum.iterate, hd, bind, Except.bind] at h
  rcases hls : xs.mapM Lit.ofDatum with g | ls
  · rw [hls] at h
    cases h
    obtain ⟨x, -, hx⟩ := Outcome.mapM_error hls
    exact Lit.ofDatum_error hx
  · simp [hls, pure, Except.pure] at h

namespace Session

variable {s : Session}

/-- Preprocessing with techniques that do not read leaves a ready session as it was. -/
theorem Ready.preprocess_unparsed (h : s.Ready) {techniques logLevel timeLimit : Option Datum}
    {addRemoved : Bool} {f : Failure} (hp : Plan.ofDatum (techniques.getD s.config.techniques) = .error f) :
    (s.preprocess techniques logLevel timeLimit addRemoved).1 = s := by
  unfold preprocess
  dsimp only
  split
  · rfl
  · rfl
  rw [h.exclusive]
  dsimp only
  rw [Engine.preprocess_unparsed h.shape.finalized hp]
  rfl

/-- **The contract of the incremental calls** on a session, every argument included. Arguments
are read before the engine is reached: a literal is a non-zero integer and a weight a natural
number within 64 bits, and anything else is a validation error, or a value error where the message
would write an integer of more than 4300 digits. The engine's guard then decides,
and a refusal raises the cause named (`RejectedError` for a variable, a clause or a label,
`UnknownLabelError` for a label to change). Every engine run that refuses hands its engine back,
and preprocessing with techniques that do not read leaves the session as it was. -/
structure CallContract (s : Session) : Prop where
  /-- a variable is added, the next one, exactly when the engine is mutable -/
  addsVariable : s.addVar = if s.engine.mutable then
      .ok ((intOf s.engine.maxVar).natAbs + 1,
        s.withEngine { s.engine with maxVar := .int ((intOf s.engine.maxVar).natAbs + 1 : Nat) })
    else refuse .refusedVariable
  /-- a clause is added, in canonical order, as a hard row exactly when the engine is mutable and
  knows each of its variables -/
  addsClause : ∀ d, s.addClause d = (clauseOf d).bind fun c =>
    if s.engine.mutable ∧ ∀ l ∈ c, l.var ≤ (intOf s.engine.maxVar).natAbs then
      .ok (s.withEngine { s.engine with rows := s.engine.rows ++ [streamedRow c none] })
    else refuse (.refusedClause c)
  /-- a label is added, as a soft unit row weighing `w` in the first objective that raises the
  top weight by `w`, exactly when the engine is mutable, has an objective, knows the variable,
  has no label on it and has room under 64 bits -/
  addsLabel : ∀ lit weight, s.addLabel lit weight = (Lit.ofDatum lit).bind fun l =>
    (checkWeight weight).bind fun w =>
      if s.engine.mutable ∧ s.nObj ≠ 0 ∧ l.var ≤ (intOf s.engine.maxVar).natAbs ∧
          (∀ x ∈ labelLits s.engine.rows, x.natAbs ≠ l.var) ∧ intOf s.engine.top + w ≤ Engine.u64Max then
        .ok (l, s.withEngine { s.engine with
          rows := s.engine.rows ++ [Engine.labelRow l.toInt w s.nObj]
          top := .int (intOf s.engine.top + w) })
      else refuse (.refusedLabel l)
  /-- a label row of exactly the literal gets the new weight when the engine is mutable and a
  raise keeps the top weight within 64 bits -/
  altersWeight : ∀ label weight, s.alterWeight label weight = (Lit.ofDatum label).bind fun l =>
    (checkWeight weight).bind fun w =>
      (labelEntry s.engine.rows l.toInt).elim (refuse (.noLabel l)) fun p =>
        if s.engine.mutable ∧
            ¬ (p.2.labelWeight < w ∧ Engine.u64Max < intOf s.engine.top + w - p.2.labelWeight) then
          .ok (s.withEngine { s.engine with
            rows := s.engine.rows.set p.1 (p.2.reweigh w)
            top := .int (if p.2.labelWeight < w then intOf s.engine.top + (w - p.2.labelWeight)
              else intOf s.engine.top) })
        else refuse (.noLabel l)
  /-- a label row of exactly the literal is dropped when the engine is mutable -/
  dropsLabel : ∀ label, s.labelToVar label = (Lit.ofDatum label).bind fun l =>
    (labelEntry s.engine.rows l.toInt).elim (refuse (.noLabel l)) fun p =>
      if s.engine.mutable then .ok (s.withEngine { s.engine with rows := s.engine.rows.eraseIdx p.1 })
      else refuse (.noLabel l)
  /-- resetting the removed weights never fails -/
  resetsRemoved : s.resetRemovedWeight =
    .ok (s.withEngine { s.engine with removed := List.replicate s.nObj (.int 0) })
  /-- a literal is read exactly from a non-zero integer -/
  literalAccepted : ∀ d l, Lit.ofDatum d = .ok l ↔ d = .int l.toInt
  /-- any other literal is a validation error -/
  literalRefused : ∀ d f, Lit.ofDatum d = .error f → f.kind = .validation ∨ f = ⟨.value, .longIntText⟩
  /-- a clause that iterates is refused only for a literal -/
  clauseRefused : ∀ d xs f, d.elements? = some xs → clauseOf d = .error f →
    f.kind = .validation ∨ f = ⟨.value, .longIntText⟩
  /-- a weight is read exactly from a natural number within 64 bits -/
  weightAccepted : ∀ d w, checkWeight d = .ok w ↔ d = .int w ∧ (w : Int) ≤ Engine.u64Max
  /-- any other weight is a validation error -/
  weightRefused : ∀ d f, checkWeight d = .error f → f.kind = .validation ∨ f = ⟨.value, .longIntText⟩
  /-- the engine refusing a variable hands itself back -/
  variableAtomic : ∀ e', Engine.addVar.run s.engine = (.ok (.int 0), e') → e' = s.engine
  /-- the engine refusing a streamed clause hands itself back, its buffer empty -/
  clauseAtomic : ∀ (c : List Lit) e',
    (do c.forM (fun l => do let _ ← Engine.addLit (.int l.toInt); pure ()); Engine.addLit (.int 0)).run
      s.engine = (.ok false, e') → e' = s.engine
  /-- the engine refusing a label hands itself back -/
  labelAtomic : ∀ z w e', (Engine.addLabel (.int z) (.int w)).run s.engine = (.ok (.int 0), e') →
    e' = s.engine
  /-- the engine refusing a weight change hands itself back -/
  weightAtomic : ∀ z w e', (Engine.alterWeight (.int z) (.int w)).run s.engine = (.ok false, e') →
    e' = s.engine
  /-- the engine refusing to turn a label back into a variable hands itself back -/
  unlabelAtomic : ∀ z e', (Engine.labelToVar (.int z)).run s.engine = (.ok false, e') → e' = s.engine
  /-- preprocessing with techniques that do not read changes nothing -/
  preprocessAtomic : ∀ techniques logLevel timeLimit addRemoved f,
    Plan.ofDatum (techniques.getD s.config.techniques) = .error f →
      (s.preprocess techniques logLevel timeLimit addRemoved).1 = s

/-- **Incremental calls.** Every reachable session keeps the contract of its incremental calls:
each raises exactly on its conditions, and a refusal changes nothing. -/
theorem reachable_calls_contract (h : s.Reachable) : s.CallContract where
  addsVariable := addVar_eq h.ready
  addsClause := addClause_eq h.ready
  addsLabel := addLabel_eq h.ready
  altersWeight := alterWeight_eq h.ready
  dropsLabel := labelToVar_eq h.ready
  resetsRemoved := resetRemovedWeight_eq h.ready
  literalAccepted _ _ := Lit.ofDatum_eq_ok
  literalRefused _ _ := Lit.ofDatum_error
  clauseRefused _ _ _ hd := clauseOf_error hd
  weightAccepted _ _ := checkWeight_eq_ok
  weightRefused _ _ := checkWeight_error
  variableAtomic _ := Engine.addVar_refused h.ready.shape
  clauseAtomic c _ := Engine.addClause_refused h.ready.shape c
  labelAtomic z w _ := Engine.addLabel_refused h.ready.shape z w
  weightAtomic z w _ := Engine.alterWeight_refused h.ready.shape z w
  unlabelAtomic z _ := Engine.labelToVar_refused h.ready.shape z
  preprocessAtomic _ _ _ _ _ := h.ready.preprocess_unparsed

end Session

/-- The labelled session of `labelled_session_reachable` keeps the contract of its calls. -/
theorem labelled_session_contract : ∃ s : Session, s.Reachable ∧ s.CallContract := by
  obtain ⟨s, hs, -⟩ := labelled_session_reachable
  exact ⟨s, hs, Session.reachable_calls_contract hs⟩

/-- A label weight of 4301 digits lies beyond 64 bits, yet every session refuses it as a value
error and not as the validation error naming a weight too large: the message cannot write the
weight out. -/
theorem long_label_weight_refused_as_value_error :
    Engine.u64Max < 10 ^ Datum.writableDigits ∧ ∀ s : Session,
      s.addLabel (.int 2) (.int (10 ^ Datum.writableDigits)) = .error ⟨.value, .longIntText⟩ := by
  have hu : Engine.u64Max < 10 ^ Datum.writableDigits :=
    calc Engine.u64Max < 10 ^ 20 := by decide
      _ ≤ 10 ^ Datum.writableDigits := pow_le_pow_right₀ (by norm_num) (by decide)
  refine ⟨hu, ?_⟩
  intro s
  have hw := Session.checkWeight_unfit hu
  rw [if_neg (by simp [Int.natAbs_pow])] at hw
  have hl : Lit.ofDatum (.int 2) = .ok ⟨2, false, by decide⟩ := Lit.ofDatum_eq_ok.2 rfl
  simp only [Session.addLabel, hl, hw, bind, Except.bind]

end MaxSatPrep
