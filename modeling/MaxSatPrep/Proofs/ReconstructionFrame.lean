import MaxSatPrep.Proofs.Reachable
/-!
What reconstruction reads and what it leaves. Reconstruction starts from the values of the
assignment given, every variable it leaves unassigned false, and replays the trace on them: a
fixing event sets the variable of its literal and an elimination may set the variable of its
blocking literal, so every other variable keeps the assignment's value (`Valuation.replay_apply`).
In every reachable session the fixing events of the trace fix exactly the fixed literals, in order
(`Session.Reachable.fixedTraced`). Reconstruction changes the engine only in the pushed literals,
which it empties, and the values it keeps; a reconstruction or a printed solution before it leaves
the trace and the largest variable as they are, so it changes nothing a later reconstruction
reads.

Main statement: `Session.reconstruct_reads_only_trace`.
-/

namespace MaxSatPrep

open Session (intOf)

/-! ## The variables an event sets -/

/-- the literal a fixing event fixes -/
def Event.fixed? : Event → Option Datum
  | .fix l => some l
  | .blocked _ _ => none

/-- the variable an event may set in reconstruction: that of its fixed or its blocking literal -/
def Event.var : Event → Nat
  | .fix l => (intOf l).natAbs
  | .blocked _ b => (intOf b).natAbs

namespace Valuation

theorem replayEvent_apply (σ : Valuation) (ev : Event) {v : Nat} (hv : ev.var ≠ v) :
    σ.replayEvent ev v = σ v := by
  cases ev with
  | fix l => exact Function.update_of_ne (Ne.symm hv) _ _
  | blocked c b =>
    simp only [replayEvent]
    split
    · rfl
    · exact Function.update_of_ne (Ne.symm hv) _ _

/-- Replaying a trace leaves every variable that no event of it may set. -/
theorem replay_apply (σ : Valuation) {trace : List Event} {v : Nat} (hv : ∀ ev ∈ trace, ev.var ≠ v) :
    σ.replay trace v = σ v := by
  induction trace with
  | nil => rfl
  | cons ev trace ih =>
    have hsplit : σ.replay (ev :: trace) = (σ.replay trace).replayEvent ev := by
      rw [← List.singleton_append, replay_append]
      rfl
    rw [hsplit, replayEvent_apply _ ev (hv ev (by simp)), ih (fun ev' h => hv ev' (by simp [h]))]

theorem lit_signed (σ : Valuation) {v : Nat} (hv : 0 < v) :
    σ.lit (if σ v then (v : Int) else -(v : Int)) := by
  unfold lit
  cases h : σ v
  · simp [h]
  · simp [h, hv]

end Valuation

/-! ## The starting values -/

namespace Assignment

/-- the values reconstruction gives over a trace: the assignment's values, false where it assigns
none, with the trace replayed on them -/
def reconstructed (a : Assignment) (trace : List Event) : Valuation :=
  (Engine.Values.val (Engine.setLits [] (a.lits.map Lit.toInt))).replay trace

/-- The literals of an assignment set its values; every variable it assigns none is false. -/
theorem val_setLits {a : Assignment} (ha : a.KeysNodup) {v : Nat} (hv : 0 < v) :
    Engine.Values.val (Engine.setLits [] (a.lits.map Lit.toInt)) v = (a.value? v).getD false := by
  cases hval : a.value? v with
  | none =>
    have hnot : v ∉ (a.lits.map Lit.toInt).map Int.natAbs := by
      intro hmem
      obtain ⟨z, hz, hzv⟩ := List.mem_map.1 hmem
      obtain ⟨l, hl, rfl⟩ := List.mem_map.1 hz
      rw [Lit.natAbs_toInt] at hzv
      obtain ⟨p, hp, hpl⟩ := List.mem_filterMap.1 hl
      refine value?_none hval (List.mem_map.2 ⟨p, hp, ?_⟩)
      split at hpl
      · cases hpl
        exact hzv
      · cases hpl
    rw [Engine.val_setLits_of_not_mem Engine.intKeys_nil hnot]
    rfl
  | some b =>
    let l : Lit := ⟨v, !b, hv⟩
    have hl : l ∈ a.lits := mem_lits_of_litValue (by simp [litValue?, hval, l])
    have hlit := Engine.lit_setLits Engine.intKeys_nil ha.lits l.toInt (List.mem_map_of_mem hl)
    rw [Valuation.lit, Lit.natAbs_toInt] at hlit
    rw [hlit, Option.getD_some]
    cases b <;> simp [l, Lit.toInt, hv]

end Assignment

/-! ## Fixed literals in the trace -/

namespace Engine

/-- The fixing events of the trace fix the fixed literals, in order. -/
def FixedTraced (e : Engine) : Prop := e.trace.filterMap Event.fixed? = e.fixed

theorem FixedTraced.mem_fixed {e : Engine} (h : FixedTraced e) {l : Datum}
    (hl : Event.fix l ∈ e.trace) : l ∈ e.fixed := by
  rw [← h]
  exact List.mem_filterMap.2 ⟨_, hl, rfl⟩

/-- **Step lemma.** A step of preprocessing appends to the fixed literals what it appends to the
trace as fixing events. -/
theorem Step.fixedTraced {e e' : Engine} (ht : Tabled e) (hstep : Step e e') (h : FixedTraced e) :
    FixedTraced e' := by
  unfold FixedTraced at h ⊢
  cases hstep.effect ht with
  | propagate F _ _ _ _ =>
    simp only [propagated, List.filterMap_append, h, List.filterMap_map]
    simp [Function.comp_def, Event.fixed?]
  | subsume gone _ => exact h
  | eliminate gone events _ _ hev _ =>
    have hnone : events.filterMap Event.fixed? = [] := by
      refine List.filterMap_eq_nil_iff.2 (fun ev hev' => ?_)
      obtain ⟨c, b, rfl, -⟩ := hev ev hev'
      rfl
    simp only [List.filterMap_append, h, hnone, List.append_nil]
  | same => exact h
  | note log idle info => exact h

/-- **Run lemma.** Preprocessing steps from an engine in shape keep the fixing events of the trace
those of the fixed literals. -/
theorem Steps.fixedTraced {n : Nat} {e e' : Engine} (h : Steps e e') (hs : Shape n e)
    (hf : FixedTraced e) : FixedTraced e' := by
  induction h with
  | refl => exact hf
  | tail hsteps hstep ih => exact hstep.fixedTraced (Steps.shape hsteps hs).1.tabled ih

/-- Every call keeps the fixing events of the trace those of the fixed literals. -/
theorem Change.fixedTraced {n : Nat} {c : Session.Call} {e e' : Engine} (hs : Shape n e)
    (hc : Change n c e e') (hf : FixedTraced e) : FixedTraced e' := by
  cases hc with
  | preprocess ot ol otl addRemoved _ techniques logLevel timeLimit =>
    obtain ⟨e₁, hsteps, top, p, info, heq, -, -⟩ := preprocess_steps techniques logLevel timeLimit addRemoved e
    rw [heq]
    exact hsteps.fixedTraced hs hf
  | _ => exact hf

theorem Change.reconstruct_reads {n : Nat} {t : List Datum} {e e' : Engine}
    (hc : Change n (.reconstruct t) e e') : e'.trace = e.trace ∧ e'.maxVar = e.maxVar := by
  cases hc <;> exact ⟨rfl, rfl⟩

theorem Change.printSolution_reads {n : Nat} {t : List Datum} {w : Datum} {e e' : Engine}
    (hc : Change n (.printSolution t w) e e') : e'.trace = e.trace ∧ e'.maxVar = e.maxVar := by
  cases hc <;> exact ⟨rfl, rfl⟩

end Engine

/-! ## Reconstructing from a session -/

namespace Session

variable {s : Session}

/-- **Run lemma.** In every reachable session the fixing events of the trace fix the fixed
literals, in order. -/
theorem Reachable.fixedTraced (h : s.Reachable) : s.engine.FixedTraced := by
  induction h with
  | opened h =>
    obtain ⟨top, M, info, -, -, -, -, -, heng, -⟩ := Engine.openWith_engine h
    rw [Engine.FixedTraced, heng]
    rfl
  | perform hr c ih =>
    obtain ⟨e', heq, hc⟩ := hr.ready.perform_change c
    rw [heq]
    exact hc.fixedTraced hr.ready.shape ih

theorem Ready.reconstruct_eq (h : s.Ready) {tau : List Datum} {a : Assignment}
    (ha : Assignment.ofDatums tau = .ok a) :
    ∃ vs, s.reconstruct tau = .ok ((a.reconstructed s.engine.trace).model (intOf s.engine.maxVar).natAbs,
      s.withEngine { s.engine with assignment := [], reconstructed := vs }) := by
  obtain ⟨vs, hrec, hval⟩ := reconstruct_model h.closed h.locked h.shape.trace h.maxVar
    h.shape.assignment ha
  refine ⟨vs, ?_⟩
  rw [hrec, hval]
  rfl

/-- **Reconstruction reads only the trace.** On a reachable session, reconstructing a consistent
assignment answers with one literal for each variable from one to the largest original variable,
in order, and changes the engine only by emptying the pushed literals and keeping the values it
reconstructed. A variable that is the variable of no fixed literal and of no blocking literal of
the trace keeps the assignment's value, false when the assignment has none. A reconstruction or a
printed solution of any assignment before it changes nothing it answers. -/
theorem reconstruct_reads_only_trace (hs : s.Reachable) {tau : List Datum} {a : Assignment}
    (ha : Assignment.ofDatums tau = .ok a) :
    ∃ (m : Nat) (model : List Int) (vs : Engine.Values),
      s.maxOrigVar = .ok m ∧
      s.reconstruct tau = .ok (model, s.withEngine { s.engine with assignment := [], reconstructed := vs }) ∧
      model.map Int.natAbs = List.range' 1 m ∧
      (∀ v, 1 ≤ v → v ≤ m → (∀ d ∈ s.engine.fixed, (intOf d).natAbs ≠ v) →
        (∀ c b, Event.blocked c b ∈ s.engine.trace → (intOf b).natAbs ≠ v) →
        (if (a.value? v).getD false then (v : Int) else -(v : Int)) ∈ model) ∧
      ∀ tau₁ w, ((s.perform (.reconstruct tau₁)).reconstruct tau).map Prod.fst = .ok model ∧
        ((s.perform (.printSolution tau₁ w)).reconstruct tau).map Prod.fst = .ok model := by
  have hr := hs.ready
  obtain ⟨vs, hrec⟩ := hr.reconstruct_eq ha
  -- a reachable session with the same trace and largest variable answers with the same model
  have same : ∀ s₁ : Session, s₁.Reachable → s₁.engine.trace = s.engine.trace →
      s₁.engine.maxVar = s.engine.maxVar → (s₁.reconstruct tau).map Prod.fst =
        .ok ((a.reconstructed s.engine.trace).model (intOf s.engine.maxVar).natAbs) := by
    intro s₁ hs₁ ht hm
    obtain ⟨vs₁, hrec₁⟩ := hs₁.ready.reconstruct_eq ha
    rw [hrec₁, ht, hm]
    rfl
  refine ⟨_, _, vs, by simp [maxOrigVar, hr.shared, bind, Except.bind, pure, Except.pure], hrec,
    Valuation.model_natAbs _ _, fun v hv1 hvm hfix hblk => ?_, fun tau₁ w => ⟨?_, ?_⟩⟩
  · -- no event of the trace sets the variable, so it keeps its starting value
    have huntouched : ∀ ev ∈ s.engine.trace, ev.var ≠ v := by
      intro ev hev
      cases ev with
      | fix l => exact hfix l (hs.fixedTraced.mem_fixed hev)
      | blocked c b => exact hblk c b hev
    have hval : a.reconstructed s.engine.trace v = (a.value? v).getD false := by
      rw [Assignment.reconstructed, Valuation.replay_apply _ huntouched,
        Assignment.val_setLits (Assignment.ofDatums_keysNodup ha) hv1]
    rw [← hval]
    refine (Valuation.mem_model ?_ ?_).2 (Valuation.lit_signed _ hv1)
    · split <;> omega
    · split <;> omega
  · obtain ⟨e', heq, hc⟩ := hr.perform_change (.reconstruct tau₁)
    obtain ⟨ht, hm⟩ := hc.reconstruct_reads
    exact same _ (hs.perform _) (by rw [heq]; exact ht) (by rw [heq]; exact hm)
  · obtain ⟨e', heq, hc⟩ := hr.perform_change (.printSolution tau₁ w)
    obtain ⟨ht, hm⟩ := hc.printSolution_reads
    exact same _ (hs.perform _) (by rw [heq]; exact ht) (by rw [heq]; exact hm)

end Session

/-- Unit propagation fixes `x1` and `x2` in `x1`, `¬x1 ∨ x2`, `¬x2 ∨ x3 ∨ x4` under the objective
`¬x3`, and blocked clause elimination removes what is left of the last clause, `x3 ∨ x4`, as
blocked on `x4`. Reconstructing `¬x3 ∧ ¬x4` sets the fixed `x1` and `x2` and the blocking `x4`,
keeps `¬x3`, and answers the same after any reconstruction or printed solution before it. -/
theorem reconstruction_forgets_earlier_input :
    ∃ s₀ a, Session.openWith .reference {}
        [[⟨1, false, by decide⟩], [⟨1, true, by decide⟩, ⟨2, false, by decide⟩],
          [⟨2, true, by decide⟩, ⟨3, false, by decide⟩, ⟨4, false, by decide⟩]]
        [[([⟨3, true, by decide⟩], 5)]] false none = .ok s₀ ∧
      let s := s₀.perform (.preprocess (some (.str "ub")) none none false)
      s.Reachable ∧ s.engine.fixed.map intOf = [1, 2] ∧ s.engine.trace.map Event.var = [1, 2, 4] ∧
      Assignment.ofDatums [.int (-3), .int (-4)] = .ok a ∧
      ∃ (m : Nat) (model : List Int) (vs : Engine.Values),
        s.maxOrigVar = .ok m ∧
        s.reconstruct [.int (-3), .int (-4)] =
          .ok (model, s.withEngine { s.engine with assignment := [], reconstructed := vs }) ∧
        model.map Int.natAbs = List.range' 1 m ∧
        (∀ v, 1 ≤ v → v ≤ m → (∀ d ∈ s.engine.fixed, (intOf d).natAbs ≠ v) →
          (∀ c b, Event.blocked c b ∈ s.engine.trace → (intOf b).natAbs ≠ v) →
          (if (a.value? v).getD false then (v : Int) else -(v : Int)) ∈ model) ∧
        (∀ tau₁ w, ((s.perform (.reconstruct tau₁)).reconstruct [.int (-3), .int (-4)]).map Prod.fst = .ok model ∧
          ((s.perform (.printSolution tau₁ w)).reconstruct [.int (-3), .int (-4)]).map Prod.fst = .ok model) ∧
        model = [1, 2, -3, 4] := by
  have hview : (Session.openWith .reference {}
      [[⟨1, false, by decide⟩], [⟨1, true, by decide⟩, ⟨2, false, by decide⟩],
        [⟨2, true, by decide⟩, ⟨3, false, by decide⟩, ⟨4, false, by decide⟩]]
      [[([⟨3, true, by decide⟩], 5)]] false none).toOption.map (fun s₀ =>
        let s := s₀.perform (.preprocess (some (.str "ub")) none none false)
        (s.engine.fixed.map intOf, s.engine.trace.map Event.var,
          (Assignment.ofDatums [.int (-3), .int (-4)]).toOption.isSome,
          ((s.reconstruct [.int (-3), .int (-4)]).toOption.map Prod.fst))) =
      some ([1, 2], [1, 2, 4], true, some [1, 2, -3, 4]) := by
    decide +kernel
  obtain ⟨s₀, hO, hs⟩ := Outcome.exists_of_toOption_map hview
  simp only [Prod.mk.injEq] at hs
  obtain ⟨hfixed, hvars, ha, hmodel⟩ := hs
  obtain ⟨a, ha⟩ := Outcome.exists_of_toOption_isSome ha
  have hreach : (s₀.perform (.preprocess (some (.str "ub")) none none false)).Reachable :=
    .perform (.opened hO) _
  obtain ⟨m, model, vs, hm, hrec, hrange, hkeep, hforget⟩ := Session.reconstruct_reads_only_trace hreach ha
  have hmodel' : model = [1, 2, -3, 4] := by
    rw [hrec] at hmodel
    exact Option.some.inj hmodel
  exact ⟨s₀, a, hO, hreach, hfixed, hvars, ha, m, model, vs, hm, hrec, hrange, hkeep, hforget, hmodel'⟩

end MaxSatPrep
