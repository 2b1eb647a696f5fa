import MaxSatPrep.Proofs.EngineRun
/-!
Replaying the trace on a valuation. Reconstruction walks the trace from its last event to its
first: a fixed literal is made true, and a clause eliminated as blocked is made true by its
blocking literal when it is false. On integer literals and integer-keyed values the engine's
replay does exactly this to the valuation its values stand for (`replay_ok`).
-/

namespace MaxSatPrep

open Session (intOf)

/-- an event whose literals are non-zero integers -/
def Event.IsInt : Event → Prop
  | .fix l => IsLit l
  | .blocked c b => (∀ d ∈ c, IsLit d) ∧ IsLit b

namespace Valuation

/-- the valuation with a literal made true -/
def setLit (σ : Valuation) (z : Int) : Valuation := Function.update σ z.natAbs (decide (0 < z))

/-- one event replayed on a valuation -/
def replayEvent (σ : Valuation) : Event → Valuation
  | .fix l => σ.setLit (intOf l)
  | .blocked c b => if σ.clause (c.map intOf) then σ else σ.setLit (intOf b)

/-- a trace replayed from its last event to its first -/
def replay (σ : Valuation) (trace : List Event) : Valuation := trace.reverse.foldl replayEvent σ

@[simp] theorem replay_nil (σ : Valuation) : σ.replay [] = σ := rfl

theorem replay_append (σ : Valuation) (t u : List Event) :
    σ.replay (t ++ u) = (σ.replay u).replay t := by
  simp [replay, List.foldl_append]

theorem replay_concat (σ : Valuation) (t : List Event) (ev : Event) :
    σ.replay (t ++ [ev]) = (σ.replayEvent ev).replay t := by
  rw [replay_append]
  rfl

theorem lit_setLit_self (σ : Valuation) (z : Int) : (σ.setLit z).lit z :=
  lit_update_self σ z

theorem lit_setLit_of_ne {σ : Valuation} {z w : Int} (h : w.natAbs ≠ z.natAbs) :
    (σ.setLit z).lit w ↔ σ.lit w :=
  lit_update_ne _ h

end Valuation

namespace Engine

/-- On integer keys the truth the reconstruction checks is that of the valuation. -/
theorem anyM_clause {vs : Values} {c : List Datum} (hc : ∀ d ∈ c, IsLit d) :
    c.anyM (fun m => do
      let v := valueOf vs (← Datum.magnitude m)
      pure (v == (← Datum.greater m (.int 0)))) =
      .ok (decide ((Values.val vs).clause (c.map intOf))) := by
  have hlit : ∀ m ∈ c, (do
      let v := valueOf vs (← Datum.magnitude m)
      pure (v == (← Datum.greater m (.int 0))) : Outcome Bool) =
        .ok (decide ((Values.val vs).lit (intOf m))) := by
    intro m hm
    obtain ⟨z, -, rfl⟩ := hc m hm
    simp only [Datum.magnitude_int, Datum.greater_int, bind, Except.bind, pure, Except.pure,
      Valuation.lit, Values.val, Session.intOf_int, Bool.beq_eq_decide_eq]
    rfl
  rw [Outcome.anyM_ok hlit]
  congr 1
  rw [Bool.eq_iff_iff, List.any_eq_true, decide_eq_true_eq]
  simp [Valuation.clause]

theorem makeTrue_int {vs : Values} (h : IntKeys vs) (z : Int) :
    ∃ vs', makeTrue vs (.int z) = .ok vs' ∧ IntKeys vs' ∧
      Values.val vs' = (Values.val vs).setLit z := by
  refine ⟨setValue vs (.int z.natAbs) (decide (0 < z)), ?_, h.setValue _ _, ?_⟩
  · simp [makeTrue, bind, Except.bind, pure, Except.pure]
  · rw [val_setValue h]
    rfl

/-- One event replayed on integer-keyed values is the event replayed on their valuation. -/
theorem replayEvent_ok {vs : Values} (h : IntKeys vs) {ev : Event} (hev : ev.IsInt) :
    ∃ vs', replayEvent vs ev = .ok vs' ∧ IntKeys vs' ∧
      Values.val vs' = (Values.val vs).replayEvent ev := by
  cases ev with
  | fix l =>
    obtain ⟨z, -, rfl⟩ := hev
    exact makeTrue_int h z
  | blocked c b =>
    obtain ⟨hc, z, -, rfl⟩ := hev
    by_cases hsat : (Values.val vs).clause (c.map intOf)
    · refine ⟨vs, ?_, h, ?_⟩
      · rw [Engine.replayEvent.eq_2, anyM_clause hc]
        simp [hsat, bind, Except.bind, pure, Except.pure]
      · simp [Valuation.replayEvent, hsat]
    · obtain ⟨vs', hmk, hk, hval⟩ := makeTrue_int h z
      refine ⟨vs', ?_, hk, ?_⟩
      · rw [Engine.replayEvent.eq_2, anyM_clause hc]
        simp [hsat, bind, Except.bind, hmk]
      · simp [Valuation.replayEvent, hsat, hval]

/-- **Replay.** On integer-keyed values, a trace of integer events replays without failing, to
the values whose valuation is the trace replayed on the valuation of the start. -/
theorem replay_ok {vs : Values} (h : IntKeys vs) {trace : List Event} (ht : ∀ ev ∈ trace, ev.IsInt) :
    ∃ vs', replay vs trace = .ok vs' ∧ IntKeys vs' ∧
      Values.val vs' = (Values.val vs).replay trace := by
  unfold Engine.replay Valuation.replay
  have ht' : ∀ ev ∈ trace.reverse, ev.IsInt := fun ev hev => ht ev (List.mem_reverse.1 hev)
  generalize trace.reverse = events at ht'
  induction events generalizing vs with
  | nil => exact ⟨vs, rfl, h, rfl⟩
  | cons ev events ih =>
    obtain ⟨vs₁, h₁, hk₁, hval₁⟩ := replayEvent_ok h (ht' ev (by simp))
    obtain ⟨vs', h', hk', hval'⟩ := ih hk₁ (fun x hx => ht' x (by simp [hx]))
    refine ⟨vs', ?_, hk', ?_⟩
    · rw [List.foldlM_cons, h₁]
      exact h'
    · rw [hval', hval₁]
      rfl

end Engine

end MaxSatPrep
