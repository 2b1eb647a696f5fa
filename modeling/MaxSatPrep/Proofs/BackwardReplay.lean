import MaxSatPrep.Proofs.SoundReconstruction
/-!
Backward replay. Reconstruction walks the trace from its last event to its first. Cut the trace
where a run of preprocessing steps began: the events after the cut, which are replayed first,
take a valuation satisfying the hard rows after the run to one satisfying the hard rows at the
cut (`Repairs`).

Main statements: a step from a well-formed engine is repaired by the events it records
(`Step.repairs`), hence so is every run (`Steps.repairs`); on the values reconstruction keeps,
the replay of the whole trace passes at every cut through values satisfying every hard row alive
there (`backward_replay_restores_hard_rows`).

Well-formedness is what the steps read: a fixed variable occurs in no row. A clause added on a
variable already fixed breaks it, and the invariant with it (`stale_fixing_loses_added_clause`).
-/

namespace MaxSatPrep

open Session (intOf)

namespace Engine

/-! ## Repairs -/

/-- The events `ev` close the trace of `e'` after the trace of `e`, and replayed on a valuation
satisfying the hard rows of `e'` they give one satisfying the hard rows of `e`. -/
structure Repairs (e e' : Engine) (ev : List Event) : Prop where
  trace : e'.trace = e.trace ++ ev
  back : ∀ α : Valuation, HardTrue α e' → HardTrue (α.replay ev) e

theorem Repairs.refl (e : Engine) : Repairs e e [] := ⟨(List.append_nil _).symm, fun _ hα => hα⟩

theorem Repairs.trans {e e₁ e₂ : Engine} {ev ev' : List Event} (h : Repairs e e₁ ev)
    (h' : Repairs e₁ e₂ ev') : Repairs e e₂ (ev ++ ev') where
  trace := by rw [h'.trace, h.trace, List.append_assoc]
  back α hα := by
    rw [Valuation.replay_append]
    exact h.back _ (h'.back α hα)

/-! ## One step, then a run -/

/-- **Step lemma.** A step from a well-formed engine is repaired by the events it records. -/
theorem Step.repairs {e e' : Engine} (hwf : Wf e) (hstep : Step e e') : ∃ ev, Repairs e e' ev := by
  cases hstep.effect hwf.tabled with
  | propagate F hnew hnd _ _ =>
    exact ⟨_, rfl, fun α hα => hardTrue_replay_fixes hwf (fun z hz => (hnew z hz).1) hnd hα⟩
  | subsume gone hkept =>
    exact ⟨[], (List.append_nil _).symm, fun α hα => hkept.hard_true hα⟩
  | eliminate gone events _ _ _ hback => exact ⟨events, rfl, hback⟩
  | same => exact ⟨[], Repairs.refl e⟩
  | note log idle info => exact ⟨[], (List.append_nil _).symm, fun _ hα => hα⟩

theorem Steps.wf {e e' : Engine} (hwf : Wf e) (h : Steps e e') : Wf e' :=
  Steps.invariant (fun _ _ hwf hstep => hstep.wf hwf) h hwf

/-- **Run lemma.** A run of steps from a well-formed engine is repaired by the events it
records. -/
theorem Steps.repairs {e e' : Engine} (hwf : Wf e) (h : Steps e e') : ∃ ev, Repairs e e' ev := by
  induction h with
  | refl => exact ⟨[], Repairs.refl e⟩
  | tail hsteps hstep ih =>
    obtain ⟨ev, hrep⟩ := ih
    obtain ⟨ev', hrep'⟩ := hstep.repairs (Steps.wf hwf hsteps)
    exact ⟨ev ++ ev', hrep.trans hrep'⟩

/-! ## The values reconstruction keeps -/

theorem replay_append (vs : Values) (t u : List Event) :
    replay vs (t ++ u) = replay vs u >>= fun vs' => replay vs' t := by
  simp only [replay, List.reverse_append, List.foldlM_append]

/-- **Backward replay.** Cut the trace of an engine reached from a well-formed one where a run of
steps began. Reconstruction, from any values on integer variables satisfying the hard rows after
the run (a variable with no value is false), replays the events after the cut without failing and
reaches there values satisfying every hard row alive at the cut; the rest of the trace is replayed
from them. -/
theorem backward_replay_restores_hard_rows {e₀ e e' : Engine} (hwf : Wf e₀) (h₀ : Steps e₀ e)
    (h : Steps e e') :
    ∃ ev, e'.trace = e.trace ++ ev ∧ ∀ vs : Values, IntKeys vs → HardTrue (Values.val vs) e' →
      ∃ vs', replay vs ev = .ok vs' ∧ replay vs e'.trace = replay vs' e.trace ∧
        HardTrue (Values.val vs') e := by
  -- the cut is well formed, and the run after it is repaired by its own events
  have hwf₁ := h₀.wf hwf
  have hwf₂ := h.wf hwf₁
  obtain ⟨ev, hrep⟩ := h.repairs hwf₁
  refine ⟨ev, hrep.trace, fun vs hvs hα => ?_⟩
  have hint : ∀ x ∈ ev, x.IsInt := by
    intro x hx
    apply hwf₂.trace x
    rw [hrep.trace]
    exact List.mem_append_right _ hx
  obtain ⟨vs', hok, -, hval⟩ := replay_ok hvs hint
  refine ⟨vs', hok, ?_, hval ▸ hrep.back _ hα⟩
  rw [hrep.trace, replay_append, hok]
  rfl

/-- Blocked clause elimination run on the session opened on `¬x1 ∨ x2` is repaired by its
event. -/
theorem elimination_repaired_by_its_event :
    ∃ s₀, Session.openWith .reference {} [[⟨1, true, by decide⟩, ⟨2, false, by decide⟩]] [] false
        none = .ok s₀ ∧
      ∃ ev, ((runTechnique "b").run s₀.engine).2.trace = s₀.engine.trace ++ ev ∧
        ∀ vs : Values, IntKeys vs → HardTrue (Values.val vs) ((runTechnique "b").run s₀.engine).2 →
          ∃ vs', replay vs ev = .ok vs' ∧
            replay vs ((runTechnique "b").run s₀.engine).2.trace = replay vs' s₀.engine.trace ∧
            HardTrue (Values.val vs') s₀.engine := by
  have hview : (Session.openWith .reference {} [[⟨1, true, by decide⟩, ⟨2, false, by decide⟩]] []
      false none).toOption.isSome = true := by
    decide +kernel
  obtain ⟨s₀, hO⟩ := Outcome.exists_of_toOption_isSome hview
  exact ⟨s₀, hO, backward_replay_restores_hard_rows (openWith_reconstructible hO).wf .refl
    (.single (.run "b" rfl))⟩

end Engine

/-- A preprocessing call whose log level is no number fails after its first technique and leaves
the session open, so a clause can be added on a variable unit propagation has fixed. From
`¬x1 ∨ x2`, a failed call eliminates the clause as blocked; `x1` is added, a second failed call
fixes it, and `x1` is added again. The engine is no longer well formed, and the next propagation
run drops the new `x1` as satisfied by the stale fixing without recording an event: reconstructing
the all-false assignment answers a model falsifying it. -/
theorem stale_fixing_loses_added_clause :
    ∃ s₀, Session.openWith .reference {} [[⟨1, true, by decide⟩, ⟨2, false, by decide⟩]] [] false
        none = .ok s₀ ∧
      ∃ s₁, s₀.performAll [.preprocess (some (.str "b")) (some (.str "x")) none false,
          .addClause (.list [.int 1]), .preprocess (some (.str "u")) (some (.str "x")) none false,
          .addClause (.list [.int 1])] = s₁ ∧
        ¬ Engine.Wf s₁.engine ∧ (∃ r ∈ s₁.engine.rows, r.weights = none ∧ r.ints = [1]) ∧
        (s₁.perform (.preprocess (some (.str "u")) none none false)).engine.rows = [] ∧
        ∃ s₂, (s₁.perform (.preprocess (some (.str "u")) none none false)).reconstruct
          [.int (-1), .int (-2)] = .ok ([-1, -2], s₂) := by
  have hview : (Session.openWith .reference {} [[⟨1, true, by decide⟩, ⟨2, false, by decide⟩]] []
      false none).toOption.map (fun s₀ =>
        let s₁ := s₀.performAll [.preprocess (some (.str "b")) (some (.str "x")) none false,
          .addClause (.list [.int 1]), .preprocess (some (.str "u")) (some (.str "x")) none false,
          .addClause (.list [.int 1])]
        (s₁.engine.fixed.map intOf, s₁.engine.rows.map (fun r => (r.ints, r.weights.isNone)),
          (s₁.perform (.preprocess (some (.str "u")) none none false)).engine.rows.length,
          ((s₁.perform (.preprocess (some (.str "u")) none none false)).reconstruct
            [.int (-1), .int (-2)]).toOption.map Prod.fst)) =
      some ([1], [([1], true)], 0, some [-1, -2]) := by
    decide +kernel
  obtain ⟨s₀, hO, hs⟩ := Outcome.exists_of_toOption_map hview
  simp only [Prod.mk.injEq] at hs
  obtain ⟨hfixed, hrows, hleft, hmodel⟩ := hs
  refine ⟨s₀, hO, _, rfl, ?_⟩
  obtain ⟨r, hrows₁, heq⟩ := List.map_eq_singleton_iff.1 hrows
  simp only [Prod.mk.injEq, Option.isNone_iff_eq_none] at heq
  obtain ⟨hints, hw⟩ := heq
  have hr : r ∈ [r] := List.mem_singleton_self r
  rw [← hrows₁] at hr
  obtain ⟨p, hrec, hp⟩ := Option.map_eq_some_iff.1 hmodel
  refine ⟨fun hwf => ?_, ⟨r, hr, hw, hints⟩, List.eq_nil_of_length_eq_zero hleft, p.2, ?_⟩
  · have h1 : (1 : Int) ∈ r.ints := by
      rw [hints]
      exact List.mem_singleton_self _
    obtain ⟨d, hd, hd1⟩ := List.mem_map.1 h1
    have hfree := hwf.free r hr d hd
    rw [hd1, Engine.fixingOf, hfixed] at hfree
    exact absurd hfree (by decide)
  · rw [Outcome.eq_ok_of_toOption hrec, ← hp]

end MaxSatPrep
