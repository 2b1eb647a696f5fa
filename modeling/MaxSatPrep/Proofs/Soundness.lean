import MaxSatPrep.Proofs.Schedule
/-!
Soundness of preprocessing for reconstruction. An engine is sound for hard clauses `H` when
every valuation satisfying its hard rows is taken by replaying its trace to one that satisfies
`H` and every literal its hard rows and fixed literals force (`Sound`). The forced literals are
part of the invariant because a blocked-clause event may flip a variable that is fixed later:
the literals fixed later are forced by the rows the elimination saw, so the replay keeps them.

Main statements: each technique keeps well-formedness (`Wf`) and soundness (`Sound.propagated`,
`Sound.drop`); a step has the effect of one technique's run (`Step.effect`), hence every step of
preprocessing keeps them (`Step.sound`), and so does a whole preprocessing call, whether it
answers or fails (`preprocess_sound`).
-/

namespace MaxSatPrep

namespace Engine

open Session (intOf)

/-! ## The invariants -/

/-- The engine's formula as the proofs read it: integer rows whose weights fit the removed
weights, integer fixed literals none of whose variables is left in a row, a trace of integer
events, and no variable of a row or a fixed literal above the largest variable. -/
structure Wf (e : Engine) : Prop where
  rows : RowsWf e.rows e.removed
  fixed : ∀ d ∈ e.fixed, IsLit d
  free : ∀ r ∈ e.rows, ∀ d ∈ r.lits, fixLit (fixingOf e.fixed) (intOf d).natAbs = none
  trace : ∀ ev ∈ e.trace, ev.IsInt
  vars : ∀ r ∈ e.rows, ∀ d ∈ r.lits, (intOf d).natAbs ≤ (intOf e.maxVar).natAbs
  fixedVars : ∀ d ∈ e.fixed, (intOf d).natAbs ≤ (intOf e.maxVar).natAbs

/-- the valuation satisfies every hard row of the engine -/
def HardTrue (σ : Valuation) (e : Engine) : Prop := ∀ r ∈ e.rows, r.weights = none → σ.clause r.ints

/-- the literal holds under every valuation satisfying the hard rows and the fixed literals -/
def Entails (e : Engine) (z : Int) : Prop :=
  ∀ σ : Valuation, HardTrue σ e → (∀ d ∈ e.fixed, σ.lit (intOf d)) → σ.lit z

/-- Replaying the trace on a valuation satisfying the hard rows satisfies `H` and every literal
the engine forces. -/
def Sound (H : List (List Int)) (e : Engine) : Prop :=
  ∀ α : Valuation, HardTrue α e →
    (∀ c ∈ H, (α.replay e.trace).clause c) ∧ ∀ z, Entails e z → (α.replay e.trace).lit z

theorem Entails.fixed {e : Engine} {d : Datum} (hd : d ∈ e.fixed) : Entails e (intOf d) :=
  fun _ _ hσ => hσ d hd

theorem Entails.of_sub {e e' : Engine} (hrows : ∀ σ, HardTrue σ e → HardTrue σ e')
    (hfixed : ∀ σ : Valuation, HardTrue σ e → (∀ d ∈ e.fixed, σ.lit (intOf d)) →
      ∀ d ∈ e'.fixed, σ.lit (intOf d))
    {z : Int} (h : Entails e' z) : Entails e z :=
  fun σ hσ hfix => h σ (hrows σ hσ) (hfixed σ hσ hfix)

theorem hardTrue_of_sublist {σ : Valuation} {e e' : Engine} (hsub : e'.rows.Sublist e.rows)
    (h : HardTrue σ e) : HardTrue σ e' :=
  fun r hr hw => h r (hsub.subset hr) hw

/-! ## Replaying fixed literals -/

/-- Replaying fixes of literals on distinct variables makes them all true and leaves the other
variables alone. -/
theorem replay_fixes {F : List Int} (hnd : (F.map Int.natAbs).Nodup) (α : Valuation) :
    (∀ z ∈ F, (α.replay (F.map (fun z => .fix (.int z)))).lit z) ∧
      ∀ n, n ∉ F.map Int.natAbs → α.replay (F.map (fun z => .fix (.int z))) n = α n := by
  induction F with
  | nil => simp
  | cons z F ih =>
    obtain ⟨hz, hnd'⟩ := List.nodup_cons.1 hnd
    obtain ⟨hlits, hrest⟩ := ih hnd'
    have hcons : α.replay ((z :: F).map (fun z => .fix (.int z))) =
        (α.replay (F.map (fun z => .fix (.int z)))).setLit z := by
      simp [Valuation.replay, Valuation.replayEvent]
    rw [hcons]
    refine ⟨fun w hw => ?_, fun n hn => ?_⟩
    · rcases List.mem_cons.1 hw with rfl | hw
      · exact Valuation.lit_setLit_self _ _
      · have hne : w.natAbs ≠ z.natAbs := fun h => hz (h ▸ List.mem_map_of_mem hw)
        exact (Valuation.lit_setLit_of_ne hne).2 (hlits w hw)
    · simp only [List.map_cons, List.mem_cons, not_or] at hn
      simp only [Valuation.setLit, Function.update_of_ne hn.1]
      exact hrest n hn.2

/-! ## Unit propagation -/

/-- the engine a propagation run fixing the literals `F` leaves: the rows swept by the literals
fixed, the weights of the rows retired added to the removed weights, and the fixes traced -/
def propagated (e : Engine) (F : List Int) : Engine :=
  { e with rows := e.rows.filterMap (keptRow (fixingOf (e.fixed ++ F.map .int))),
           removed := addRemoved e.removed
             (e.rows.filter (retiredBy (fixingOf (e.fixed ++ F.map .int)))),
           fixed := e.fixed ++ F.map .int,
           trace := e.trace ++ F.map (fun z => .fix (.int z)) }

section Fixes

variable {e : Engine} {F : List Int}

theorem Wf.fixed_append (hwf : Wf e) (hF : ∀ z ∈ F, z ≠ 0) : ∀ d ∈ e.fixed ++ F.map .int, IsLit d := by
  intro d hd
  rcases List.mem_append.1 hd with hd | hd
  · exact hwf.fixed d hd
  · obtain ⟨z, hz, rfl⟩ := List.mem_map.1 hd
    exact (isLit_int z).2 (hF z hz)

/-- Replaying the fixes of a propagation run makes every literal fixed true on the rows there
were, and leaves alone the variables of the rows kept, none of which is fixed. -/
theorem replay_fixes_rows (hwf : Wf e) (hF : ∀ z ∈ F, z ≠ 0) (hnd : (F.map Int.natAbs).Nodup)
    (α : Valuation) :
    (∀ r ∈ e.rows, AgreesOn (α.replay (F.map (fun z => .fix (.int z))))
      (fixingOf (e.fixed ++ F.map .int)) r) ∧
    ∀ r ∈ e.rows.filterMap (keptRow (fixingOf (e.fixed ++ F.map .int))), ∀ z ∈ r.ints,
      α.replay (F.map (fun z => .fix (.int z))) z.natAbs = α z.natAbs := by
  have hvsF' : fixingOf (e.fixed ++ F.map .int) = F.reverse.map fixEntry ++ fixingOf e.fixed :=
    fixingOf_append _ _
  have hwfF : FixingWf (fixingOf (e.fixed ++ F.map .int)) := fixingOf_wf (hwf.fixed_append hF)
  obtain ⟨hlitsF, hrestF⟩ := replay_fixes hnd α
  refine ⟨fun r hr d hd w hw => ?_, fun r' hr' z hz => ?_⟩
  · rw [hvsF', fixLit_append_map, hwf.free r hr d hd] at hw
    simp only [Option.or_none] at hw
    exact hlitsF w (List.mem_reverse.1 (List.mem_of_find?_eq_some hw))
  · obtain ⟨r, -, hk⟩ := List.mem_filterMap.1 hr'
    obtain ⟨d, hd, rfl⟩ := List.mem_map.1 hz
    refine hrestF _ (fun hmem => ?_)
    obtain ⟨x, hx, hxd⟩ := List.mem_map.1 hmem
    have hfree := keptRow_free hwfF hk d hd
    rw [hvsF', ← hxd, fixLit_of_mem hnd hx] at hfree
    cases hfree

/-- Replaying the fixes of a propagation run on a valuation satisfying the hard rows it keeps
satisfies the hard rows there were. -/
theorem hardTrue_replay_fixes (hwf : Wf e) (hF : ∀ z ∈ F, z ≠ 0) (hnd : (F.map Int.natAbs).Nodup)
    {α : Valuation} (hα : ∀ r ∈ e.rows.filterMap (keptRow (fixingOf (e.fixed ++ F.map .int))),
      r.weights = none → α.clause r.ints) :
    HardTrue (α.replay (F.map (fun z => .fix (.int z)))) e := by
  have hwfF : FixingWf (fixingOf (e.fixed ++ F.map .int)) := fixingOf_wf (hwf.fixed_append hF)
  obtain ⟨hagree, hkept⟩ := replay_fixes_rows hwf hF hnd α
  intro r hr hw
  cases hk : keptRow (fixingOf (e.fixed ++ F.map .int)) r with
  | none => exact keptRow_none_hard (hagree r hr) hk hw
  | some r' =>
    refine (keptRow_some_iff hwfF (hagree r hr) hk).1 ?_
    have hr' : r' ∈ e.rows.filterMap (keptRow (fixingOf (e.fixed ++ F.map .int))) :=
      List.mem_filterMap.2 ⟨r, hr, hk⟩
    have hr'w : r'.weights = none := by
      rw [(keptRow_eq_some hk).1]
      exact hw
    exact (Valuation.clause_congr (fun z hz => hkept r' hr' z hz)).2 (hα r' hr' hr'w)

/-- A propagation run keeps well-formedness: the rows it keeps lose every fixed variable, the
literals it fixes are literals of rows there were, and its events fix integer literals. -/
theorem Wf.propagated (hwf : Wf e) (hF : ∀ z ∈ F, z ≠ 0)
    (hocc : ∀ z ∈ F, ∃ r ∈ e.rows, Datum.int z ∈ r.lits) : Wf (e.propagated F) where
  rows := hwf.rows.kept _ _
  fixed := hwf.fixed_append hF
  free r hr d hd := by
    obtain ⟨r₀, -, hk⟩ := List.mem_filterMap.1 hr
    exact keptRow_free (fixingOf_wf (hwf.fixed_append hF)) hk d hd
  trace ev hev := by
    rcases List.mem_append.1 hev with hev | hev
    · exact hwf.trace ev hev
    · obtain ⟨z, hz, rfl⟩ := List.mem_map.1 hev
      exact (isLit_int z).2 (hF z hz)
  vars r hr d hd := by
    obtain ⟨r₀, hr₀, hd₀⟩ := mem_lits_of_kept hr hd
    exact hwf.vars r₀ hr₀ d hd₀
  fixedVars d hd := by
    rcases List.mem_append.1 hd with hd | hd
    · exact hwf.fixedVars d hd
    · obtain ⟨z, hz, rfl⟩ := List.mem_map.1 hd
      obtain ⟨r, hr, hzr⟩ := hocc z hz
      exact hwf.vars r hr _ hzr

/-- **Unit propagation keeps soundness.** A valuation satisfying the hard rows left becomes, with
the new literals fixed, one satisfying the hard rows there were; and the new engine forces only
what the old one did. -/
theorem Sound.propagated {H : List (List Int)} (hwf : Wf e) (hs : Sound H e) (hF : ∀ z ∈ F, z ≠ 0)
    (hnd : (F.map Int.natAbs).Nodup)
    (hforced : ∀ σ : Valuation, (∀ d ∈ e.fixed, σ.lit (intOf d)) →
      (∀ r ∈ e.rows, r.weights = none → σ.clause r.ints) → ∀ z ∈ F, σ.lit z) :
    Sound H (e.propagated F) := by
  have hwfF : FixingWf (fixingOf (e.fixed ++ F.map .int)) := fixingOf_wf (hwf.fixed_append hF)
  -- the fixes are replayed first: they take a model of the rows left to one of the rows before
  intro α hα
  obtain ⟨hH, hent⟩ := hs _ (hardTrue_replay_fixes hwf hF hnd hα)
  have hreplay : α.replay (e.trace ++ F.map (fun z => .fix (.int z))) =
      (α.replay (F.map (fun z => .fix (.int z)))).replay e.trace :=
    Valuation.replay_append _ _ _
  refine ⟨fun c hc => hreplay ▸ hH c hc, fun z hz => hreplay ▸ hent z ?_⟩
  intro σ hσ hfix
  have hlits : ∀ z ∈ F, σ.lit z := hforced σ hfix hσ
  have hall : ∀ d ∈ e.fixed ++ F.map .int, σ.lit (intOf d) := by
    intro d hd
    rcases List.mem_append.1 hd with hd | hd
    · exact hfix d hd
    · obtain ⟨z, hz, rfl⟩ := List.mem_map.1 hd
      exact hlits z hz
  exact hz σ ((agrees_fixingOf hall).kept_hard hwfF hσ) hall

end Fixes

/-! ## Dropping rows: subsumption and blocked clause elimination -/

/-- Dropping rows and recording integer events keeps well-formedness. -/
theorem Wf.drop {e : Engine} (hwf : Wf e) {rows : List Row} (hsub : rows.Sublist e.rows)
    (events : List Event) (hev : ∀ ev ∈ events, ev.IsInt) :
    Wf { e with rows := rows, trace := e.trace ++ events } where
  rows := ⟨fun r hr => hwf.rows.lits r (hsub.subset hr),
    fun r hr => hwf.rows.weights r (hsub.subset hr), hwf.rows.removed⟩
  fixed := hwf.fixed
  free r hr := hwf.free r (hsub.subset hr)
  trace ev h := (List.mem_append.1 h).elim (hwf.trace ev) (hev ev)
  vars r hr := hwf.vars r (hsub.subset hr)
  fixedVars := hwf.fixedVars

/-- Dropping rows keeps soundness when the hard rows there were follow from the hard rows left
once the new events are replayed: the new engine forces no more than the old one. -/
theorem Sound.drop {H : List (List Int)} {e : Engine} (hs : Sound H e) {rows : List Row}
    (hsub : rows.Sublist e.rows) (events : List Event)
    (hback : ∀ α : Valuation, (∀ r ∈ rows, r.weights = none → α.clause r.ints) →
      HardTrue (α.replay events) e) :
    Sound H { e with rows := rows, trace := e.trace ++ events } := by
  intro α hα
  obtain ⟨hH, hent⟩ := hs (α.replay events) (hback α hα)
  have hreplay : α.replay (e.trace ++ events) = (α.replay events).replay e.trace :=
    Valuation.replay_append _ _ _
  refine ⟨fun c hc => hreplay ▸ hH c hc, fun z hz => hreplay ▸ hent z ?_⟩
  have hrows : ∀ σ, HardTrue σ e → HardTrue σ { e with rows := rows, trace := e.trace ++ events } :=
    fun σ hσ r hr => hσ r (hsub.subset hr)
  exact hz.of_sub hrows (fun _ _ hfix => hfix)

theorem isInt_of_blocked {events : List Event} {P : List Datum → Datum → Prop}
    (hev : ∀ ev ∈ events, ∃ c b, ev = .blocked c b ∧ (∀ d ∈ c, IsLit d) ∧ IsLit b ∧ P c b) :
    ∀ ev ∈ events, ev.IsInt := by
  intro ev hev'
  obtain ⟨c, b, rfl, hc, hb, -⟩ := hev ev hev'
  exact ⟨hc, hb⟩

/-! ## Preprocessing -/

/-- The table as every technique reads it: integer rows whose weights fit the removed weights,
and integer fixed literals. -/
structure Tabled (e : Engine) : Prop where
  rows : RowsWf e.rows e.removed
  fixed : ∀ d ∈ e.fixed, IsLit d

theorem Wf.tabled {e : Engine} (hwf : Wf e) : Tabled e := ⟨hwf.rows, hwf.fixed⟩

/-- What one step did to the engine, with what its run guarantees: a propagation run fixing the
literals `F`, a subsumption run dropping the rows at `gone`, a run of blocked clause elimination
dropping the rows at `gone` and recording `events`, a run that changed nothing, or a change of
the logs. -/
inductive Effect (e : Engine) : Engine → Prop
  | propagate (F : List Int) (hnew : ∀ z ∈ F, z ≠ 0 ∧ fixLit (fixingOf e.fixed) z.natAbs = none)
      (hnd : (F.map Int.natAbs).Nodup) (hocc : ∀ z ∈ F, ∃ r ∈ e.rows, Datum.int z ∈ r.lits)
      (hforced : ∀ σ : Valuation, (∀ d ∈ e.fixed, σ.lit (intOf d)) →
        (∀ r ∈ e.rows, r.weights = none → σ.clause r.ints) → ∀ z ∈ F, σ.lit z) :
      Effect e (e.propagated F)
  | subsume (gone : List Nat) (hkept : KeptSubset e.rows gone) :
      Effect e { e with rows := dropAt e.rows gone }
  | eliminate (gone : List Nat) (events : List Event) (hin : e.inprocessing = false)
      (hhard : ∀ j ∈ gone, ∀ r, e.rows[j]? = some r → r.weights = none)
      (hev : ∀ ev ∈ events, ∃ c b, ev = .blocked c b ∧ (∀ d ∈ c, IsLit d) ∧ IsLit b ∧
        ∀ r ∈ e.rows, r.weights ≠ none → ∀ d ∈ r.lits, (intOf d).natAbs ≠ (intOf b).natAbs)
      (hback : ∀ α : Valuation, (∀ r ∈ dropAt e.rows gone, r.weights = none → α.clause r.ints) →
        HardTrue (α.replay events) e) :
      Effect e { e with rows := dropAt e.rows gone, trace := e.trace ++ events }
  | same : Effect e e
  | note (log : List TechniqueRun) (idle : List (String × Nat)) (info : List String) :
      Effect e { e with log := log, idle := idle, info := info }

theorem eliminateBlocked_inprocessing {e : Engine} (hin : e.inprocessing = true) :
    eliminateBlocked.run e = (.ok false, e) := by
  simp only [eliminateBlocked, EngineM.run_bind, EngineM.run_get]
  rw [if_pos hin]
  rfl

/-- **What a step does.** On integer rows every technique answers, so a step has the effect of a
run of unit propagation, subsumption or blocked clause elimination, of a run that changes
nothing, or of a change of the logs. -/
theorem Step.effect {e e' : Engine} (ht : Tabled e) (h : Step e e') : Effect e e' := by
  cases h with
  | run t hrun =>
    rcases runTechnique_cases t with hr | hr | hr | hr <;> rw [hr] at hrun
    · obtain ⟨F, c, h₁, hnew, hnd, hocc, hforced⟩ := unitPropagate_spec ht.fixed ht.rows
      rw [h₁] at hrun
      cases hrun
      exact .propagate F hnew hnd hocc hforced
    · obtain ⟨c, gone, h₁, hkept⟩ := subsume_spec ht.rows.lits
      rw [h₁] at hrun
      cases hrun
      exact .subsume gone hkept
    · by_cases hin : e.inprocessing = true
      · rw [eliminateBlocked_inprocessing hin] at hrun
        cases hrun
        exact .same
      · obtain ⟨c, gone, events, h₁, hhard, hev, hback⟩ := eliminateBlocked_spec ht.rows.lits
        rw [h₁] at hrun
        cases hrun
        exact .eliminate gone events (by simpa using hin) hhard hev hback
    · cases hrun
      exact .same
  | note _ log idle info => exact .note log idle info

/-- **Step lemma.** Every step of preprocessing keeps well-formedness. -/
theorem Step.wf {e e' : Engine} (hwf : Wf e) (hstep : Step e e') : Wf e' := by
  cases hstep.effect hwf.tabled with
  | propagate F hnew _ hocc _ => exact hwf.propagated (fun z hz => (hnew z hz).1) hocc
  | subsume gone _ =>
    have hwf' := hwf.drop (dropAt_sublist e.rows gone) [] (by simp)
    rwa [List.append_nil] at hwf'
  | eliminate gone events _ _ hev _ =>
    exact hwf.drop (dropAt_sublist e.rows gone) events (isInt_of_blocked hev)
  | same => exact hwf
  | note log idle info =>
    exact ⟨hwf.rows, hwf.fixed, hwf.free, hwf.trace, hwf.vars, hwf.fixedVars⟩

/-- Every step of preprocessing keeps well-formedness and soundness. -/
theorem Step.sound {H : List (List Int)} {e e' : Engine} (hstep : Step e e')
    (h : Wf e ∧ Sound H e) : Wf e' ∧ Sound H e' := by
  obtain ⟨hwf, hs⟩ := h
  refine ⟨hstep.wf hwf, ?_⟩
  cases hstep.effect hwf.tabled with
  | propagate F hnew hnd _ hforced => exact hs.propagated hwf (fun z hz => (hnew z hz).1) hnd hforced
  | subsume gone hkept =>
    have hs' := hs.drop (dropAt_sublist e.rows gone) [] (fun α hα => hkept.hard_true hα)
    rwa [List.append_nil] at hs'
  | eliminate gone events _ _ _ hback => exact hs.drop (dropAt_sublist e.rows gone) events hback
  | same => exact hs
  | note log idle info => exact hs

/-- What preprocessing steps leave alone: the top weight, the largest variable, the objective
count, the pushed assignment and the flags of the stream. -/
structure Frame (e e' : Engine) : Prop where
  top : e'.top = e.top
  maxVar : e'.maxVar = e.maxVar
  nObj : e'.nObj = e.nObj
  assignment : e'.assignment = e.assignment
  inprocessing : e'.inprocessing = e.inprocessing
  finalized : e'.finalized = e.finalized

theorem Frame.refl (e : Engine) : Frame e e := ⟨rfl, rfl, rfl, rfl, rfl, rfl⟩

theorem Frame.trans {e e' e'' : Engine} (h : Frame e e') (h' : Frame e' e'') : Frame e e'' :=
  ⟨h'.top.trans h.top, h'.maxVar.trans h.maxVar, h'.nObj.trans h.nObj,
    h'.assignment.trans h.assignment, h'.inprocessing.trans h.inprocessing,
    h'.finalized.trans h.finalized⟩

theorem Step.frame {e e' : Engine} (ht : Tabled e) (hstep : Step e e') : Frame e e' := by
  cases hstep.effect ht <;> exact ⟨rfl, rfl, rfl, rfl, rfl, rfl⟩

/-- Along steps, well-formedness and soundness hold and the frame stays. -/
theorem Steps.sound {H : List (List Int)} {e e' : Engine} (h : Steps e e') (hwf : Wf e)
    (hs : Sound H e) : Wf e' ∧ Sound H e' ∧ Frame e e' := by
  induction h with
  | refl => exact ⟨hwf, hs, Frame.refl e⟩
  | tail _ hstep ih =>
    obtain ⟨hwf₁, hs₁, hfr₁⟩ := ih
    obtain ⟨hwf₂, hs₂⟩ := hstep.sound ⟨hwf₁, hs₁⟩
    exact ⟨hwf₂, hs₂, hfr₁.trans (hstep.frame hwf₁.tabled)⟩

/-- **Preprocessing keeps soundness.** A preprocessing call, whether it answers or fails, leaves
the engine that steps keeping well-formedness, soundness and the frame reach, with only its top
weight (`TopAfter`), its preprocessed flag and its info log set. -/
theorem preprocess_sound (techniques logLevel timeLimit : Datum) (addRemoved : Bool)
    {H : List (List Int)} {e : Engine} (hwf : Wf e) (hs : Sound H e) :
    ∃ e₁, Wf e₁ ∧ Sound H e₁ ∧ Frame e e₁ ∧ ∃ top p info,
      ((preprocess techniques logLevel timeLimit addRemoved).run e).2 =
        { e₁ with top := top, preprocessed := p, info := info } ∧ TopAfter addRemoved e e₁ top := by
  obtain ⟨e₁, hsteps, top, p, info, heq, htop, -⟩ :=
    preprocess_steps techniques logLevel timeLimit addRemoved e
  obtain ⟨hwf₁, hs₁, hfr₁⟩ := hsteps.sound hwf hs
  exact ⟨e₁, hwf₁, hs₁, hfr₁, top, p, info, heq, htop⟩

end Engine

end MaxSatPrep
