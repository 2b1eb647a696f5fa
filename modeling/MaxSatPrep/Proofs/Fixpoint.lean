import MaxSatPrep.Proofs.AtRest
import MaxSatPrep.Proofs.Skipping
/-!
Repeat groups reach a common fixpoint. With `skip_technique` off and time to spare, a pass of a
group visits every technique it names, and the repeat loop runs passes until one reports no change,
which happens before the passes allowed run out since a pass that reports a change lowers the
measure of the table (`runGroup_settles`). In that last pass every run reported no change, so each
found its technique at rest, and the runs after it retire at most soft rows without literals, which
keeps it at rest (`groupPass_settles`). So a plan of repeat groups leaves the techniques of its last
group at rest (`runPlan_settles`, `preprocess_settles`), and a second call whose plan names only
those runs each once and changes nothing but the log, the idle counts, the preprocessed flag and the
info log (`runPlan_quiet`, `preprocess_quiet`). `repeat_groups_reach_common_fixpoint` says this of
two calls on a reachable session whose log level is a number; with a text log level every call
fails after its first run, and a second call can still change the rows
(`text_log_level_leaves_group_unsettled`).
-/
namespace MaxSatPrep

namespace Engine

/-! ## Settling: the first call -/

/-- `e'` is `e` with `runs` logged after its own runs and idle counts of its own: what a visit
of the scheduler adds to the engine a run leaves. -/
def Noted (runs : List TechniqueRun) (e e' : Engine) : Prop :=
  ∃ idle, e' = { e with log := e.log ++ runs, idle := idle }

namespace Noted

variable {runs runs' : List TechniqueRun} {e e' e'' : Engine}

theorem refl (e : Engine) : Noted [] e e := ⟨e.idle, by simp⟩

theorem trans (h : Noted runs e e') (h' : Noted runs' e' e'') : Noted (runs ++ runs') e e'' := by
  obtain ⟨idle, rfl⟩ := h
  obtain ⟨idle', rfl⟩ := h'
  exact ⟨idle', by simp⟩

theorem tabled (h : Noted runs e e') (ht : Tabled e) : Tabled e' := by
  obtain ⟨idle, rfl⟩ := h
  exact ⟨ht.rows, ht.fixed⟩

theorem upToBare (h : Noted runs e e') : UpToBare e e' := by
  obtain ⟨idle, rfl⟩ := h
  exact ⟨.inl rfl, rfl, rfl⟩

theorem atRest {L : List String} (h : Noted runs e e') (hr : AtRest L e) : AtRest L e' := by
  obtain ⟨idle, rfl⟩ := h
  exact hr.congr rfl rfl rfl

theorem options (h : Noted runs e e') : e'.options = e.options := by
  obtain ⟨idle, rfl⟩ := h
  rfl

end Noted

theorem setIdle_with (e : Engine) (l : List TechniqueRun) (t : String) (n : Nat) :
    { e with log := l }.setIdle t n =
      { e with log := l, idle := ({ e with log := l }.setIdle t n).idle } := by
  unfold setIdle
  split <;> rfl

theorem groupPass_unimplemented {expired halting : Bool} {skip : Int} {t : String}
    (himp : implemented t = false) (ts : List String) (c : Bool) :
    groupPass expired halting skip (t :: ts) c = groupPass expired halting skip ts c := by
  simp only [groupPass, himp, Bool.not_false, if_true]

section Visit

variable {skip : Int} (hskip : skip ≤ 0)
include hskip

/-- **A visit** of an implemented technique, with `skip_technique` off, runs it, notes the run,
and goes on with the rest of the group. -/
theorem groupPass_visit {t : String} (himp : implemented t = true) {e : Engine} (ht : Tabled e)
    (ts : List String) (c : Bool) :
    ∃ c₁ e₀ e₁, (runTechnique t).run e = (.ok c₁, e₀) ∧
      Noted [⟨t, c₁, e.rows.length, e₀.rows.length, e₀.fixed.length⟩] e₀ e₁ ∧
      (groupPass false false skip (t :: ts) c).run e =
        (groupPass false false skip ts (c || c₁)).run e₁ := by
  obtain ⟨c₁, e₀, hrun⟩ := runTechnique_answers ht t
  have hvisit : (groupPass false false skip (t :: ts) c).run e =
      (groupPass false false skip ts (c || c₁)).run
        ({ e₀ with log := e₀.log ++
            [(⟨t, c₁, e.rows.length, e₀.rows.length, e₀.fixed.length⟩ : TechniqueRun)] }.setIdle t
          (if c₁ then 0 else e₀.idleRuns t + 1)) := by
    simp only [groupPass, himp, Bool.not_true, Bool.false_eq_true, if_false, EngineM.run_bind,
      EngineM.run_get]
    rw [if_neg (by simp; omega), EngineM.run_bind, runLogged_run hrun]
    simp only [EngineM.run_bind, EngineM.run_modify]
    rfl
  exact ⟨c₁, e₀, _, hrun, ⟨_, setIdle_with _ _ _ _⟩, hvisit⟩

/-- **A pass of a group**, with `skip_technique` off and time to spare, always ends. When it
reports no change it started with no change carried over, it left the rows as they were but
for the soft rows without literals unit propagation retires, and it left every technique of
the group at rest: each run found its technique at rest, and what later runs of the pass
retire keeps it so. -/
theorem groupPass_settles (ts : List String) :
    ∀ (c : Bool) (e : Engine), Tabled e → ∃ c' e',
      (groupPass false false skip ts c).run e = (.ok (.done c'), e') ∧ Tabled e' ∧
        e'.options = e.options ∧ (c' = false → c = false ∧ UpToBare e e' ∧ AtRest ts e') := by
  induction ts with
  | nil =>
    intro c e ht
    exact ⟨c, e, rfl, ht, rfl, fun hc => ⟨hc, .refl e, .nil e⟩⟩
  | cons t ts ih =>
    intro c e ht
    cases himp : implemented t
    case false =>
      obtain ⟨c', e', hrun, ht', hopt, hset⟩ := ih c e ht
      refine ⟨c', e', by rw [groupPass_unimplemented himp]; exact hrun, ht', hopt, fun hc' => ?_⟩
      obtain ⟨hc, hup, hrest⟩ := hset hc'
      refine ⟨hc, hup, hrest.cons (Calm.unimplemented himp e') (fun hu => ?_)⟩
      rw [hu] at himp
      exact absurd himp (by decide)
    case true =>
      obtain ⟨c₁, e₀, e₁, hrun, hnote, hpass⟩ := groupPass_visit hskip himp ht ts c
      have ht₁ : Tabled e₁ := hnote.tabled (Step.tabled ht (.run t hrun))
      obtain ⟨c', e', hrun', ht', hopt, hset⟩ := ih (c || c₁) e₁ ht₁
      refine ⟨c', e', hpass.trans hrun', ht', ?_, fun hc' => ?_⟩
      · rw [hopt, hnote.options, (runTechnique_frame ht hrun).2.2]
      obtain ⟨hc, hup, hrest⟩ := hset hc'
      obtain ⟨rfl, rfl⟩ := Bool.or_eq_false_iff.1 hc
      have hcalm := Calm.of_idle ht hrun
      obtain rfl := runTechnique_quiet ht t hrun
      have hup₁ : UpToBare (idleResult t e) e' := hnote.upToBare.trans hup
      have hup₀ : UpToBare e e' := (upToBare_idleResult t e).trans hup₁
      refine ⟨rfl, hup₀, hrest.cons (hcalm.upToBare hup₀) (fun hu => ?_)⟩
      have hbare : NoBare (idleResult t e) := by
        rw [hu]
        exact noBare_retireBare e
      exact hbare.upToBare hup₁

/-- **The repeat loop of a group** ends in a pass that reports no change, when more passes are
allowed than the measure of the engine: a pass that reports a change lowers it. -/
theorem runGroup_settles (g : Group) (hrep : g.repeats = true) (fuel : Nat) :
    ∀ e : Engine, Tabled e → e.measure < fuel → ∃ e',
      (runGroup false false skip g fuel).run e = (.ok (.done false), e') ∧ Tabled e' ∧
        e'.options = e.options ∧ AtRest g.letters e' := by
  induction fuel with
  | zero => intro e _ hlt; omega
  | succ fuel ih =>
    intro e ht hlt
    obtain ⟨c', e₁, hpass, ht₁, hopt₁, hset⟩ := groupPass_settles hskip g.letters false e ht
    have hmeasure := groupPass_measure false false skip g.letters false hpass
    cases c'
    case false =>
      refine ⟨e₁, ?_, ht₁, hopt₁, (hset rfl).2.2⟩
      simp [runGroup, EngineM.run_bind, hpass, EngineM.run_pure]
    case true =>
      -- the pass lowered the measure, so the passes left still outnumber it
      have hlt₁ : e₁.measure < fuel := by
        have := (hmeasure.2 rfl).resolve_left Bool.false_ne_true
        omega
      obtain ⟨e', hrun, ht', hopt', hrest⟩ := ih e₁ ht₁ hlt₁
      refine ⟨e', ?_, ht', hopt'.trans hopt₁, hrest⟩
      simp [runGroup, EngineM.run_bind, hpass, hrep, hrun]

/-- **A plan of repeat groups** runs to its end, and leaves the techniques of its last group at
rest. -/
theorem runPlan_settles (plan : Plan) (hrep : ∀ g ∈ plan, g.repeats = true) :
    ∀ e : Engine, Tabled e → ∃ e', (runPlan false false skip plan).run e = (.ok (.done false), e') ∧
      e'.options = e.options ∧ ∀ g ∈ plan.getLast?, AtRest g.letters e' := by
  induction plan with
  | nil =>
    intro e _
    exact ⟨e, rfl, rfl, by simp⟩
  | cons g gs ih =>
    intro e ht
    obtain ⟨e₁, hrun, ht₁, hopt₁, hrest₁⟩ :=
      runGroup_settles hskip g (hrep g (.head _)) (e.measure + 1) e ht (by omega)
    obtain ⟨e', hplan, hopt', hlast⟩ := ih (fun g hg => hrep g (.tail _ hg)) e₁ ht₁
    refine ⟨e', by simp [runPlan, EngineM.run_bind, EngineM.run_get, hrun, hplan], hopt'.trans hopt₁,
      ?_⟩
    cases gs with
    | nil =>
      simp only [runPlan, EngineM.run_pure, Prod.mk.injEq] at hplan
      obtain ⟨-, rfl⟩ := hplan
      simpa using hrest₁
    | cons g₂ gs =>
      intro g' hg'
      exact hlast g' (by simpa [List.getLast?_cons_cons] using hg')

/-! ## The second call: every run finds its technique at rest -/

/-- **A pass over techniques at rest** runs each, and each run reports no change and leaves the
engine as it was: the pass only notes its runs. -/
theorem groupPass_quiet {L : List String} (ts : List String) (hts : ∀ t ∈ ts, t ∈ L) :
    ∀ (c : Bool) (e : Engine), Tabled e → AtRest L e → ∃ runs e',
      (groupPass false false skip ts c).run e = (.ok (.done c), e') ∧ Noted runs e e' ∧
        ∀ r ∈ runs, r.changed = false := by
  induction ts with
  | nil =>
    intro c e _ _
    exact ⟨[], e, rfl, .refl e, by simp⟩
  | cons t ts ih =>
    intro c e ht hrest
    have hts' : ∀ t ∈ ts, t ∈ L := fun t' ht' => hts t' (.tail _ ht')
    cases himp : implemented t
    case false =>
      obtain ⟨runs, e', hrun, hnote, hruns⟩ := ih hts' c e ht hrest
      exact ⟨runs, e', by rw [groupPass_unimplemented himp]; exact hrun, hnote, hruns⟩
    case true =>
      obtain ⟨c₁, e₀, e₁, hrun, hnote, hpass⟩ := groupPass_visit hskip himp ht ts c
      rw [hrest.quiet ht (hts t (.head _))] at hrun
      obtain ⟨rfl, rfl⟩ : false = c₁ ∧ e = e₀ := by simpa using hrun
      obtain ⟨runs, e', hrun', hnote', hruns⟩ := ih hts' c e₁ (hnote.tabled ht)
        (hnote.atRest hrest)
      exact ⟨_, e', by rw [hpass, Bool.or_false, hrun'], hnote.trans hnote',
        List.forall_mem_append.2 ⟨by simp, hruns⟩⟩

theorem runGroup_quiet {L : List String} (g : Group) (hg : ∀ t ∈ g.letters, t ∈ L) (fuel : Nat)
    {e : Engine} (ht : Tabled e) (hrest : AtRest L e) :
    ∃ runs e', (runGroup false false skip g (fuel + 1)).run e = (.ok (.done false), e') ∧
      Noted runs e e' ∧ ∀ r ∈ runs, r.changed = false := by
  obtain ⟨runs, e', hpass, hnote, hruns⟩ := groupPass_quiet hskip g.letters hg false e ht hrest
  exact ⟨runs, e', by simp [runGroup, EngineM.run_bind, hpass, EngineM.run_pure], hnote, hruns⟩

/-- **A plan over techniques at rest** only notes runs that report no change. -/
theorem runPlan_quiet {L : List String} (plan : Plan) (hplan : ∀ g ∈ plan, ∀ t ∈ g.letters, t ∈ L) :
    ∀ e : Engine, Tabled e → AtRest L e → ∃ runs e', (runPlan false false skip plan).run e =
      (.ok (.done false), e') ∧ Noted runs e e' ∧ ∀ r ∈ runs, r.changed = false := by
  induction plan with
  | nil =>
    intro e _ _
    exact ⟨[], e, rfl, .refl e, by simp⟩
  | cons g gs ih =>
    intro e ht hrest
    obtain ⟨runs₁, e₁, hrun₁, hnote₁, hruns₁⟩ :=
      runGroup_quiet hskip g (hplan g (.head _)) e.measure ht hrest
    obtain ⟨runs₂, e₂, hrun₂, hnote₂, hruns₂⟩ :=
      ih (fun g hg => hplan g (.tail _ hg)) e₁ (hnote₁.tabled ht) (hnote₁.atRest hrest)
    refine ⟨runs₁ ++ runs₂, e₂, ?_, hnote₁.trans hnote₂,
      List.forall_mem_append.2 ⟨hruns₁, hruns₂⟩⟩
    simp [runPlan, EngineM.run_bind, EngineM.run_get, hrun₁, hrun₂]

end Visit

/-! ## Two calls of preprocessing -/

section Preprocess

variable {techniques logLevel timeLimit : Datum} {addRemoved : Bool} {plan : Plan} {e e' : Engine}

/-- A call whose plan runs to its end from `e` to `e₁` leaves `e₁` with its top weight, its
preprocessed flag and its info log set. -/
theorem preprocess_of_plan (hfin : e.finalized = true) (ht : Tabled e)
    (hplan : Plan.ofDatum techniques = .ok plan) (hlevel : logLevel.number?.isSome = true)
    (hexp : expiredAtStart timeLimit = .ok false) {e₁ : Engine}
    (hplan₁ : (runPlan false false e.skipAfter plan).run e = (.ok (.done false), e₁))
    (he' : e' = ((preprocess techniques logLevel timeLimit addRemoved).run e).2) :
    ∃ top p info, e' = { e₁ with top := top, preprocessed := p, info := info } ∧
      TopAfter addRemoved e e₁ top := by
  have hhalt : logLevel.number?.isNone = false := by simpa using hlevel
  have hunk :
      ((plan.any fun g => g.letters.any fun t => !implemented t) && logLevel.number?.isNone) = false := by
    simp [hhalt]
  have hplan₂ :
      (runPlan false logLevel.number?.isNone e.skipAfter plan).run e = (.ok (.done false), e₁) := by
    rw [hhalt]
    exact hplan₁
  obtain ⟨top, p, info, heq, htop, -⟩ := @preprocess_after_plan techniques logLevel timeLimit addRemoved e
    hfin plan hplan false hexp _ (sumOf_ints ht.rows.removed) hunk _ _ hplan₂
  exact ⟨top, p, info, he'.trans heq, htop⟩

/-- **The first call.** A preprocessing call that runs a plan of repeat groups over letters its
last group holds, with a log level that compares, the deadline not reached and `skip_technique`
off, leaves every technique the plan names at rest, and the options as they were. -/
theorem preprocess_settles (hfin : e.finalized = true) (ht : Tabled e)
    (hplan : Plan.ofDatum techniques = .ok plan) (hrep : ∀ g ∈ plan, g.repeats = true)
    (hlast : ∀ g ∈ plan, ∀ t ∈ g.letters, ∀ g' ∈ plan.getLast?, t ∈ g'.letters)
    (hskip : e.skipAfter ≤ 0) (hlevel : logLevel.number?.isSome = true)
    (hexp : expiredAtStart timeLimit = .ok false)
    (he' : e' = ((preprocess techniques logLevel timeLimit addRemoved).run e).2) :
    e'.options = e.options ∧ AtRest (plan.flatMap Group.letters) e' := by
  obtain ⟨e₁, hplan₁, hopt, hrest⟩ := runPlan_settles hskip plan hrep e ht
  obtain ⟨top, p, info, rfl, -⟩ := preprocess_of_plan hfin ht hplan hlevel hexp hplan₁ he'
  refine ⟨hopt, ?_⟩
  cases hg : plan.getLast? with
  | none => simp [List.getLast?_eq_none_iff.1 hg, AtRest.nil]
  | some g =>
    refine ((hrest g (by simp [hg])).mono (fun t ht => ?_)).congr rfl rfl rfl
    obtain ⟨g', hg', ht'⟩ := List.mem_flatMap.1 ht
    exact hlast g' hg' t ht' g (by simp [hg])

/-- **The second call.** A preprocessing call whose plan names only techniques at rest leaves the
rows, the fixed literals, the removed weights, the trace and the top weight as they are, and
notes only runs that report no change. -/
theorem preprocess_quiet (hfin : e.finalized = true) (ht : Tabled e) (htop : ∃ k : Int, e.top = .int k)
    (hplan : Plan.ofDatum techniques = .ok plan) (hrest : AtRest (plan.flatMap Group.letters) e)
    (hskip : e.skipAfter ≤ 0) (hlevel : logLevel.number?.isSome = true)
    (hexp : expiredAtStart timeLimit = .ok false)
    (he' : e' = ((preprocess techniques logLevel timeLimit addRemoved).run e).2) :
    e'.rows = e.rows ∧ e'.fixed = e.fixed ∧ e'.removed = e.removed ∧ e'.trace = e.trace ∧
      e'.top = e.top ∧ ∃ runs, e'.log = e.log ++ runs ∧ ∀ r ∈ runs, r.changed = false := by
  obtain ⟨runs, e₁, hplan₁, ⟨idle, rfl⟩, hruns⟩ :=
    runPlan_quiet hskip plan (fun g hg t ht => List.mem_flatMap.2 ⟨g, hg, ht⟩) e ht hrest
  obtain ⟨top, p, info, rfl, htop'⟩ := preprocess_of_plan hfin ht hplan hlevel hexp hplan₁ he'
  obtain ⟨k, hk⟩ := htop
  have hsame : top = e.top := by
    rcases htop'.eq_int ht.rows.removed ht.rows.removed hk with h | h <;> simp [h, hk]
  exact ⟨rfl, rfl, rfl, rfl, hsame, runs, rfl, hruns⟩

end Preprocess

end Engine

namespace Session

section Calls

variable {s : Session} (techniques logLevel timeLimit : Option Datum) (addRemoved : Bool)

theorem preprocess_refused
    (htime : Datum.less (timeLimit.getD s.config.timeLimit) (.int 0) ≠ .ok false) :
    (s.preprocess techniques logLevel timeLimit addRemoved).1 = s := by
  unfold preprocess
  dsimp only
  rcases hless : Datum.less (timeLimit.getD s.config.timeLimit) (.int 0) with f | _ | _
  · rfl
  · exact absurd hless htime
  · rfl

theorem Ready.preprocess_runs (h : s.Ready)
    (htime : Datum.less (timeLimit.getD s.config.timeLimit) (.int 0) = .ok false) :
    (s.preprocess techniques logLevel timeLimit addRemoved).1 =
      s.withEngine ((Engine.preprocess (techniques.getD s.config.techniques)
        (logLevel.getD s.config.logLevel) (timeLimit.getD s.config.timeLimit) addRemoved).run s.engine).2 := by
  unfold preprocess
  dsimp only
  rw [htime, h.exclusive]
  dsimp only
  split <;> rename_i heq <;> rw [heq]

theorem Ready.perform_preprocess (h : s.Ready) (techniques : Datum) (addRemoved : Bool)
    (htime : Datum.less s.config.timeLimit (.int 0) = .ok false) :
    (s.perform (.preprocess (some techniques) none none addRemoved)).engine =
      ((Engine.preprocess techniques s.config.logLevel s.config.timeLimit addRemoved).run s.engine).2 := by
  rw [Session.perform, Ready.preprocess_runs (some techniques) none none addRemoved h htime]
  rfl

end Calls

/-- **Repeat groups reach a common fixpoint.** On a reachable session with `skip_technique` off,
a log level that compares and a time limit that leaves time to run, preprocessing with a plan
whose groups all repeat, over letters its last group holds, leaves a table that a second such
call does not change: the second call keeps the rows, the fixed literals, the removed weights,
the trace and the top weight, and every run it logs reports no change. -/
theorem repeat_groups_reach_common_fixpoint {s : Session} (hs : s.Reachable) {techniques : Datum}
    {plan : Plan} (hplan : Plan.ofDatum techniques = .ok plan) (hrep : ∀ g ∈ plan, g.repeats = true)
    (hlast : ∀ g ∈ plan, ∀ t ∈ g.letters, ∀ g' ∈ plan.getLast?, t ∈ g'.letters)
    (hskip : s.engine.skipAfter ≤ 0) (hlevel : s.config.logLevel.number?.isSome = true)
    (hexp : Engine.expiredAtStart s.config.timeLimit = .ok false) (addRemoved₁ addRemoved₂ : Bool) :
    let s₁ := s.perform (.preprocess (some techniques) none none addRemoved₁)
    let s₂ := s₁.perform (.preprocess (some techniques) none none addRemoved₂)
    s₂.engine.rows = s₁.engine.rows ∧ s₂.engine.fixed = s₁.engine.fixed ∧
      s₂.engine.removed = s₁.engine.removed ∧ s₂.engine.trace = s₁.engine.trace ∧
      s₂.engine.top = s₁.engine.top ∧
      ∃ runs, s₂.engine.log = s₁.engine.log ++ runs ∧ ∀ r ∈ runs, r.changed = false := by
  intro s₁ s₂
  have hready := hs.ready
  have hready₁ : s₁.Ready := (hs.perform _).ready
  have hconf : s₁.config = s.config := hready.perform_config _
  by_cases htime : Datum.less s.config.timeLimit (.int 0) = .ok false
  case neg =>
    have hs₂ : s₂ = s₁ := preprocess_refused _ _ _ _ (by rwa [hconf])
    rw [hs₂]
    exact ⟨rfl, rfl, rfl, rfl, rfl, [], by simp, by simp⟩
  have he₁ : s₁.engine = _ := hready.perform_preprocess techniques addRemoved₁ htime
  have he₂ : s₂.engine = _ := hready₁.perform_preprocess techniques addRemoved₂ (by rwa [hconf])
  rw [hconf] at he₂
  -- the first call leaves every technique the plan names at rest
  obtain ⟨hopt, hrest⟩ := Engine.preprocess_settles hready.shape.finalized hready.shape.tabled hplan hrep
    hlast hskip hlevel hexp he₁
  have hskip₁ : s₁.engine.skipAfter ≤ 0 := by
    rw [Engine.skipAfter_congr hopt]
    exact hskip
  exact Engine.preprocess_quiet hready₁.shape.finalized hready₁.shape.tabled hready₁.shape.top hplan hrest
    hskip₁ hlevel hexp he₂

/-- The default plan `[bu]#[buvsrgc]`, run twice on the clauses `x1 ∨ x2`, `¬x1 ∨ x3` and `¬x3`,
changes nothing the second time. -/
theorem default_plan_settles_in_one_call :
    ∃ s : Session, s.Reachable ∧
      let s₁ := s.perform (.preprocess (some (.str "[bu]#[buvsrgc]")) none none true)
      let s₂ := s₁.perform (.preprocess (some (.str "[bu]#[buvsrgc]")) none none true)
      s₂.engine.rows = s₁.engine.rows ∧ s₂.engine.fixed = s₁.engine.fixed ∧
        s₂.engine.removed = s₁.engine.removed ∧ s₂.engine.trace = s₁.engine.trace ∧
        s₂.engine.top = s₁.engine.top ∧
        ∃ runs, s₂.engine.log = s₁.engine.log ++ runs ∧ ∀ r ∈ runs, r.changed = false := by
  have hview : (openWith .reference {} [[⟨1, false, by decide⟩, ⟨2, false, by decide⟩],
      [⟨1, true, by decide⟩, ⟨3, false, by decide⟩], [⟨3, true, by decide⟩]] [] false
      none).toOption.map
      (fun s => (decide (s.engine.skipAfter ≤ 0), s.config.logLevel.number?.isSome,
        (Engine.expiredAtStart s.config.timeLimit).toOption)) = some (true, true, some false) := by
    decide +kernel
  obtain ⟨s, hO, hs⟩ := Outcome.exists_of_toOption_map hview
  simp only [Prod.mk.injEq, decide_eq_true_eq] at hs
  obtain ⟨hskip, hlevel, hexp⟩ := hs
  have hplan : (Plan.ofDatum (.str "[bu]#[buvsrgc]")).toOption =
      some [⟨["b", "u"], true⟩, ⟨["b", "u", "v", "s", "r", "g", "c"], true⟩] := by
    decide +kernel
  exact ⟨s, .opened hO, repeat_groups_reach_common_fixpoint (.opened hO)
    (Outcome.eq_ok_of_toOption hplan) (by decide) (by decide) hskip hlevel (Outcome.eq_ok_of_toOption hexp)
    true true⟩

/-- The numeric log level is needed. With the log level `"x"` configured, every call fails after its
first run, so the first call of `[b]` on `x1` and `¬x1 ∨ x2` eliminates only the clause blocked on
`x2`, and a second call, failing the same way, eliminates `x1`, blocked by then: with
`skip_technique` off and time to run, the second call changes the rows and logs a run that
reports a change. -/
theorem text_log_level_leaves_group_unsettled :
    ∃ s : Session, openWith .reference { logLevel := .str "x" } [[⟨1, false, by decide⟩],
        [⟨1, true, by decide⟩, ⟨2, false, by decide⟩]] [] false none = .ok s ∧
      s.Reachable ∧ s.engine.skipAfter ≤ 0 ∧ s.config.logLevel.number?.isSome = false ∧
      Engine.expiredAtStart s.config.timeLimit = .ok false ∧
      let s₁ := s.perform (.preprocess (some (.str "[b]")) none none false)
      let s₂ := s₁.perform (.preprocess (some (.str "[b]")) none none false)
      s₂.engine.rows ≠ s₁.engine.rows ∧ s₁.engine.log.map TechniqueRun.changed = [true] ∧
        s₂.engine.log.map TechniqueRun.changed = [true, true] := by
  have hview : (openWith .reference { logLevel := .str "x" } [[⟨1, false, by decide⟩],
      [⟨1, true, by decide⟩, ⟨2, false, by decide⟩]] [] false none).toOption.map (fun s =>
        let s₁ := s.perform (.preprocess (some (.str "[b]")) none none false)
        let s₂ := s₁.perform (.preprocess (some (.str "[b]")) none none false)
        (decide (s.engine.skipAfter ≤ 0) && !s.config.logLevel.number?.isSome,
          (Engine.expiredAtStart s.config.timeLimit).toOption, [s₁.engine.rows.length, s₂.engine.rows.length],
          [s₁.engine.log.map TechniqueRun.changed, s₂.engine.log.map TechniqueRun.changed])) =
      some (true, some false, [1, 0], [[true], [true, true]]) := by
    decide +kernel
  obtain ⟨s, hO, hs⟩ := Outcome.exists_of_toOption_map hview
  simp only [Prod.mk.injEq, Bool.and_eq_true, decide_eq_true_eq, Bool.not_eq_true', List.cons.injEq,
    and_true] at hs
  obtain ⟨⟨hskip, hlevel⟩, hexp, ⟨h₁, h₂⟩, hlog₁, hlog₂⟩ := hs
  refine ⟨s, hO, .opened hO, hskip, hlevel, Outcome.eq_ok_of_toOption hexp, ?_, hlog₁, hlog₂⟩
  intro h
  have := congrArg List.length h
  omega

end Session

end MaxSatPrep
