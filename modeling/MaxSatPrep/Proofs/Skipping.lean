import MaxSatPrep.Proofs.Flags
import MaxSatPrep.Proofs.Reachable
import MaxSatPrep.Proofs.SoundReconstruction
/-!
The option `skip_technique`. With it at `k > 0` a technique whose last `k` runs changed nothing is
passed over by the scheduler. The engine keeps an idle count per technique and the technique log;
the invariant `LogCounted` says the two agree (the count is the length of the run of idle flags at
the end of the technique's records) and that no technique has `k + 1` idle runs in a row.

A visit of the scheduler either skips a technique, leaving the engine as it is, or runs it, logs
it and sets its count to the one the log implies (`groupPass_skip`, `groupPass_run`).
`KeepsCounted` says a computation keeps the invariant and lets the runs of each technique grow only
while they do not end with `k` idle runs; it is closed under the combinators the scheduler and
preprocessing are written with, so it holds of a preprocessing call whose log level is a number
(`preprocess_counts`). Over the calls of a session this gives `idle_techniques_stop_running`.

A log level that is no number breaks the count: the run is logged, then the call fails before the
idle count is set (`text_log_level_loses_idle_count`).
-/
namespace MaxSatPrep

namespace Engine

/-! ## The idle count a log implies -/

/-- the flags of the logged runs of a technique, in order -/
def runsOf (t : String) (log : List TechniqueRun) : List Bool :=
  (log.filter (fun r => r.technique == t)).map TechniqueRun.changed

/-- the number of runs that changed nothing at the end of a list of flags: the idle count kept
for a technique whose runs they are -/
def idleTail (flags : List Bool) : Nat := flags.foldl (fun n c => if c then 0 else n + 1) 0

@[simp] theorem runsOf_nil (t : String) : runsOf t [] = [] := rfl

@[simp] theorem runsOf_concat (t : String) (log : List TechniqueRun) (r : TechniqueRun) :
    runsOf t (log ++ [r]) = runsOf t log ++ (if r.technique = t then [r.changed] else []) := by
  by_cases h : r.technique = t <;> simp [runsOf, h]

@[simp] theorem idleTail_nil : idleTail [] = 0 := rfl

@[simp] theorem idleTail_concat (flags : List Bool) (c : Bool) :
    idleTail (flags ++ [c]) = if c then 0 else idleTail flags + 1 := by
  simp [idleTail, List.foldl_append]

theorem idleTail_append_replicate (flags : List Bool) (n : Nat) :
    idleTail (flags ++ List.replicate n false) = idleTail flags + n := by
  induction n with
  | zero => simp
  | succ n ih =>
    rw [List.replicate_succ', ← List.append_assoc, idleTail_concat, ih]
    simp
    omega

theorem not_infix_concat {k : Nat} {flags : List Bool} {c : Bool}
    (h : ¬ List.replicate (k + 1) false <:+: flags) (hc : idleTail (flags ++ [c]) ≤ k) :
    ¬ List.replicate (k + 1) false <:+: flags ++ [c] := by
  rintro ⟨pre, post, heq⟩
  rcases List.eq_nil_or_concat post with rfl | ⟨post', x, rfl⟩
  · rw [List.append_nil] at heq
    have := idleTail_append_replicate pre (k + 1)
    rw [heq] at this
    omega
  · rw [List.concat_eq_append, ← List.append_assoc] at heq
    exact h ⟨pre, post', (List.append_inj' heq rfl).1⟩

/-! ## Idle counts in step with the log -/

@[simp] theorem idleRuns_setIdle (e : Engine) (t : String) (n : Nat) (t' : String) :
    (e.setIdle t n).idleRuns t' = if t' = t then n else e.idleRuns t' := by
  unfold setIdle idleRuns
  split
  · rename_i hany
    rw [List.find?_map]
    by_cases ht : t' = t
    · subst ht
      have hsome : (e.idle.find? (fun p => p.1 == t')).isSome := by
        rw [List.find?_isSome]
        simpa using hany
      have hf : (fun p : String × Nat => (if p.1 == t' then (t', n) else p).1 == t') = (fun p => p.1 == t') := by
        funext p
        by_cases hp : p.1 = t' <;> simp [hp]
      rw [Function.comp_def, hf]
      obtain ⟨p, hp⟩ := Option.isSome_iff_exists.1 hsome
      have hp1 : p.1 = t' := by simpa using List.find?_some hp
      simp [hp, hp1]
    · have hf : (fun p : String × Nat => (if p.1 == t then (t, n) else p).1 == t') = (fun p => p.1 == t') := by
        funext p
        by_cases hp : p.1 = t <;> simp [hp]
      rw [Function.comp_def, hf]
      cases hfind : e.idle.find? (fun p => p.1 == t') with
      | none => simp [ht]
      | some p =>
        have hp1 : p.1 = t' := by simpa using List.find?_some hfind
        have hpt : ¬ p.1 = t := by rw [hp1]; exact ht
        simp [ht, hpt]
  · rename_i hany
    rw [List.find?_append]
    by_cases ht : t' = t
    · subst ht
      have hnone : e.idle.find? (fun p => p.1 == t') = none := by
        rw [List.find?_eq_none]
        intro p hp hpt
        exact hany (List.any_eq_true.2 ⟨p, hp, hpt⟩)
      simp [hnone]
    · cases hfind : e.idle.find? (fun p => p.1 == t') with
      | none => simp [ht, Ne.symm ht]
      | some p => simp [ht]

/-- The technique log and the idle counts under the option `skip_technique` at `k`: each idle
count is the count the log implies, and no technique has more than `k` runs in a row that
changed nothing. -/
structure LogCounted (k : Nat) (e : Engine) : Prop where
  skip : e.skipAfter = k
  idle : ∀ t, e.idleRuns t = idleTail (runsOf t e.log)
  bounded : ∀ t, ¬ List.replicate (k + 1) false <:+: runsOf t e.log

theorem LogCounted.of_log {k : Nat} {e e' : Engine} (h : LogCounted k e) (hskip : e'.skipAfter = k)
    (hidle : e'.idle = e.idle) (hlog : e'.log = e.log) : LogCounted k e' where
  skip := hskip
  idle t := by rw [show e'.idleRuns t = e.idleRuns t by simp only [idleRuns, hidle], hlog]; exact h.idle t
  bounded t := hlog ▸ h.bounded t

theorem skipAfter_congr {e e' : Engine} (h : e'.options = e.options) : e'.skipAfter = e.skipAfter := by
  simp only [skipAfter, option?, h]

theorem LogCounted.congr {k : Nat} {e e' : Engine} (h : LogCounted k e) (hopt : e'.options = e.options)
    (hidle : e'.idle = e.idle) (hlog : e'.log = e.log) : LogCounted k e' :=
  h.of_log ((skipAfter_congr hopt).trans h.skip) hidle hlog

theorem LogCounted.of_empty {k : Nat} {e : Engine} (hskip : e.skipAfter = k) (hidle : e.idle = [])
    (hlog : e.log = []) : LogCounted k e where
  skip := hskip
  idle t := by simp [idleRuns, hidle, hlog]
  bounded t := by
    rw [hlog, runsOf_nil]
    intro h
    simpa using h.length_le

/-- The runs of each technique only grow, and not at all once they end with `k` runs that
changed nothing. -/
def LogGrows (k : Nat) (e e' : Engine) : Prop :=
  ∀ t, runsOf t e.log <+: runsOf t e'.log ∧
    (k ≤ idleTail (runsOf t e.log) → runsOf t e'.log = runsOf t e.log)

theorem LogGrows.refl (k : Nat) (e : Engine) : LogGrows k e e :=
  fun _ => ⟨List.prefix_refl _, fun _ => rfl⟩

theorem LogGrows.trans {k : Nat} {e e' e'' : Engine} (h : LogGrows k e e') (h' : LogGrows k e' e'') :
    LogGrows k e e'' := by
  intro t
  refine ⟨(h t).1.trans (h' t).1, fun hk => ?_⟩
  have h₁ := (h t).2 hk
  rw [(h' t).2 (h₁ ▸ hk), h₁]

theorem LogGrows.of_log {k : Nat} {e e' : Engine} (h : e'.log = e.log) : LogGrows k e e' := by
  rw [LogGrows, h]
  exact LogGrows.refl k e

/-- A computation that keeps the table of integer rows and the log counted, and lets the runs of
each technique grow only as `LogGrows` allows, whether it answers or fails. -/
def KeepsCounted (k : Nat) {α : Type} (m : EngineM α) : Prop :=
  ∀ e, Tabled e → LogCounted k e → Tabled (m.run e).2 ∧ LogCounted k (m.run e).2 ∧ LogGrows k e (m.run e).2

namespace KeepsCounted

variable {k : Nat} {α β : Type}

theorem of_state {m : EngineM α} (h : ∀ e, (m.run e).2 = e) : KeepsCounted k m := by
  intro e ht hc
  rw [h e]
  exact ⟨ht, hc, LogGrows.refl k e⟩

theorem pure (a : α) : KeepsCounted k (Pure.pure a : EngineM α) := of_state (fun _ => rfl)

theorem throw (f : Failure) : KeepsCounted k (MonadExcept.throw f : EngineM α) := of_state (fun _ => rfl)

theorem lift (o : Outcome α) : KeepsCounted k (EngineM.lift o) := of_state (fun e => by rw [EngineM.run_lift])

theorem bind {m : EngineM α} {f : α → EngineM β} (hm : KeepsCounted k m) (hf : ∀ a, KeepsCounted k (f a)) :
    KeepsCounted k (m >>= f) := by
  intro e ht hc
  rw [EngineM.run_bind]
  obtain ⟨ht₁, hc₁, hg₁⟩ := hm e ht hc
  rcases hrun : m.run e with ⟨_ | a, e₁⟩
  · rw [hrun] at ht₁ hc₁ hg₁
    exact ⟨ht₁, hc₁, hg₁⟩
  · rw [hrun] at ht₁ hc₁ hg₁
    obtain ⟨ht₂, hc₂, hg₂⟩ := hf a e₁ ht₁ hc₁
    exact ⟨ht₂, hc₂, hg₁.trans hg₂⟩

theorem get_bind {f : Engine → EngineM β} (hf : ∀ e, LogCounted k e → KeepsCounted k (f e)) :
    KeepsCounted k ((get : EngineM Engine) >>= f) := by
  intro e ht hc
  rw [EngineM.run_bind, EngineM.run_get]
  exact hf e hc e ht hc

theorem ite {c : Prop} [Decidable c] {m m' : EngineM α} (hm : KeepsCounted k m) (hm' : KeepsCounted k m') :
    KeepsCounted k (if c then m else m') := by
  split
  · exact hm
  · exact hm'

theorem modify {f : Engine → Engine}
    (hf : ∀ e, (f e).rows = e.rows ∧ (f e).removed = e.removed ∧ (f e).fixed = e.fixed ∧
      (f e).options = e.options ∧ (f e).idle = e.idle ∧ (f e).log = e.log) :
    KeepsCounted k (modify f : EngineM Unit) := by
  intro e ht hc
  rw [EngineM.run_modify]
  obtain ⟨hrows, hrem, hfix, hopt, hidle, hlog⟩ := hf e
  refine ⟨?_, hc.congr hopt hidle hlog, LogGrows.of_log hlog⟩
  exact ⟨hrows ▸ hrem ▸ ht.rows, hfix ▸ ht.fixed⟩

theorem guard {c : Prop} [Decidable c] {f : Failure} {rest : Unit → EngineM β}
    (h : KeepsCounted k (rest ())) : KeepsCounted k (if c then (MonadExcept.throw f : EngineM Unit) >>= rest else rest ()) :=
  ite (bind (throw f) (fun _ => h)) h

end KeepsCounted

/-! ## A visit of the scheduler -/

theorem setIdle_frame (e : Engine) (t : String) (n : Nat) :
    (e.setIdle t n).rows = e.rows ∧ (e.setIdle t n).removed = e.removed ∧ (e.setIdle t n).fixed = e.fixed ∧
      (e.setIdle t n).options = e.options ∧ (e.setIdle t n).log = e.log := by
  unfold setIdle
  split <;> exact ⟨rfl, rfl, rfl, rfl, rfl⟩

/-- On integer rows a technique leaves the log, the idle counts and the options alone. -/
theorem runTechnique_frame {e e₁ : Engine} (ht : Tabled e) {t : String} {c : Bool}
    (h : (runTechnique t).run e = (.ok c, e₁)) : e₁.log = e.log ∧ e₁.idle = e.idle ∧ e₁.options = e.options := by
  rcases runTechnique_cases t with hr | hr | hr | hr <;> rw [hr] at h
  · obtain ⟨F, c₁, h₁, -⟩ := unitPropagate_spec ht.fixed ht.rows
    obtain rfl := EngineM.state_of_ok h₁ h
    exact ⟨rfl, rfl, rfl⟩
  · obtain ⟨c₁, gone, h₁, -⟩ := subsume_spec ht.rows.lits
    obtain rfl := EngineM.state_of_ok h₁ h
    exact ⟨rfl, rfl, rfl⟩
  · obtain ⟨c₁, gone, events, h₁, -⟩ := eliminateBlocked_spec ht.rows.lits
    obtain rfl := EngineM.state_of_ok h₁ h
    exact ⟨rfl, rfl, rfl⟩
  · simp only [EngineM.run_pure, Prod.mk.injEq] at h
    obtain ⟨-, rfl⟩ := h
    exact ⟨rfl, rfl, rfl⟩

section Visit

variable {k : Nat} {e : Engine} {t : String}

/-- **One run, counted.** Appending a run of a technique whose idle count is below `k`, and
setting its idle count to the one the log then implies, keeps the log counted. -/
theorem LogCounted.record (hc : LogCounted k e) (hlt : e.idleRuns t < k) (run : TechniqueRun)
    (hrt : run.technique = t) :
    LogCounted k ({ e with log := e.log ++ [run] }.setIdle t (idleTail (runsOf t (e.log ++ [run])))) ∧
      LogGrows k e ({ e with log := e.log ++ [run] }.setIdle t (idleTail (runsOf t (e.log ++ [run])))) := by
  obtain ⟨-, -, -, hopt, hlog⟩ := setIdle_frame { e with log := e.log ++ [run] } t
    (idleTail (runsOf t (e.log ++ [run])))
  have hruns : ∀ t', runsOf t' (e.log ++ [run]) =
      runsOf t' e.log ++ (if t' = t then [run.changed] else []) := by
    intro t'
    rw [runsOf_concat, hrt]
    by_cases ht' : t' = t
    · simp [ht']
    · simp [ht', Ne.symm ht']
  have htail : idleTail (runsOf t (e.log ++ [run])) ≤ k := by
    rw [hruns t, if_pos rfl, idleTail_concat, ← hc.idle t]
    split <;> omega
  refine ⟨⟨?_, fun t' => ?_, fun t' => ?_⟩, fun t' => ?_⟩
  · rw [← hc.skip]
    simp only [skipAfter, option?, hopt]
  · rw [idleRuns_setIdle, hlog]
    by_cases ht' : t' = t
    · rw [if_pos ht', ht']
    · rw [if_neg ht', hruns t', if_neg ht', List.append_nil]
      exact hc.idle t'
  · rw [hlog]
    by_cases ht' : t' = t
    · subst ht'
      rw [hruns t', if_pos rfl] at htail ⊢
      exact not_infix_concat (hc.bounded t') htail
    · rw [hruns t', if_neg ht', List.append_nil]
      exact hc.bounded t'
  · rw [hlog, hruns t']
    by_cases ht' : t' = t
    · rw [if_pos ht']
      refine ⟨List.prefix_append _ _, fun hk => ?_⟩
      rw [ht', ← hc.idle t] at hk
      omega
    · rw [if_neg ht', List.append_nil]
      exact ⟨List.prefix_refl _, fun _ => rfl⟩

/-- **A run of a technique below its bound.** On integer rows it answers and is logged with its
flag; setting its idle count to the one the log implies keeps the log counted. -/
theorem LogCounted.logged (hc : LogCounted k e) (ht : Tabled e) (hlt : e.idleRuns t < k) :
    ∃ c e₁, (runLogged t).run e = (.ok c, e₁) ∧ runsOf t e₁.log = runsOf t e.log ++ [c] ∧
      e₁.idleRuns t = e.idleRuns t ∧ Tabled (e₁.setIdle t (idleTail (runsOf t e₁.log))) ∧
      LogCounted k (e₁.setIdle t (idleTail (runsOf t e₁.log))) ∧
      LogGrows k e (e₁.setIdle t (idleTail (runsOf t e₁.log))) := by
  obtain ⟨c, e₀, hrun⟩ := runTechnique_answers ht t
  obtain ⟨hlog, hidle, hopt⟩ := runTechnique_frame ht hrun
  have ht₀ : Tabled e₀ := Step.tabled ht (.run t hrun)
  have hc₀ : LogCounted k e₀ := hc.congr hopt hidle hlog
  have hidle₀ : e₀.idleRuns t = e.idleRuns t := by simp only [idleRuns, hidle]
  obtain ⟨hc₁, hg₁⟩ := hc₀.record (hidle₀ ▸ hlt) ⟨t, c, e.rows.length, e₀.rows.length, e₀.fixed.length⟩ rfl
  obtain ⟨hrows, hrem, hfix, -, -⟩ := setIdle_frame { e₀ with log := e₀.log ++ [⟨t, c, e.rows.length,
    e₀.rows.length, e₀.fixed.length⟩] } t (idleTail (runsOf t (e₀.log ++ [⟨t, c, e.rows.length,
    e₀.rows.length, e₀.fixed.length⟩])))
  refine ⟨c, _, runLogged_run hrun, by simp [hlog], hidle₀, ⟨?_, ?_⟩, hc₁, (LogGrows.of_log hlog).trans hg₁⟩
  · rw [hrows, hrem]
    exact ht₀.rows
  · rw [hfix]
    exact ht₀.fixed

end Visit

/-! ## The scheduler keeps the log counted -/

section Schedule

variable {k : Nat}

/-- **A visit that skips.** A technique whose runs end with `k` runs that changed nothing is
passed over: the pass goes on with the rest of the group from the same engine. -/
theorem groupPass_skip {e : Engine} (hc : LogCounted k e) {t : String} (hge : k ≤ idleTail (runsOf t e.log))
    (ts : List String) (c : Bool) (hk : 0 < k) :
    (groupPass false false k (t :: ts) c).run e = (groupPass false false k ts c).run e := by
  simp only [groupPass]
  split
  · rfl
  rw [if_neg Bool.false_ne_true, EngineM.run_bind, EngineM.run_get]
  dsimp only
  rw [if_pos (by simp [hc.idle t, hk, hge])]

/-- **A visit that runs.** A technique whose idle count is below `k` is run and logged, its idle
count set to the one the log then implies, and the pass goes on from there. -/
theorem groupPass_run {e e₁ : Engine} (hc : LogCounted k e) {t : String} (himp : implemented t = true)
    (hlt : idleTail (runsOf t e.log) < k) {c' : Bool} (hrun : (runLogged t).run e = (.ok c', e₁))
    (hruns : runsOf t e₁.log = runsOf t e.log ++ [c']) (hidle : e₁.idleRuns t = e.idleRuns t)
    (ts : List String) (c : Bool) :
    (groupPass false false k (t :: ts) c).run e =
      (groupPass false false k ts (c || c')).run (e₁.setIdle t (idleTail (runsOf t e₁.log))) := by
  have hset : (if c' then 0 else e₁.idleRuns t + 1) = idleTail (runsOf t e₁.log) := by
    rw [hruns, idleTail_concat, hidle, hc.idle t]
  simp only [groupPass, himp, Bool.not_true, Bool.false_eq_true, if_false, EngineM.run_bind,
    EngineM.run_get]
  rw [if_neg (by simp [hc.idle t]; omega), EngineM.run_bind, hrun]
  simp only [EngineM.run_bind, EngineM.run_modify, hset]

/-- **A pass of a group** with `skip_technique` at `k > 0` and a log level that compares keeps the
log counted. -/
theorem groupPass_counts (hk : 0 < k) (expired : Bool) (ts : List String) (c : Bool) :
    KeepsCounted k (groupPass expired false k ts c) := by
  induction ts generalizing c with
  | nil => exact KeepsCounted.pure _
  | cons t ts ih =>
    intro e ht hc
    cases himp : implemented t
    case false =>
      simp only [groupPass, himp, Bool.not_false, if_true]
      exact ih c e ht hc
    cases expired
    case true =>
      simp only [groupPass, himp, Bool.not_true, Bool.false_eq_true, if_false, if_true, EngineM.run_pure]
      exact ⟨ht, hc, LogGrows.refl k e⟩
    by_cases hge : k ≤ idleTail (runsOf t e.log)
    · rw [groupPass_skip hc hge ts c hk]
      exact ih c e ht hc
    · obtain ⟨c', e₁, hrun, hruns, hidle, ht₁, hc₁, hg₁⟩ := hc.logged ht (by rw [hc.idle t]; omega)
      rw [groupPass_run hc himp (by omega) hrun hruns hidle ts c]
      obtain ⟨ht₂, hc₂, hg₂⟩ := ih (c || c') _ ht₁ hc₁
      exact ⟨ht₂, hc₂, hg₁.trans hg₂⟩

theorem runGroup_counts (hk : 0 < k) (expired : Bool) (g : Group) (fuel : Nat) :
    KeepsCounted k (runGroup expired false k g fuel) := by
  induction fuel with
  | zero => exact KeepsCounted.pure _
  | succ fuel ih =>
    simp only [runGroup]
    refine KeepsCounted.bind (groupPass_counts hk expired g.letters false) (fun ending => ?_)
    cases ending with
    | done changed => exact KeepsCounted.ite ih (KeepsCounted.pure _)
    | expired => exact KeepsCounted.pure _
    | halted => exact KeepsCounted.pure _

theorem runPlan_counts (hk : 0 < k) (expired : Bool) (plan : Plan) :
    KeepsCounted k (runPlan expired false k plan) := by
  induction plan with
  | nil => exact KeepsCounted.pure _
  | cons g gs ih =>
    simp only [runPlan]
    refine KeepsCounted.get_bind (fun e _ => KeepsCounted.bind (runGroup_counts hk expired g _) (fun ending => ?_))
    cases ending with
    | done changed => exact ih
    | expired =>
      exact KeepsCounted.bind (KeepsCounted.modify (fun e => ⟨rfl, rfl, rfl, rfl, rfl, rfl⟩))
        (fun _ => KeepsCounted.pure _)
    | halted => exact KeepsCounted.pure _

/-- **A preprocessing call** whose log level is a number keeps the log counted, whether it answers
or fails: the plan runs with the engine's own `skip_technique`, and the rest of the call only
reads the engine or sets its top weight, its preprocessed flag and its info log. -/
theorem preprocess_counts {k : Nat} (hk : 0 < k) (techniques logLevel timeLimit : Datum) (addRemoved : Bool)
    (hlevel : logLevel.number?.isSome = true) :
    KeepsCounted k (preprocess techniques logLevel timeLimit addRemoved) := by
  have hhalt : logLevel.number?.isNone = false := by simpa using hlevel
  unfold preprocess
  refine KeepsCounted.get_bind (fun e he => KeepsCounted.guard ?_)
  refine KeepsCounted.bind (KeepsCounted.lift _) (fun plan => ?_)
  refine KeepsCounted.bind (KeepsCounted.lift _) (fun expired => ?_)
  refine KeepsCounted.bind (KeepsCounted.lift _) (fun before => KeepsCounted.guard ?_)
  rw [hhalt, he.skip]
  refine KeepsCounted.bind (runPlan_counts hk expired plan) (fun ending => KeepsCounted.guard ?_)
  refine KeepsCounted.get_bind (fun _ _ => KeepsCounted.bind (KeepsCounted.lift _) (fun after => ?_))
  refine KeepsCounted.bind (KeepsCounted.lift _) (fun retired => ?_)
  extract_lets rest
  have hrest : KeepsCounted k (rest ()) := by
    simp only [rest]
    exact KeepsCounted.bind (KeepsCounted.modify (fun _ => ⟨rfl, rfl, rfl, rfl, rfl, rfl⟩))
      (fun _ => KeepsCounted.get_bind (fun _ _ => KeepsCounted.bind (KeepsCounted.lift _)
        (fun _ => KeepsCounted.modify (fun _ => ⟨rfl, rfl, rfl, rfl, rfl, rfl⟩))))
  refine KeepsCounted.ite ?_ hrest
  exact KeepsCounted.get_bind (fun _ _ => KeepsCounted.bind (KeepsCounted.lift _)
    (fun _ => KeepsCounted.bind (KeepsCounted.modify (fun _ => ⟨rfl, rfl, rfl, rfl, rfl, rfl⟩))
      (fun _ => hrest)))

end Schedule

theorem Change.log_idle {n : Nat} {c : Session.Call} {e e' : Engine} (h : Change n c e e')
    (hc : ∀ ot ol otl ar, c ≠ .preprocess ot ol otl ar) : e'.idle = e.idle ∧ e'.log = e.log := by
  cases h with
  | preprocess ot ol otl ar => exact absurd rfl (hc ot ol otl ar)
  | _ => exact ⟨rfl, rfl⟩

end Engine

/-! ## Sessions -/

namespace Session

open Engine

/-- Whether a call compares its log level with numbers: a preprocessing call whose log level, or
the session's where it gives none, is a number, or any other call. -/
def Call.numericLevel (level : Datum) : Call → Bool
  | .preprocess _ logLevel _ _ => (logLevel.getD level).number?.isSome
  | _ => true

@[simp] theorem performAll_append (s : Session) (calls₁ calls₂ : List Call) :
    s.performAll (calls₁ ++ calls₂) = (s.performAll calls₁).performAll calls₂ :=
  List.foldl_append

variable {s : Session} {k : Nat}

theorem Ready.perform_config (h : s.Ready) (c : Call) : (s.perform c).config = s.config := by
  obtain ⟨e', heq, -⟩ := h.perform_change c
  rw [heq]
  rfl

/-- **Step lemma.** A call keeps the log of a ready session counted, when its log level compares
and `skip_technique` stays at `k`. -/
theorem Ready.perform_counted (h : s.Ready) (hk : 0 < k) (hc : LogCounted k s.engine) {c : Call}
    (hlevel : c.numericLevel s.config.logLevel = true) (hskip : (s.perform c).engine.skipAfter = k) :
    LogCounted k (s.perform c).engine ∧ LogGrows k s.engine (s.perform c).engine := by
  by_cases hpre : ∃ ot ol otl ar, c = .preprocess ot ol otl ar
  · obtain ⟨ot, ol, otl, ar, rfl⟩ := hpre
    rcases preprocess_fst_eq s ot ol otl ar with heq | heq <;> rw [Session.perform, heq]
    · exact ⟨hc, .refl k _⟩
    · obtain ⟨-, hc', hg⟩ := preprocess_counts hk _ _ _ ar hlevel s.engine h.shape.tabled hc
      exact ⟨hc', hg⟩
  · obtain ⟨e', heq, hch⟩ := h.perform_change c
    obtain ⟨hidle, hlog⟩ := hch.log_idle (fun ot ol otl ar hc => hpre ⟨ot, ol, otl, ar, hc⟩)
    rw [heq] at hskip ⊢
    exact ⟨hc.of_log hskip hidle hlog, .of_log hlog⟩

/-- **Run lemma.** Calls keep the log of a ready session counted, when their log levels compare
and `skip_technique` stays at `k` after each of them. -/
theorem Ready.performAll_counted (h : s.Ready) (hk : 0 < k) (hc : LogCounted k s.engine) {calls : List Call}
    (hlevel : ∀ c ∈ calls, c.numericLevel s.config.logLevel = true)
    (hskip : ∀ calls₁, calls₁ <+: calls → (s.performAll calls₁).engine.skipAfter = k) :
    LogCounted k (s.performAll calls).engine ∧ LogGrows k s.engine (s.performAll calls).engine := by
  induction calls generalizing s with
  | nil => exact ⟨hc, .refl k _⟩
  | cons c calls ih =>
    obtain ⟨hc₁, hg₁⟩ := h.perform_counted hk hc (hlevel c (by simp)) (hskip [c] (by simp))
    have hconf := h.perform_config c
    obtain ⟨hc₂, hg₂⟩ := ih (h.perform c).1 hc₁ (fun c' hc' => hconf ▸ hlevel c' (by simp [hc']))
      (fun calls₁ hpre => hskip (c :: calls₁) (List.cons_prefix_cons.2 ⟨rfl, hpre⟩))
    exact ⟨hc₂, hg₁.trans hg₂⟩

theorem Ready.performAll (h : s.Ready) (calls : List Call) : (s.performAll calls).Ready := by
  induction calls generalizing s with
  | nil => exact h
  | cons c calls ih => exact ih (h.perform c).1

theorem Ready.performAll_config (h : s.Ready) (calls : List Call) :
    (s.performAll calls).config = s.config := by
  induction calls generalizing s with
  | nil => rfl
  | cons c calls ih => rw [performAll_cons, ih (h.perform c).1, h.perform_config c]

/-- **Idle techniques stop running.** With `skip_technique` at `k > 0` from a session whose log is
still empty, through calls that keep it at `k` and whose log levels compare: a technique reached
in a pass of a group is passed over when its runs end with `k` that changed nothing, and is
otherwise run and logged once; every session on the way keeps the log counted; no technique has
`k + 1` runs in a row that changed nothing; and once its runs end with `k` such runs, none of the
later calls runs it again. -/
theorem idle_techniques_stop_running (hk : 0 < k) (hs : s.Reachable) (hlog : s.engine.log = [])
    (hidle : s.engine.idle = []) {calls : List Call}
    (hlevel : ∀ c ∈ calls, c.numericLevel s.config.logLevel = true)
    (hskip : ∀ calls₁, calls₁ <+: calls → (s.performAll calls₁).engine.skipAfter = k) :
    (∀ e, Tabled e → LogCounted k e → ∀ t, implemented t = true → ∀ ts c,
      (k ≤ idleTail (runsOf t e.log) →
        (groupPass false false k (t :: ts) c).run e = (groupPass false false k ts c).run e) ∧
      (idleTail (runsOf t e.log) < k → ∃ c' e₁, (runLogged t).run e = (.ok c', e₁) ∧
        runsOf t e₁.log = runsOf t e.log ++ [c'] ∧
        (groupPass false false k (t :: ts) c).run e =
          (groupPass false false k ts (c || c')).run (e₁.setIdle t (idleTail (runsOf t e₁.log))))) ∧
    (∀ calls₁, calls₁ <+: calls → LogCounted k (s.performAll calls₁).engine) ∧
    (∀ t, ¬ List.replicate (k + 1) false <:+: runsOf t (s.performAll calls).engine.log) ∧
    (∀ t calls₁, calls₁ <+: calls → k ≤ idleTail (runsOf t (s.performAll calls₁).engine.log) →
      runsOf t (s.performAll calls).engine.log = runsOf t (s.performAll calls₁).engine.log) := by
  have h := hs.ready
  have hc : LogCounted k s.engine := .of_empty (hskip [] List.nil_prefix) hidle hlog
  -- each prefix of the calls leaves the log counted, and the calls after it only let it grow
  have hstage : ∀ calls₁, calls₁ <+: calls → LogCounted k (s.performAll calls₁).engine ∧
      LogGrows k (s.performAll calls₁).engine (s.performAll calls).engine := by
    rintro calls₁ ⟨calls₂, rfl⟩
    have hc₁ := (h.performAll_counted hk hc (fun c hc => hlevel c (List.mem_append_left _ hc))
      (fun calls₀ hpre => hskip calls₀ (hpre.trans (List.prefix_append _ _)))).1
    refine ⟨hc₁, ?_⟩
    rw [performAll_append]
    refine ((h.performAll calls₁).performAll_counted hk hc₁ (fun c hc => ?_) (fun calls₀ hpre => ?_)).2
    · rw [h.performAll_config]
      exact hlevel c (List.mem_append_right _ hc)
    · rw [← performAll_append]
      exact hskip _ ((List.prefix_append_right_inj calls₁).2 hpre)
  refine ⟨fun e ht hc t himp ts c => ⟨fun hge => groupPass_skip hc hge ts c hk, fun hlt => ?_⟩,
    fun calls₁ hpre => (hstage calls₁ hpre).1,
    fun t => (hstage calls (List.prefix_refl _)).1.bounded t,
    fun t calls₁ hpre hge => ((hstage calls₁ hpre).2 t).2 hge⟩
  obtain ⟨c', e₁, hrun, hruns, hidle₁, -⟩ := hc.logged ht (by rw [hc.idle t]; exact hlt)
  exact ⟨c', e₁, hrun, hruns, groupPass_run hc himp hlt hrun hruns hidle₁ ts c⟩

/-- On the clause `x1 ∨ x2`, with `skip_technique` set to 1 before preprocessing, a first call of
unit propagation runs it idle once, and a second call passes it over: unit propagation keeps that
one idle run and never has two in a row. -/
theorem skip_one_bounds_idle_runs :
    ∃ s : Session, s.Reachable ∧ s.engine.log = [] ∧ s.engine.idle = [] ∧
      (∀ calls₁, calls₁ <+: [Call.preprocess (some (.str "u")) none none false,
          .preprocess (some (.str "u")) none none false] →
        (s.performAll calls₁).engine.skipAfter = 1) ∧
      runsOf "u" (s.performAll [.preprocess (some (.str "u")) none none false]).engine.log = [false] ∧
      (∀ t, ¬ List.replicate 2 false <:+: runsOf t (s.performAll [.preprocess (some (.str "u")) none none false,
        .preprocess (some (.str "u")) none none false]).engine.log) ∧
      runsOf "u" (s.performAll [.preprocess (some (.str "u")) none none false,
        .preprocess (some (.str "u")) none none false]).engine.log = [false] := by
  have hview : (openWith .reference {} [[⟨1, false, by decide⟩, ⟨2, false, by decide⟩]] [] false
      none).toOption.map (fun s =>
        let s' := s.perform (.setOptions (.obj [("skip_technique", .int 1)]))
        (s'.engine.log.isEmpty && s'.engine.idle.isEmpty && s'.config.logLevel.number?.isSome,
          [s'.engine.skipAfter, (s'.performAll [.preprocess (some (.str "u")) none none false]).engine.skipAfter,
            (s'.performAll [.preprocess (some (.str "u")) none none false,
              .preprocess (some (.str "u")) none none false]).engine.skipAfter],
          runsOf "u" (s'.performAll [.preprocess (some (.str "u")) none none false]).engine.log)) =
      some (true, [1, 1, 1], [false]) := by
    decide +kernel
  obtain ⟨s, hO, hs⟩ := Outcome.exists_of_toOption_map hview
  simp only [Prod.mk.injEq, Bool.and_eq_true, List.isEmpty_iff, List.cons.injEq, and_true] at hs
  obtain ⟨⟨⟨hlog, hidle⟩, hlevel⟩, ⟨hskip₀, hskip₁, hskip₂⟩, hruns₁⟩ := hs
  set u := Call.preprocess (some (.str "u")) none none false
  have hreach := Reachable.perform (Reachable.opened hO) (.setOptions (.obj [("skip_technique", .int 1)]))
  have hskip : ∀ calls₁, calls₁ <+: [u, u] →
      ((s.perform (.setOptions (.obj [("skip_technique", .int 1)]))).performAll calls₁).engine.skipAfter = 1 := by
    intro calls₁ hpre
    rcases List.prefix_cons_iff.1 hpre with rfl | ⟨t, rfl, ht⟩
    · exact hskip₀
    rcases List.prefix_cons_iff.1 ht with rfl | ⟨t', rfl, ht'⟩
    · exact hskip₁
    · rw [List.prefix_nil.1 ht']
      exact hskip₂
  have hmain := idle_techniques_stop_running (k := 1) (by decide) hreach hlog hidle
    (fun c hc => by rcases List.mem_pair.1 hc with rfl | rfl <;> exact hlevel) hskip
  refine ⟨_, hreach, hlog, hidle, hskip, hruns₁, hmain.2.2.1, ?_⟩
  rw [hmain.2.2.2 "u" [u] ⟨[u], rfl⟩ (by rw [hruns₁]; decide), hruns₁]

/-- A log level that does not compare with numbers loses the idle count: the run it logs is not
counted, so with `skip_technique` at 1 unit propagation runs idle twice in a row on the clause
`x1 ∨ x2`, once in a call with the log level `"x"`, which fails, and once in the next call. -/
theorem text_log_level_loses_idle_count :
    ∃ s, openWith .reference {} [[⟨1, false, by decide⟩, ⟨2, false, by decide⟩]] [] false none = .ok s ∧
      (s.performAll [.setOptions (.obj [("skip_technique", .int 1)])]).engine.skipAfter = 1 ∧
      (s.performAll [.setOptions (.obj [("skip_technique", .int 1)]),
        .preprocess (some (.str "u")) (some (.str "x")) none false,
        .preprocess (some (.str "u")) none none false]).printTechniqueLog =
          .ok ["c u changed=0 1->1 fixed=0 *s", "c u changed=0 1->1 fixed=0 *s"] ∧
      runsOf "u" (s.performAll [.setOptions (.obj [("skip_technique", .int 1)]),
        .preprocess (some (.str "u")) (some (.str "x")) none false,
        .preprocess (some (.str "u")) none none false]).engine.log = [false, false] := by
  have hview : (openWith .reference {} [[⟨1, false, by decide⟩, ⟨2, false, by decide⟩]] [] false
      none).toOption.map (fun s =>
        let s' := s.performAll [.setOptions (.obj [("skip_technique", .int 1)]),
          .preprocess (some (.str "u")) (some (.str "x")) none false,
          .preprocess (some (.str "u")) none none false]
        ((s.performAll [.setOptions (.obj [("skip_technique", .int 1)])]).engine.skipAfter,
          s'.printTechniqueLog.toOption, runsOf "u" s'.engine.log)) =
      some (1, some ["c u changed=0 1->1 fixed=0 *s", "c u changed=0 1->1 fixed=0 *s"], [false, false]) := by
    decide +kernel
  obtain ⟨s, hO, hs⟩ := Outcome.exists_of_toOption_map hview
  simp only [Prod.mk.injEq] at hs
  obtain ⟨hskip, hprint, hruns⟩ := hs
  exact ⟨s, hO, hskip, Outcome.eq_ok_of_toOption hprint, hruns⟩

end Session

end MaxSatPrep
