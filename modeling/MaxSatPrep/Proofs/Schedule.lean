import MaxSatPrep.Proofs.Blocking
/-!
Preprocessing as a sequence of technique runs. Between runs the scheduler only writes its logs
and idle counts, so every engine a preprocessing call passes through is reached from the one
it starts with by runs of techniques (each ending as it may) and such log changes (`Steps`).
An invariant that every run of a technique keeps, and that reads no log, holds after any
preprocessing call, one that fails part-way included.

Main statement, `preprocess_steps`: the engine a preprocessing call leaves is one the steps
reach, with its top weight raised by the weight retired if asked, and its preprocessed flag and
info log set; a call that answers raises the flag.
-/

namespace MaxSatPrep

namespace Engine

/-- one step of preprocessing: a run of a technique, ending as it may, or a change of the
technique log, the idle counts and the info log -/
inductive Step : Engine → Engine → Prop
  | run (t : String) {e e' : Engine} {r : Outcome Bool} : (runTechnique t).run e = (r, e') → Step e e'
  | note (e : Engine) (log : List TechniqueRun) (idle : List (String × Nat)) (info : List String) :
      Step e { e with log := log, idle := idle, info := info }

/-- engines reached by steps -/
abbrev Steps : Engine → Engine → Prop := Relation.ReflTransGen Step

theorem Steps.invariant {P : Engine → Prop} (hstep : ∀ e e', P e → Step e e' → P e')
    {e e' : Engine} (h : Steps e e') (he : P e) : P e' := by
  induction h with
  | refl => exact he
  | tail _ hs ih => exact hstep _ _ ih hs

theorem runTechnique_cases (t : String) :
    runTechnique t = unitPropagate ∨ runTechnique t = subsume ∨
      runTechnique t = eliminateBlocked ∨ runTechnique t = pure false := by
  unfold runTechnique
  split_ifs <;> simp

/-- Every run of the computation, answering or failing, ends in an engine the steps reach. -/
def Reaches {α : Type} (m : EngineM α) : Prop := ∀ e, Steps e (m.run e).2

namespace Reaches

variable {α β : Type}

theorem pure (a : α) : Reaches (Pure.pure a : EngineM α) := fun _ => .refl

theorem get : Reaches (MonadState.get : EngineM Engine) := fun _ => .refl

theorem throw (f : Failure) : Reaches (MonadExcept.throw f : EngineM α) := fun _ => .refl

theorem lift (o : Outcome α) : Reaches (EngineM.lift o) := by
  intro e
  rw [EngineM.run_lift]

theorem bind {m : EngineM α} {f : α → EngineM β} (hm : Reaches m) (hf : ∀ a, Reaches (f a)) :
    Reaches (m >>= f) := by
  intro e
  rw [EngineM.run_bind]
  have h₁ := hm e
  rcases hrun : m.run e with ⟨_ | a, e₁⟩
  · rw [hrun] at h₁
    exact h₁
  · rw [hrun] at h₁
    exact h₁.trans (hf a e₁)

theorem ite {c : Prop} [Decidable c] {m m' : EngineM α} (hm : Reaches m) (hm' : Reaches m') :
    Reaches (if c then m else m') := by
  split
  · exact hm
  · exact hm'

theorem technique (t : String) : Reaches (runTechnique t) := by
  intro e
  exact .single (.run t rfl)

theorem note {f : Engine → Engine}
    (hf : ∀ e, ∃ log idle info, f e = { e with log := log, idle := idle, info := info }) :
    Reaches (modify f) := by
  intro e
  obtain ⟨log, idle, info, he⟩ := hf e
  rw [EngineM.run_modify, he]
  exact .single (.note e log idle info)

end Reaches

/-! ## The scheduler -/

theorem setIdle_note (e : Engine) (t : String) (n : Nat) :
    ∃ log idle info, e.setIdle t n = { e with log := log, idle := idle, info := info } := by
  unfold Engine.setIdle
  split
  · exact ⟨e.log, _, e.info, rfl⟩
  · exact ⟨e.log, _, e.info, rfl⟩

theorem runLogged_reaches (t : String) : Reaches (runLogged t) := by
  intro e
  have hstep : ∀ r e₁, (runTechnique t).run e = (r, e₁) → Steps e e₁ :=
    fun r e₁ h => .single (.run t h)
  simp only [runLogged, EngineM.run_bind, EngineM.run_get]
  rcases hrun : (runTechnique t).run e with ⟨_ | c, e₁⟩
  · exact hstep _ _ hrun
  · simp only [EngineM.run_set]
    exact (hstep _ _ hrun).tail (.note e₁ _ e₁.idle e₁.info)

theorem groupPass_reaches (expired halting : Bool) (skip : Int) (ts : List String) (changed : Bool) :
    Reaches (groupPass expired halting skip ts changed) := by
  induction ts generalizing changed with
  | nil => exact Reaches.pure _
  | cons t ts ih =>
    simp only [groupPass]
    refine Reaches.ite (ih changed) (Reaches.ite (Reaches.pure _) ?_)
    refine Reaches.bind Reaches.get (fun e => Reaches.ite (ih changed) ?_)
    refine Reaches.bind (runLogged_reaches t) (fun c => Reaches.ite (Reaches.pure _) ?_)
    exact Reaches.bind (Reaches.note (fun e => setIdle_note e t _)) (fun _ => ih _)

theorem runGroup_reaches (expired halting : Bool) (skip : Int) (g : Group) (fuel : Nat) :
    Reaches (runGroup expired halting skip g fuel) := by
  induction fuel with
  | zero => exact Reaches.pure _
  | succ fuel ih =>
    simp only [runGroup]
    refine Reaches.bind (groupPass_reaches expired halting skip g.letters false) (fun ending => ?_)
    cases ending with
    | done changed => exact Reaches.ite ih (Reaches.pure _)
    | expired => exact Reaches.pure _
    | halted => exact Reaches.pure _

theorem runPlan_reaches (expired halting : Bool) (skip : Int) (plan : Plan) :
    Reaches (runPlan expired halting skip plan) := by
  induction plan with
  | nil => exact Reaches.pure _
  | cons g gs ih =>
    simp only [runPlan]
    refine Reaches.bind Reaches.get (fun e => Reaches.bind (runGroup_reaches _ _ _ g _) (fun ending => ?_))
    cases ending with
    | done changed => exact ih
    | expired =>
      exact Reaches.bind (Reaches.note (fun e => ⟨e.log, e.idle, _, rfl⟩)) (fun _ => Reaches.pure _)
    | halted => exact Reaches.pure _

/-- The top weight a preprocessing call leaves: that of the engine it reached or, when asked, that
raised by the weight retired since the start. -/
def TopAfter (addRemoved : Bool) (start e₁ : Engine) (top : Datum) : Prop :=
  top = e₁.top ∨ addRemoved = true ∧ ∃ before after retired, sumOf start.removed = .ok before ∧
    sumOf e₁.removed = .ok after ∧ Datum.minus after before = .ok retired ∧
    Datum.plus e₁.top retired = .ok top

theorem sumOf_ints {ds : List Datum} (h : ∀ d ∈ ds, ∃ k : Int, d = .int k) :
    sumOf ds = .ok (.int (ds.map Session.intOf).sum) := by
  suffices key : ∀ a : Int, ds.foldlM Datum.plus (.int a) = .ok (.int (a + (ds.map Session.intOf).sum)) by
    simpa [sumOf] using key 0
  induction ds with
  | nil => simp [pure, Except.pure]
  | cons d ds ih =>
    intro a
    obtain ⟨k, rfl⟩ := h d (by simp)
    rw [List.foldlM_cons, Datum.plus_int]
    simp only [bind, Except.bind]
    rw [ih (fun x hx => h x (by simp [hx]))]
    simp [Int.add_assoc]

/-- On integer removed weights and an integer top weight, the top weight after preprocessing is
the top weight of the engine reached, or that raised by the weight retired since the start. -/
theorem TopAfter.eq_int {addRemoved : Bool} {start e₁ : Engine} {top : Datum}
    (h : TopAfter addRemoved start e₁ top) (hstart : ∀ d ∈ start.removed, ∃ k : Int, d = .int k)
    (h₁ : ∀ d ∈ e₁.removed, ∃ k : Int, d = .int k) {t : Int} (ht : e₁.top = .int t) :
    top = .int t ∨ top = .int (t + ((e₁.removed.map Session.intOf).sum -
      (start.removed.map Session.intOf).sum)) := by
  rcases h with rfl | ⟨-, before, after, retired, hbefore, hafter, hret, hadd⟩
  · exact .inl ht
  · rw [sumOf_ints hstart] at hbefore
    rw [sumOf_ints h₁] at hafter
    cases hbefore
    cases hafter
    rw [Datum.minus_int] at hret
    cases hret
    rw [ht, Datum.plus_int] at hadd
    cases hadd
    exact .inr rfl

/-- **After the plan.** Once the arguments are read and the plan has run, a preprocessing call
only sets the top weight (`TopAfter`), the preprocessed flag and the info log of the engine the
plan leaves. The flag is raised, or left as the plan leaves it when the call fails. -/
theorem preprocess_after_plan {techniques logLevel timeLimit : Datum} {addRemoved : Bool} {e : Engine}
    (hfin : e.finalized = true) {plan : Plan} (hplan : Plan.ofDatum techniques = .ok plan)
    {expired : Bool} (hexp : expiredAtStart timeLimit = .ok expired) {before : Datum}
    (hbefore : sumOf e.removed = .ok before)
    (hunk : ((plan.any fun g => g.letters.any fun t => !implemented t) && logLevel.number?.isNone) = false)
    {r : Outcome Ending} {e₁ : Engine}
    (hrun : (runPlan expired logLevel.number?.isNone e.skipAfter plan).run e = (r, e₁)) :
    ∃ top p info, ((preprocess techniques logLevel timeLimit addRemoved).run e).2 =
        { e₁ with top := top, preprocessed := p, info := info } ∧ TopAfter addRemoved e e₁ top ∧
      (p = true ∨ p = e₁.preprocessed ∧ ∃ f, ((preprocess techniques logLevel timeLimit addRemoved).run e).1 = .error f) := by
  have stop : ∀ f, (preprocess techniques logLevel timeLimit addRemoved).run e = (.error f, e₁) →
      ∃ top p info, ((preprocess techniques logLevel timeLimit addRemoved).run e).2 =
          { e₁ with top := top, preprocessed := p, info := info } ∧ TopAfter addRemoved e e₁ top ∧
        (p = true ∨ p = e₁.preprocessed ∧ ∃ f, ((preprocess techniques logLevel timeLimit addRemoved).run e).1 = .error f) :=
    fun f heq => ⟨e₁.top, e₁.preprocessed, e₁.info, by rw [heq], Or.inl rfl, .inr ⟨rfl, f, by rw [heq]⟩⟩
  have hfin' : (!e.finalized) = false := by simp [hfin]
  rcases r with f | ending
  · refine stop f ?_
    simp only [preprocess, EngineM.run_bind, EngineM.run_get, hfin', Bool.false_eq_true, ↓reduceIte,
      EngineM.run_lift, hplan, hexp, hbefore, hunk, hrun]
  by_cases hend : (decide (ending = .halted) || decide (ending = .expired) &&
      logLevel.number?.isNone) = true
  · refine stop (Cause.fail (.unorderable ">=" logLevel.typeName "int")) ?_
    simp only [preprocess, EngineM.run_bind, EngineM.run_get, hfin', Bool.false_eq_true, ↓reduceIte,
      EngineM.run_lift, hplan, hexp, hbefore, hunk, hrun, hend,
      EngineM.run_throw]
  rw [Bool.not_eq_true] at hend
  rcases hafter : sumOf e₁.removed with f | after
  · refine stop f ?_
    simp only [preprocess, EngineM.run_bind, EngineM.run_get, hfin', Bool.false_eq_true, ↓reduceIte,
      EngineM.run_lift, hplan, hexp, hbefore, hunk, hrun, hend,
      hafter]
  rcases hret : Datum.minus after before with f | retired
  · refine stop f ?_
    simp only [preprocess, EngineM.run_bind, EngineM.run_get, hfin', Bool.false_eq_true, ↓reduceIte,
      EngineM.run_lift, hplan, hexp, hbefore, hunk, hrun, hend,
      hafter, hret]
  by_cases hadd : (addRemoved && retired.truthy) = true
  case pos =>
    rcases htop : Datum.plus e₁.top retired with f | top
    · refine stop f ?_
      simp only [preprocess, EngineM.run_bind, EngineM.run_get, hfin', Bool.false_eq_true, ↓reduceIte,
      EngineM.run_lift, hplan, hexp, hbefore, hunk, hrun, hend,
        hafter, hret, hadd, htop]
    have hraise : TopAfter addRemoved e e₁ top :=
      Or.inr ⟨(Bool.and_eq_true _ _ ▸ hadd).1, before, after, retired, hbefore, hafter, hret, htop⟩
    rcases hline : preprocessedLine techniques { e₁ with top := top, preprocessed := true } with
      f | line
    · refine ⟨top, true, e₁.info, ?_, hraise, .inl rfl⟩
      simp only [preprocess, EngineM.run_bind, EngineM.run_get, hfin', Bool.false_eq_true, ↓reduceIte,
      EngineM.run_lift, hplan, hexp, hbefore, hunk, hrun, hend,
        hafter, hret, hadd, htop, EngineM.run_modify, hline]
    · refine ⟨top, true, e₁.info ++ [line], ?_, hraise, .inl rfl⟩
      simp only [preprocess, EngineM.run_bind, EngineM.run_get, hfin', Bool.false_eq_true, ↓reduceIte,
      EngineM.run_lift, hplan, hexp, hbefore, hunk, hrun, hend,
        hafter, hret, hadd, htop, EngineM.run_modify, hline]
  case neg =>
    rw [Bool.not_eq_true] at hadd
    rcases hline : preprocessedLine techniques { e₁ with preprocessed := true } with f | line
    · refine ⟨e₁.top, true, e₁.info, ?_, Or.inl rfl, .inl rfl⟩
      simp only [preprocess, EngineM.run_bind, EngineM.run_get, hfin', Bool.false_eq_true, ↓reduceIte,
      EngineM.run_lift, hplan, hexp, hbefore, hunk, hrun, hend,
        hafter, hret, hadd, EngineM.run_modify, hline]
    · refine ⟨e₁.top, true, e₁.info ++ [line], ?_, Or.inl rfl, .inl rfl⟩
      simp only [preprocess, EngineM.run_bind, EngineM.run_get, hfin', Bool.false_eq_true, ↓reduceIte,
      EngineM.run_lift, hplan, hexp, hbefore, hunk, hrun, hend,
        hafter, hret, hadd, EngineM.run_modify, hline]

/-- **Preprocessing.** The engine a preprocessing call leaves, whether it answers or fails, is
one the steps reach from the engine it starts with, with its top weight (`TopAfter`), its
preprocessed flag and its info log set. The flag is raised, or left as the steps leave it when
the call fails. -/
theorem preprocess_steps (techniques logLevel timeLimit : Datum) (addRemoved : Bool) (e : Engine) :
    ∃ e₁, Steps e e₁ ∧ ∃ top p info,
      ((preprocess techniques logLevel timeLimit addRemoved).run e).2 =
        { e₁ with top := top, preprocessed := p, info := info } ∧ TopAfter addRemoved e e₁ top ∧
      (p = true ∨ p = e₁.preprocessed ∧ ∃ f, ((preprocess techniques logLevel timeLimit addRemoved).run e).1 = .error f) := by
  have stop : ∀ e₁ f, Steps e e₁ → (preprocess techniques logLevel timeLimit addRemoved).run e = (.error f, e₁) →
      ∃ e₂, Steps e e₂ ∧ ∃ top p info,
        ((preprocess techniques logLevel timeLimit addRemoved).run e).2 =
          { e₂ with top := top, preprocessed := p, info := info } ∧ TopAfter addRemoved e e₂ top ∧
        (p = true ∨ p = e₂.preprocessed ∧ ∃ f, ((preprocess techniques logLevel timeLimit addRemoved).run e).1 = .error f) :=
    fun e₁ f h₁ heq => ⟨e₁, h₁, e₁.top, e₁.preprocessed, e₁.info, by rw [heq], Or.inl rfl, .inr ⟨rfl, f, by rw [heq]⟩⟩
  by_cases hfin : e.finalized = true
  case neg =>
    refine stop e (Cause.fail .notFinalized) .refl ?_
    simp [preprocess, EngineM.run_bind, hfin]
  have hfin' : (!e.finalized) = false := by simp [hfin]
  rcases hplan : Plan.ofDatum techniques with f | plan
  · refine stop e f .refl ?_
    simp only [preprocess, EngineM.run_bind, EngineM.run_get, hfin', Bool.false_eq_true, ↓reduceIte,
      EngineM.run_lift, hplan]
  rcases hexp : expiredAtStart timeLimit with f | expired
  · refine stop e f .refl ?_
    simp only [preprocess, EngineM.run_bind, EngineM.run_get, hfin', Bool.false_eq_true, ↓reduceIte,
      EngineM.run_lift, hplan, hexp]
  rcases hbefore : sumOf e.removed with f | before
  · refine stop e f .refl ?_
    simp only [preprocess, EngineM.run_bind, EngineM.run_get, hfin', Bool.false_eq_true, ↓reduceIte,
      EngineM.run_lift, hplan, hexp, hbefore]
  by_cases hunk : ((plan.any fun g => g.letters.any fun t => !implemented t) &&
      logLevel.number?.isNone) = true
  · refine stop e (Cause.fail (.unorderable ">=" logLevel.typeName "int")) .refl ?_
    simp only [preprocess, EngineM.run_bind, EngineM.run_get, hfin', Bool.false_eq_true, ↓reduceIte,
      EngineM.run_lift, hplan, hexp, hbefore, hunk, EngineM.run_throw]
  rw [Bool.not_eq_true] at hunk
  have hreach := runPlan_reaches expired logLevel.number?.isNone e.skipAfter plan e
  rcases hrun : (runPlan expired logLevel.number?.isNone e.skipAfter plan).run e with ⟨r, e₁⟩
  rw [hrun] at hreach
  exact ⟨e₁, hreach, preprocess_after_plan hfin hplan hexp hbefore hunk hrun⟩

end Engine

end MaxSatPrep
