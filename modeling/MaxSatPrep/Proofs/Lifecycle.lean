import MaxSatPrep.Proofs.Reachable
/-!
The life of a session. A session opens with its engine live and its lock free; a call holds the
lock only while it runs, so the lock is free between calls. Closing releases the engine once: the
first close of an open session releases it, and closing a closed session does nothing.

On a closed session every operation that reaches the engine raises that the session is released,
unless a check of its arguments that comes first fails: the time limit of a preprocessing run
(below zero, or no number), the clause to add (a value that does not iterate, or a literal that is
none), the literal and the weight of a label, and the options document (no mapping, or options
that fail their checks). The views of a session with the wrong number of objectives are refused
for that first. None of these answers depends on the engine, and the session stays as it is.

Main statements: `Session.closed_contract` (every operation of a closed session) and
`session_lifecycle`.
-/

namespace MaxSatPrep

namespace Session

variable {s : Session}

/-! ## The engine of a closed session -/

theorem live_closed (h : s.closed = true) : s.live = refuse .sessionReleased := by
  simp [live, h]

theorem shared_closed (h : s.closed = true) : s.shared = refuse .sessionReleased := by
  simp only [shared, live_closed h]
  rfl

theorem exclusive_closed (h : s.closed = true) : s.exclusive = refuse .sessionReleased := by
  simp only [exclusive, live_closed h]
  rfl

theorem close_closed (h : s.closed = true) : s.close = .ok s := by
  simp [close, h]

theorem close_open (h : s.closed = false) (hl : s.locked = false) : s.close = .ok { s with closed := true } := by
  simp [close, h, hl]

theorem keep_bind_refuse {α : Type} (m : Outcome α) (c : Cause) :
    s.keep (m.bind fun _ => refuse c) = s := by
  cases m <;> rfl

/-- **The contract of a closed session.** Every operation that reaches the engine raises that the
session is released, after the checks of its arguments that come first, and none of the answers
depends on the engine. A call leaves the session as it is, and closing it again does nothing. -/
structure ClosedContract (s : Session) : Prop where
  topWeight : s.topWeight = refuse .sessionReleased
  nPreproClauses : s.nPreproClauses = refuse .sessionReleased
  nPreproLabels : s.nPreproLabels = refuse .sessionReleased
  nPreproFixedLits : s.nPreproFixedLits = refuse .sessionReleased
  maxOrigVar : s.maxOrigVar = refuse .sessionReleased
  removedWeight : s.removedWeight = refuse .sessionReleased
  preproLabels : s.preproLabels = refuse .sessionReleased
  preproFixedLits : s.preproFixedLits = refuse .sessionReleased
  preproInstance : s.preproInstance = refuse .sessionReleased
  preproMultiOptInstance : s.preproMultiOptInstance = refuse .sessionReleased
  /-- the satisfiability view first asks for no objectives -/
  preproSatInstance : s.preproSatInstance =
    if s.nObj ≠ 0 then refuse (.notSatisfiability s.nObj) else refuse .sessionReleased
  /-- the single-objective view first asks for one objective -/
  preproOptInstance : s.preproOptInstance =
    if s.nObj ≠ 1 then refuse (.notSingleObjective s.nObj) else refuse .sessionReleased
  printInstance : s.printInstance = refuse .sessionReleased
  printMap : s.printMap = refuse .sessionReleased
  printTechniqueLog : s.printTechniqueLog = refuse .sessionReleased
  printInfoLog : s.printInfoLog = refuse .sessionReleased
  printStats : s.printStats = refuse .sessionReleased
  reconstruct : ∀ a, s.reconstruct a = refuse .sessionReleased
  printSolution : ∀ a w, s.printSolution a w = refuse .sessionReleased
  /-- preprocessing first checks the time limit, the given one or the configured one -/
  preprocess : ∀ techniques logLevel timeLimit addRemoved, ∃ f,
    s.preprocess techniques logLevel timeLimit addRemoved = (s, some f) ∧
    ((Datum.less (timeLimit.getD s.config.timeLimit) (.int 0)).bind fun negative =>
      if negative then refuse (.negativeTimeLimit (timeLimit.getD s.config.timeLimit))
      else refuse .sessionReleased : Outcome Unit) = .error f
  addVar : s.addVar = refuse .sessionReleased
  /-- adding a clause first reads the clause -/
  addClause : ∀ d, s.addClause d = (clauseOf d).bind fun _ => refuse .sessionReleased
  /-- adding a label first reads the literal, then the weight -/
  addLabel : ∀ lit weight, s.addLabel lit weight =
    (Lit.ofDatum lit).bind fun _ => (checkWeight weight).bind fun _ => refuse .sessionReleased
  /-- reweighting a label first reads the literal, then the weight -/
  alterWeight : ∀ label weight, s.alterWeight label weight =
    (Lit.ofDatum label).bind fun _ => (checkWeight weight).bind fun _ => refuse .sessionReleased
  /-- turning a label into a variable first reads the literal -/
  labelToVar : ∀ label, s.labelToVar label = (Lit.ofDatum label).bind fun _ => refuse .sessionReleased
  resetRemovedWeight : s.resetRemovedWeight = refuse .sessionReleased
  /-- setting options first reads the document and checks its options -/
  setOptions : ∀ o, s.setOptions o = (Options.ofKeywords o).bind fun r =>
    (r.mapError fun n => Cause.fail (.invalidOptions (.schema "PreproOptions" n))).bind fun _ =>
      refuse .sessionReleased
  /-- every call leaves the session as it is -/
  perform : ∀ c, s.perform c = s
  /-- closing again does nothing -/
  close : s.close = .ok s

/-! ## Each operation of a closed session -/

theorem reconstruct_closed (h : s.closed = true) (a : List Datum) :
    s.reconstruct a = refuse .sessionReleased := by
  simp only [Session.reconstruct, exclusive_closed h]
  rfl

theorem printSolution_closed (h : s.closed = true) (a : List Datum) (w : Datum) :
    s.printSolution a w = refuse .sessionReleased := by
  simp only [Session.printSolution, exclusive_closed h]
  rfl

theorem addVar_closed (h : s.closed = true) : s.addVar = refuse .sessionReleased := by
  simp only [Session.addVar, exclusive_closed h]
  rfl

theorem resetRemovedWeight_closed (h : s.closed = true) :
    s.resetRemovedWeight = refuse .sessionReleased := by
  simp only [Session.resetRemovedWeight, exclusive_closed h]
  rfl

theorem addClause_closed (h : s.closed = true) (d : Datum) :
    s.addClause d = (clauseOf d).bind fun _ => refuse .sessionReleased := by
  unfold addClause
  rcases clauseOf d with f | c
  · rfl
  · simp only [exclusive_closed h]
    rfl

theorem addLabel_closed (h : s.closed = true) (lit weight : Datum) : s.addLabel lit weight =
    (Lit.ofDatum lit).bind fun _ => (checkWeight weight).bind fun _ => refuse .sessionReleased := by
  unfold addLabel
  rcases Lit.ofDatum lit with f | l
  · rfl
  rcases checkWeight weight with f | w
  · rfl
  · simp only [exclusive_closed h]
    rfl

theorem alterWeight_closed (h : s.closed = true) (label weight : Datum) : s.alterWeight label weight =
    (Lit.ofDatum label).bind fun _ => (checkWeight weight).bind fun _ => refuse .sessionReleased := by
  unfold alterWeight
  rcases Lit.ofDatum label with f | l
  · rfl
  rcases checkWeight weight with f | w
  · rfl
  · simp only [exclusive_closed h]
    rfl

theorem labelToVar_closed (h : s.closed = true) (label : Datum) :
    s.labelToVar label = (Lit.ofDatum label).bind fun _ => refuse .sessionReleased := by
  unfold labelToVar
  rcases Lit.ofDatum label with f | l
  · rfl
  · simp only [exclusive_closed h]
    rfl

theorem setOptions_closed (h : s.closed = true) (o : Datum) :
    s.setOptions o = (Options.ofKeywords o).bind fun r =>
      (r.mapError fun n => Cause.fail (.invalidOptions (.schema "PreproOptions" n))).bind fun _ =>
        refuse .sessionReleased := by
  unfold setOptions
  rcases Options.ofKeywords o with f | r
  · rfl
  · rcases r with n | opts
    · rfl
    · simp only [exclusive_closed h]
      rfl

theorem preprocess_closed (h : s.closed = true) (techniques logLevel timeLimit : Option Datum)
    (addRemoved : Bool) : ∃ f,
    s.preprocess techniques logLevel timeLimit addRemoved = (s, some f) ∧
    ((Datum.less (timeLimit.getD s.config.timeLimit) (.int 0)).bind fun negative =>
      if negative then refuse (.negativeTimeLimit (timeLimit.getD s.config.timeLimit))
      else refuse .sessionReleased : Outcome Unit) = .error f := by
  unfold preprocess
  dsimp only
  rcases Datum.less (timeLimit.getD s.config.timeLimit) (.int 0) with f | negative
  · exact ⟨f, rfl, rfl⟩
  · cases negative
    · exact ⟨_, by rw [exclusive_closed h]; rfl, rfl⟩
    · exact ⟨_, rfl, rfl⟩

/-- Every call leaves a closed session as it is: each one raises. -/
theorem perform_closed (h : s.closed = true) (c : Call) : s.perform c = s := by
  cases c with
  | setOptions o =>
    rw [perform, setOptions_closed h]
    rcases Options.ofKeywords o with f | r
    · rfl
    · rcases r with n | opts <;> rfl
  | preprocess techniques logLevel timeLimit addRemoved =>
    obtain ⟨f, heq, -⟩ := preprocess_closed h techniques logLevel timeLimit addRemoved
    rw [perform, heq]
  | addVar => rw [perform, addVar_closed h]; rfl
  | addClause d => rw [perform, addClause_closed h, keep_bind_refuse]
  | addLabel lit weight =>
    rw [perform, addLabel_closed h]
    rcases Lit.ofDatum lit with f | l
    · rfl
    · rcases checkWeight weight with f | w <;> rfl
  | alterWeight label weight =>
    rw [perform, alterWeight_closed h]
    rcases Lit.ofDatum label with f | l
    · rfl
    · rcases checkWeight weight with f | w <;> rfl
  | labelToVar label => rw [perform, labelToVar_closed h, keep_bind_refuse]
  | resetRemovedWeight => rw [perform, resetRemovedWeight_closed h]; rfl
  | reconstruct a => rw [perform, reconstruct_closed h]; rfl
  | printSolution a w => rw [perform, printSolution_closed h]; rfl

/-- Every closed session keeps the contract of a closed session. -/
theorem closed_contract (h : s.closed = true) : s.ClosedContract where
  topWeight := by simp only [Session.topWeight, shared_closed h]; rfl
  nPreproClauses := by simp only [nPreproClauses, shared_closed h]; rfl
  nPreproLabels := by simp only [nPreproLabels, shared_closed h]; rfl
  nPreproFixedLits := by simp only [nPreproFixedLits, shared_closed h]; rfl
  maxOrigVar := by simp only [maxOrigVar, shared_closed h]; rfl
  removedWeight := by simp only [Session.removedWeight, shared_closed h]; rfl
  preproLabels := by simp only [preproLabels, shared_closed h]; rfl
  preproFixedLits := by simp only [preproFixedLits, shared_closed h]; rfl
  preproInstance := by simp only [preproInstance, shared_closed h]; rfl
  preproMultiOptInstance := by simp only [preproMultiOptInstance, preproInstance, shared_closed h]; rfl
  preproSatInstance := by
    unfold preproSatInstance
    split_ifs
    · rfl
    · simp only [preproInstance, shared_closed h]; rfl
  preproOptInstance := by
    unfold preproOptInstance
    split_ifs
    · rfl
    · simp only [preproMultiOptInstance, preproInstance, shared_closed h]; rfl
  printInstance := by simp only [printInstance, shared_closed h]; rfl
  printMap := by simp only [printMap, shared_closed h]; rfl
  printTechniqueLog := by simp only [printTechniqueLog, shared_closed h]; rfl
  printInfoLog := by simp only [printInfoLog, shared_closed h]; rfl
  printStats := by simp only [printStats, shared_closed h]; rfl
  reconstruct := reconstruct_closed h
  printSolution := printSolution_closed h
  preprocess := preprocess_closed h
  addVar := addVar_closed h
  addClause := addClause_closed h
  addLabel := addLabel_closed h
  alterWeight := alterWeight_closed h
  labelToVar := labelToVar_closed h
  resetRemovedWeight := resetRemovedWeight_closed h
  setOptions := setOptions_closed h
  perform := perform_closed h
  close := close_closed h

/-! ## A session's life -/

/-- a step of a session's life: a call, or closing the session -/
inductive Act where
  | call (c : Call)
  | close

/-- closing the session -/
def Act.isClose : Act → Bool
  | .call _ => false
  | .close => true

/-- the session after a step; a step that raises leaves it as it was -/
def act (s : Session) : Act → Session
  | .call c => s.perform c
  | .close => s.keep s.close

/-- the session after steps in order -/
def actAll (s : Session) (acts : List Act) : Session := acts.foldl act s

/-- the positions of the steps that release the engine: those that close an open session -/
def releasesAt : Session → List Act → List Nat
  | _, [] => []
  | s, a :: acts =>
    (if !s.closed && (s.act a).closed then [0] else []) ++ ((s.act a).releasesAt acts).map (· + 1)

@[simp] theorem actAll_nil (s : Session) : s.actAll [] = s := rfl

@[simp] theorem actAll_cons (s : Session) (a : Act) (acts : List Act) :
    s.actAll (a :: acts) = (s.act a).actAll acts := rfl

theorem act_closed (h : s.closed = true) (a : Act) : s.act a = s := by
  cases a with
  | call c => exact perform_closed h c
  | close => rw [act, close_closed h]; rfl

/-- A session between steps of its life: reachable, or closed with its lock free. -/
def Settled (s : Session) : Prop := s.Reachable ∨ (s.closed = true ∧ s.locked = false)

theorem Settled.locked (h : s.Settled) : s.locked = false := by
  rcases h with h | h
  · exact h.ready.locked
  · exact h.2

/-- **Step lemma.** Every step keeps a session settled. -/
theorem Settled.act (h : s.Settled) (a : Act) : (s.act a).Settled := by
  rcases h with h | ⟨hc, hl⟩
  · cases a with
    | call c => exact .inl (h.perform c)
    | close =>
      rw [Session.act, close_open h.ready.closed h.ready.locked]
      exact .inr ⟨rfl, h.ready.locked⟩
  · rw [act_closed hc]
    exact .inr ⟨hc, hl⟩

/-- **Run lemma.** Every run of steps keeps a session settled. -/
theorem Settled.actAll (h : s.Settled) (acts : List Act) : (s.actAll acts).Settled := by
  induction acts generalizing s with
  | nil => exact h
  | cons a acts ih => exact ih (h.act a)

theorem releasesAt_closed (h : s.closed = true) (acts : List Act) : s.releasesAt acts = [] := by
  induction acts with
  | nil => rfl
  | cons a acts ih => simp [releasesAt, act_closed h, h, ih]

/-- **Run lemma.** A reachable session releases its engine exactly once, at its first close, and
not at all if it is never closed. -/
theorem Reachable.releasesAt (h : s.Reachable) (acts : List Act) :
    s.releasesAt acts = if acts.any Act.isClose then [acts.findIdx Act.isClose] else [] := by
  induction acts generalizing s with
  | nil => rfl
  | cons a acts ih =>
    cases a with
    | call c =>
      have hopen : (s.perform c).closed = false := (h.perform c).ready.closed
      rw [Session.releasesAt, act, ih (h.perform c), h.ready.closed, hopen]
      by_cases hc : acts.any Act.isClose <;> simp [hc, Act.isClose, List.findIdx_cons]
    | close =>
      have hclosed : (s.act .close).closed = true := by
        rw [act, close_open h.ready.closed h.ready.locked]
        rfl
      rw [Session.releasesAt, releasesAt_closed hclosed, hclosed, h.ready.closed]
      simp [Act.isClose, List.findIdx_cons]

end Session

/-- **The life of a session.** Along every run of calls and closes of a session that opened, the
lock is free between steps; the engine is released exactly once, by the first close, and not at
all if the session is never closed; and once the session is closed, every operation keeps the
contract of a closed session and no step changes it. -/
theorem session_lifecycle {s : Session} (h : s.Reachable) (acts : List Session.Act) :
    (s.actAll acts).locked = false ∧
    s.releasesAt acts = (if acts.any Session.Act.isClose then [acts.findIdx Session.Act.isClose] else []) ∧
    ((s.actAll acts).closed = true →
      (s.actAll acts).ClosedContract ∧ ∀ a, (s.actAll acts).act a = s.actAll acts) :=
  ⟨(Session.Settled.actAll (Or.inl h) acts).locked, h.releasesAt acts,
    fun hc => ⟨Session.closed_contract hc, Session.act_closed hc⟩⟩

/-- The session of `x1 ∨ x2`, given a variable and closed twice, releases its engine once, at the
first close. -/
theorem released_once_by_first_close :
    ∃ s, Session.openWith .reference {} [[⟨1, false, by decide⟩, ⟨2, false, by decide⟩]] [] false none = .ok s ∧
      (s.actAll [.call .addVar, .close, .close]).locked = false ∧
      s.releasesAt [.call .addVar, .close, .close] = [1] := by
  have hopen : (Session.openWith .reference {} [[⟨1, false, by decide⟩, ⟨2, false, by decide⟩]] []
      false none).toOption.isSome = true := by
    decide +kernel
  obtain ⟨s, hO⟩ := Outcome.exists_of_toOption_isSome hopen
  obtain ⟨hlock, hrel, -⟩ := session_lifecycle (.opened hO) [.call .addVar, .close, .close]
  exact ⟨s, hO, hlock, hrel.trans rfl⟩

/-- On a closed session, checks of arguments that come before the engine raise type errors: a
time limit that is a text, a clause that is a number, options that are a number. -/
theorem closed_session_raises_type_errors :
    ∃ s₀ s, Session.openWith .reference {} [[⟨1, false, by decide⟩, ⟨2, false, by decide⟩]] [] false none = .ok s₀ ∧
      s₀.close = .ok s ∧
      (s.preprocess none none (some (.str "x")) false).2 = some ⟨.type, .unorderable "<" "str" "int"⟩ ∧
      s.addClause (.int 5) = .error ⟨.type, .notIterable "int"⟩ ∧
      s.setOptions (.int 5) = .error ⟨.type, .keywordsNotMapping "prepro.config.PreproOptions()" "int"⟩ := by
  have hopen : (Session.openWith .reference {} [[⟨1, false, by decide⟩, ⟨2, false, by decide⟩]] []
      false none).toOption.isSome = true := by
    decide +kernel
  obtain ⟨s₀, hO⟩ := Outcome.exists_of_toOption_isSome hopen
  have hready := (Session.Reachable.opened hO).ready
  have hclosed : ({ s₀ with closed := true } : Session).closed = true := rfl
  obtain ⟨f, hpre, hf⟩ := Session.preprocess_closed hclosed none none (some (.str "x")) false
  refine ⟨s₀, _, hO, Session.close_open hready.closed hready.locked, ?_, ?_, ?_⟩
  · rw [hpre]
    cases hf
    rfl
  · rw [Session.addClause_closed hclosed]
    rfl
  · rw [Session.setOptions_closed hclosed]
    rfl

end MaxSatPrep
