import MaxSatPrep.Engine.Propagate
import MaxSatPrep.Engine.Subsume
import MaxSatPrep.Engine.Blocked
import MaxSatPrep.Technique.Plan
/-!
Running a technique plan. The engine implements `u` (unit propagation), `s` (subsumption) and
`b` (blocked clause elimination); other names are skipped. Groups run in order, a repeating
group until a pass changes nothing. Each run is logged. With the option `skip_technique` at
k > 0 a technique that changed nothing in its last k runs is not run again. Every pass that
repeats follows a change, and every change lowers the measure of the table, so the measure
plus one bounds the passes of a group.

The arguments of a run may be values of any kind. The technique value is read as a plan. The
time limit must be a number that binary64 holds; one below a microsecond is over before the
first technique runs, as setting up the run takes longer, and the plan then stops. The log level
is compared with 1 when a name is skipped as unknown, after every run, and when the time is up;
a log level that is no number fails the first of these comparisons, and the engine keeps what it
did until then, the failing run logged but not counted for skipping. A technique that fails
stops the run in the same way, without a log entry for itself.
-/

namespace MaxSatPrep

namespace Engine

/-- the techniques the engine implements -/
def implemented (t : String) : Bool := t == "u" || t == "s" || t == "b"

/-- runs one technique, reporting whether it changed the formula -/
def runTechnique (t : String) : EngineM Bool :=
  if t == "u" then unitPropagate
  else if t == "s" then subsume
  else if t == "b" then eliminateBlocked
  else pure false

/-- runs one technique and logs the run; a run that fails is not logged -/
def runLogged (t : String) : EngineM Bool := do
  let before := (← get).rows.length
  let changed ← runTechnique t
  let e ← get
  let run : TechniqueRun :=
    { technique := t, changed := changed, clausesBefore := before,
      clausesAfter := e.rows.length, fixedAfter := e.fixed.length }
  set { e with log := e.log ++ [run] }
  pure changed

/-- the option `skip_technique`, zero when unset -/
def skipAfter (e : Engine) : Int :=
  match e.option? "skip_technique" with
  | some (.count n) => n
  | some (.flag b) => if b then 1 else 0
  | none => 0

/-- how running part of a plan ended -/
inductive Ending where
  /-- every technique ran; whether one changed the formula -/
  | done (changed : Bool)
  /-- the time limit was reached before a technique ran -/
  | expired
  /-- a run was followed by a log level that does not compare -/
  | halted
  deriving DecidableEq

/-- One pass over the names of a group and how it ended. With `halting` the pass stops after
the first run is logged, before the run is counted for skipping. -/
def groupPass (expired halting : Bool) (skip : Int) : List String → Bool → EngineM Ending
  | [], changed => pure (.done changed)
  | t :: ts, changed =>
    if !implemented t then groupPass expired halting skip ts changed
    else if expired then pure .expired
    else do
      if 0 < skip && skip ≤ ((← get).idleRuns t : Int) then
        groupPass expired halting skip ts changed
      else
        let c ← runLogged t
        if halting then pure .halted
        else
          modify (fun e => e.setIdle t (if c then 0 else e.idleRuns t + 1))
          groupPass expired halting skip ts (changed || c)

/-- runs a group, repeating while it changes something -/
def runGroup (expired halting : Bool) (skip : Int) (g : Group) : Nat → EngineM Ending
  | 0 => pure (.done false)
  | fuel + 1 => do
    match ← groupPass expired halting skip g.letters false with
    | .done changed =>
      if g.repeats && changed then runGroup expired halting skip g fuel else pure (.done false)
    | other => pure other

/-- runs the groups of a plan in order, stopping when time runs out or a run halts -/
def runPlan (expired halting : Bool) (skip : Int) : Plan → EngineM Ending
  | [] => pure (.done false)
  | g :: gs => do
    match ← runGroup expired halting skip g ((← get).measure + 1) with
    | .expired =>
      modify (fun e => { e with info := e.info ++ ["time limit reached"] })
      pure .expired
    | .halted => pure .halted
    | .done _ => runPlan expired halting skip gs

/-- the line of the info log after preprocessing -/
def preprocessedLine (techniques : Datum) (e : Engine) : Outcome String := do
  pure ("preprocessed '" ++ (← Datum.written techniques) ++ "': " ++ toString e.rows.length ++
    " clauses, " ++ toString e.fixed.length ++ " fixed, removed weight " ++
    (← Datum.written (.list e.removed)))

/-- one microsecond, the least time limit that outlasts setting up a run -/
def setupTime : Binary64 := Binary64.ofDecimal false 1 (-6)

/-- Whether a time limit is over before the first technique runs. The limit is added to the
clock, a binary64 number: an integer too large for binary64 cannot be, nor can a limit that is
no number. -/
def expiredAtStart (timeLimit : Datum) : Outcome Bool :=
  match timeLimit.number? with
  | some (.inl n) => do pure (Num.greater (.real setupTime) (.real (← Datum.widen n)))
  | some (.inr t) => .ok (Num.greater (.real setupTime) (.real t))
  | none => refuse (.unsupportedOperands "+" "float" timeLimit.typeName)

/-- Preprocesses a finalized instance. The log level only selects diagnostics for the error
stream, which this model does not keep, but it must compare with numbers. With `addRemoved`
the weight retired by this call is added to the top weight. A technique that fails stops the
call, and the engine keeps what was done until then. -/
def preprocess (techniques logLevel timeLimit : Datum) (addRemoved : Bool) : EngineM Unit := do
  let e ← get
  if !e.finalized then throw (Cause.fail .notFinalized)
  let plan ← EngineM.lift (Plan.ofDatum techniques)
  let expired ← EngineM.lift (expiredAtStart timeLimit)
  let before ← EngineM.lift (sumOf e.removed)
  let levelFailure := Cause.fail (.unorderable ">=" logLevel.typeName "int")
  let halting := logLevel.number?.isNone
  let unknown := plan.any (fun g => g.letters.any (fun t => !implemented t))
  if unknown && halting then throw levelFailure
  let ending ← runPlan expired halting e.skipAfter plan
  if ending = .halted || (ending = .expired && halting) then throw levelFailure
  let after ← EngineM.lift (sumOf (← get).removed)
  let retired ← EngineM.lift (Datum.minus after before)
  if addRemoved && retired.truthy then
    let top ← EngineM.lift (Datum.plus (← get).top retired)
    modify (fun e => { e with top := top })
  modify (fun e => { e with preprocessed := true })
  let line ← EngineM.lift (preprocessedLine techniques (← get))
  modify (fun e => { e with info := e.info ++ [line] })

end Engine

end MaxSatPrep
