import MaxSatPrep.Session.Basic
import MaxSatPrep.Engine.Schedule
import MaxSatPrep.Engine.Report
import MaxSatPrep.Instance.Readback
import MaxSatPrep.Instance.Model
import MaxSatPrep.Assignment
import MaxSatPrep.Options
/-!
The calls of an open session. Arguments are checked before the session is touched (literals,
weights, options, the time limit); then a mutating call takes the session exclusively and a
read shares it. A refused call leaves the session as it was. Reconstruction and the printed
solution take an assignment, check it, push its literals in variable order and read back a
value for every variable up to the largest original one.
-/

namespace MaxSatPrep

namespace Session

/-- the engine state put back into the session -/
def withEngine (s : Session) (e : Engine) : Session := { s with engine := e }

/-- the integer an engine value holds; a session's engine holds only integers -/
def intOf (d : Datum) : Int := d.asInt?.getD 0

/-- Runs a call on the engine of the session: its answer and the session with the engine
afterwards, or its failure. -/
def call {α : Type} (s : Session) (e : Engine) (m : EngineM α) : Outcome (α × Session) :=
  match m.run e with
  | (.ok a, e) => .ok (a, s.withEngine e)
  | (.error f, _) => .error f

/-- a weight argument: a natural number, not a boolean, that fits into 64 bits -/
def checkWeight (d : Datum) : Outcome Nat :=
  match d with
  | .int n =>
    if n < 0 then refuse (.badWeight d)
    else if Engine.u64Max < n then refuse (.weightTooLarge n)
    else .ok n.toNat
  | _ => refuse (.badWeight d)

/-- Runs the techniques of a value, by default the configured one, with the configured log level
and time limit unless they are given. A time limit below zero is refused and one that does not
compare with zero fails. The session keeps what a run that fails part-way did; the failure
comes with it. -/
def preprocess (s : Session) (techniques logLevel timeLimit : Option Datum) (addRemoved : Bool) :
    Session × Option Failure :=
  let techniques := techniques.getD s.config.techniques
  let logLevel := logLevel.getD s.config.logLevel
  let timeLimit := timeLimit.getD s.config.timeLimit
  match Datum.less timeLimit (.int 0) with
  | .error f => (s, some f)
  | .ok true => (s, some (Cause.fail (.negativeTimeLimit timeLimit)))
  | .ok false =>
    match s.exclusive with
    | .error f => (s, some f)
    | .ok e =>
      match (Engine.preprocess techniques logLevel timeLimit addRemoved).run e with
      | (.ok _, e) => (s.withEngine e, none)
      | (.error f, e) => (s.withEngine e, some f)

/-- the top weight -/
def topWeight (s : Session) : Outcome Int := do pure (intOf (← s.shared).top)

/-- the number of rows of the table -/
def nPreproClauses (s : Session) : Outcome Nat := do pure (← s.shared).rows.length

/-- the number of labels -/
def nPreproLabels (s : Session) : Outcome Nat := do pure (← (← s.shared).labels).length

/-- the number of fixed literals -/
def nPreproFixedLits (s : Session) : Outcome Nat := do pure (← s.shared).fixed.length

/-- the largest original variable -/
def maxOrigVar (s : Session) : Outcome Nat := do pure (intOf (← s.shared).maxVar).natAbs

/-- the removed weight of each objective -/
def removedWeight (s : Session) : Outcome (List Int) := do
  let e ← s.shared
  let ws ← (List.range s.nObj).mapM (fun (o : Nat) => e.removedWeight (.int o))
  pure (ws.map intOf)

/-- the label literals -/
def preproLabels (s : Session) : Outcome (List Int) := do
  pure ((← (← s.shared).labels).map intOf)

/-- the fixed literals -/
def preproFixedLits (s : Session) : Outcome (List Int) := do
  pure ((← s.shared).fixed.map intOf)

/-- the simplified instance -/
def preproInstance (s : Session) : Outcome Simplified := do
  (← s.shared).extract (.int s.nObj)

/-- pushes an assignment's literals in variable order -/
def pushAssignment (a : Assignment) : EngineM Unit :=
  a.lits.forM (fun l => Engine.assignmentAdd (.int l.toInt))

/-- The values of the variables 1 to the largest original variable that reconstruction gives
for an assignment, as literals. -/
def reconstruct (s : Session) (assignment : List Datum) : Outcome (List Int × Session) := do
  let e ← s.exclusive
  let a ← Assignment.ofDatums assignment
  let ((), s) ← s.call e (do pushAssignment a; Engine.reconstruct)
  let e := s.engine
  let model ← (List.range (intOf e.maxVar).natAbs).mapM (fun (i : Nat) => do
    if ← e.reconstructedVal (.int ((i + 1 : Nat) : Int)) then pure ((i + 1 : Nat) : Int)
    else pure (-((i + 1 : Nat) : Int)))
  pure (model, s)

/-- a new variable -/
def addVar (s : Session) : Outcome (Nat × Session) := do
  let e ← s.exclusive
  let (v, s) ← s.call e Engine.addVar
  if Datum.numEq v (.int 0) then refuse .refusedVariable else pure ((intOf v).natAbs, s)

/-- adds a hard clause, put in canonical order first -/
def addClause (s : Session) (clause : Datum) : Outcome Session := do
  let c ← clauseOf clause
  let e ← s.exclusive
  let (accepted, s) ← s.call e (do
    c.forM (fun l => do let _ ← Engine.addLit (.int l.toInt); pure ())
    Engine.addLit (.int 0))
  if accepted then pure s else refuse (.refusedClause c)

/-- adds a label with a weight -/
def addLabel (s : Session) (lit weight : Datum) : Outcome (Lit × Session) := do
  let l ← Lit.ofDatum lit
  let w ← checkWeight weight
  let e ← s.exclusive
  let (label, s) ← s.call e (Engine.addLabel (.int l.toInt) (.int w))
  match Lit.ofInt? (intOf label) with
  | some m => pure (m, s)
  | none => refuse (.refusedLabel l)

/-- changes the weight of a label -/
def alterWeight (s : Session) (label weight : Datum) : Outcome Session := do
  let l ← Lit.ofDatum label
  let w ← checkWeight weight
  let e ← s.exclusive
  let (ok, s) ← s.call e (Engine.alterWeight (.int l.toInt) (.int w))
  if ok then pure s else refuse (.noLabel l)

/-- turns a label back into a plain variable -/
def labelToVar (s : Session) (label : Datum) : Outcome Session := do
  let l ← Lit.ofDatum label
  let e ← s.exclusive
  let (ok, s) ← s.call e (Engine.labelToVar (.int l.toInt))
  if ok then pure s else refuse (.noLabel l)

/-- sets the removed weight of every objective back to zero -/
def resetRemovedWeight (s : Session) : Outcome Session := do
  let e ← s.exclusive
  let (ok, s) ← s.call e Engine.resetRemovedWeight
  if ok then pure s else refuse .refusedReset

/-- hands the options a document sets to the engine -/
def setOptions (s : Session) (options : Datum) : Outcome Session := do
  let o ← match ← Options.ofKeywords options with
    | .ok o => pure o
    | .error n => refuse (.invalidOptions (.schema "PreproOptions" n))
  let e ← s.exclusive
  pure (s.withEngine ((o.present).foldl (fun e p => e.putOption p.1 p.2) e))

/-- The simplified instance as a multi-objective instance; each offset grows by the weight
removed from its objective. The offsets are values as given, so the sum is a sum of values,
and it must pass as an objective's integer offset. -/
def preproMultiOptInstance (s : Session) : Outcome MultiOptInstance := do
  let inst ← s.preproInstance
  let objectives ← (List.range s.nObj).mapM (fun i => do
    let removed := (inst.removedWeight[i]?).getD (.int 0)
    let offset ← Datum.plus ((s.offsets[i]?).getD (.int 0)) removed
    match Schema.int offset with
    | .ok o => pure (Objective.ofSoftClauses (inst.objective i) o)
    | .error n => refuse (.schema "Objective" n))
  pure { constraints := SatInstance.ofClauses inst.hards, objectives := objectives }

/-- the simplified instance as a satisfiability instance; only without objectives -/
def preproSatInstance (s : Session) : Outcome SatInstance := do
  if s.nObj ≠ 0 then refuse (.notSatisfiability s.nObj) else
  let inst ← s.preproInstance
  pure (SatInstance.ofClauses inst.hards)

/-- the simplified instance as a single-objective instance; only with one objective -/
def preproOptInstance (s : Session) : Outcome OptInstance := do
  if s.nObj ≠ 1 then refuse (.notSingleObjective s.nObj) else
  let m ← s.preproMultiOptInstance
  pure { constraints := m.constraints, objective := (m.objectives.head?).getD {} }

/-- the instance report lines -/
def printInstance (s : Session) : Outcome (List String) := do (← s.shared).instanceLines

/-- the reconstruction map lines -/
def printMap (s : Session) : Outcome (List String) := do (← s.shared).mapLines

/-- the technique log lines -/
def printTechniqueLog (s : Session) : Outcome (List String) := do
  pure (← s.shared).techniqueLines

/-- the info log lines -/
def printInfoLog (s : Session) : Outcome (List String) := do pure (← s.shared).infoLines

/-- the statistics lines -/
def printStats (s : Session) : Outcome (List String) := do (← s.shared).statsLines

/-- the solution lines after reconstructing an assignment -/
def printSolution (s : Session) (assignment : List Datum) (weight : Datum) :
    Outcome (List String × Session) := do
  let e ← s.exclusive
  let a ← Assignment.ofDatums assignment
  s.call e (do pushAssignment a; Engine.solutionLines weight)

/-- takes the session's lock, as a call in progress holds it -/
def holdLock (s : Session) : Session := { s with locked := true }

/-- gives the session's lock back -/
def releaseLock (s : Session) : Session := { s with locked := false }

/-- what a session shows between calls -/
inductive Snapshot where
  | closed
  | locked
  | shown (top : Int) (nClauses : Nat) (labels fixed : List Int) (removed : List Int)
      (maxOrigVar : Nat) (inst : Simplified)

/-- the session's state as readbacks show it -/
def snapshot (s : Session) : Snapshot :=
  if s.closed then .closed
  else if s.locked then .locked
  else
    let e := s.engine
    let inst := match e.extract (.int s.nObj) with
      | .ok i => i
      | .error _ => ⟨[], [], e.top, []⟩
    .shown (intOf e.top) e.rows.length ((e.labels.toOption.getD []).map intOf) (e.fixed.map intOf)
      ((List.range s.nObj).map (fun o => intOf ((e.removed[o]?).getD (.int 0))))
      (intOf e.maxVar).natAbs inst

end Session

end MaxSatPrep
