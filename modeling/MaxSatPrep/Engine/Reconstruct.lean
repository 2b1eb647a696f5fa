import MaxSatPrep.Engine.State
/-!
Reconstruction. The literals pushed since the last reconstruction give the starting values, by
magnitude: a literal not equal to zero makes its magnitude true when it is above zero (a later
literal of a magnitude wins), and every other magnitude is false. Then the trace is replayed
from its last event to its first: a fixing sets its literal true, and a blocked clause that no
value makes true sets its blocking literal true. The largest variable must be an integer, as the
variables from one to it are read back.
-/

namespace MaxSatPrep

namespace Engine

/-- truth values by magnitude; a magnitude not listed is false -/
abbrev Values := List (Datum × Bool)

/-- the value of a magnitude -/
def valueOf (vs : Values) (k : Datum) : Bool :=
  ((vs.find? (fun p => Datum.memberEq p.1 k)).map Prod.snd).getD false

/-- the values with one magnitude set; a listed magnitude keeps its place -/
def setValue (vs : Values) (k : Datum) (b : Bool) : Values :=
  if vs.any (fun p => Datum.memberEq p.1 k) then
    vs.map (fun p => if Datum.memberEq p.1 k then (p.1, b) else p)
  else vs ++ [(k, b)]

/-- the starting values of pushed literals; literals equal to zero are skipped -/
def startValues (pushed : List Datum) : Outcome Values :=
  pushed.foldlM (fun vs l => do
    if Datum.numEq l (.int 0) then pure vs
    else
      let k ← Datum.magnitude l
      pure (setValue vs k (← Datum.greater l (.int 0)))) []

/-- a literal made true: the value of its magnitude is whether it is above zero -/
def makeTrue (vs : Values) (l : Datum) : Outcome Values := do
  let b ← Datum.greater l (.int 0)
  pure (setValue vs (← Datum.magnitude l) b)

/-- one trace event replayed backwards -/
def replayEvent (vs : Values) : Event → Outcome Values
  | .fix l => makeTrue vs l
  | .blocked clause blocking => do
    let satisfied ← clause.anyM (fun m => do
      let v := valueOf vs (← Datum.magnitude m)
      pure (v == (← Datum.greater m (.int 0))))
    if satisfied then pure vs else makeTrue vs blocking

/-- the values after replaying a trace from its last event to its first -/
def replay (vs : Values) (trace : List Event) : Outcome Values :=
  trace.reverse.foldlM replayEvent vs

/-- pushes one literal of the assignment to reconstruct -/
def assignmentAdd (l : Datum) : EngineM Unit :=
  modify (fun e => { e with assignment := e.assignment ++ [l] })

/-- the largest variable as the end of the variables read back -/
def variableBound (e : Engine) : Outcome Int := do
  Datum.rangeBound (← Datum.plus e.maxVar (.int 1))

/-- reconstructs values for the pushed literals and empties the pushed list -/
def reconstruct : EngineM Unit := do
  let e ← get
  let vs ← EngineM.lift (startValues e.assignment)
  set { e with assignment := [] }
  let _ ← EngineM.lift (variableBound e)
  let vs ← EngineM.lift (replay vs e.trace)
  modify (fun e => { e with reconstructed := vs })

/-- the reconstructed truth of a literal -/
def reconstructedVal (e : Engine) (l : Datum) : Outcome Bool := do
  let v := valueOf e.reconstructed (← Datum.magnitude l)
  if ← Datum.greater l (.int 0) then pure v else pure !v

theorem replay_nil (vs : Values) : replay vs [] = .ok vs := rfl

end Engine

end MaxSatPrep
