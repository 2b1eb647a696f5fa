import MaxSatPrep.Backend
import MaxSatPrep.Engine.Stream
import MaxSatPrep.Weights.Table
/-!
Sessions: one preprocessing run over one engine instance. A session is opened from hard clauses
and objectives (each a list of soft clauses with weights): the instance is streamed into a
fresh engine with the top weight, one more than all weights, and finalized. A session is open
until closed; a closed session refuses every call that reaches the engine. A call holding the
session's lock makes other mutating calls and reads refuse, and closing too.
-/

namespace MaxSatPrep

/-- a preprocessing session -/
structure Session where
  backend : Backend
  config : SessionConfig
  inprocessing : Bool
  nObj : Nat
  offsets : List Datum
  engine : Engine
  closed : Bool := false
  locked : Bool := false

namespace Session

/-- streams one clause, closed by zero -/
def streamClause (c : List Lit) : EngineM Unit := do
  c.forM (fun l => Engine.initAddLit (.int l.toInt))
  Engine.initAddLit (.int 0)

/-- streams one soft row: its weights, then its clause -/
def streamRow (row : List Lit × List Nat) : EngineM Unit := do
  row.2.forM (fun w => Engine.initAddWeight (.int w))
  streamClause row.1

/-- Opens a session on the reference engine from canonical hard clauses and objectives of
canonical clauses with natural weights, with optional per-objective offsets. The offsets are
the items of a value with one item per objective; they are kept as given, to be added to the
removed weights later. -/
def openWith (backend : Backend) (config : SessionConfig) (hards : List (List Lit))
    (objectives : List (List (List Lit × Nat))) (inprocessing : Bool)
    (offsets : Option Datum) : Outcome Session := do
  let top ← Weights.topWeight objectives
  let n := objectives.length
  let offsets ← match offsets with
    | some os =>
      match os.elements? with
      | some items => if items.length = n then pure items else refuse (.offsetCount items.length n)
      | none => refuse (.noLength os.typeName)
    | none => pure (List.replicate n (.int 0))
  let build : EngineM Unit := do
    hards.forM streamClause
    (Weights.weightRows objectives).forM streamRow
    Engine.initFinalize
  match build.run (Engine.start (.int top) inprocessing (.int n)) with
  | (.error f, _) => throw f
  | (.ok _, e) =>
    pure { backend := backend, config := config, inprocessing := inprocessing, nObj := n,
           offsets := offsets, engine := e }

/-- Opens a session from loose hard clauses, the items of a value, and objectives: the backend
is resolved first, then every hard clause is read, then every objective. -/
def create (registry : Registry) (backendName : Option String) (hards : Datum)
    (objectives : List Weights.SoftClauses) (inprocessing : Bool)
    (offsets : Option Datum) : Outcome Session := do
  let backend ← registry.get backendName
  let hs ← (← hards.iterate).mapM clauseOf
  let objs ← objectives.mapM Weights.softPairs
  openWith backend registry.config hs objs inprocessing offsets

/-- the engine of an open session -/
def live (s : Session) : Outcome Engine :=
  if s.closed then refuse .sessionReleased else .ok s.engine

/-- the engine for a read: open, and no mutating call running -/
def shared (s : Session) : Outcome Engine := do
  let e ← s.live
  if s.locked then refuse .readWhileMutating else pure e

/-- the engine for a mutating call: open, and no other mutating call running -/
def exclusive (s : Session) : Outcome Engine := do
  let e ← s.live
  if s.locked then refuse .mutateWhileMutating else pure e

/-- closes the session; closing a closed session does nothing -/
def close (s : Session) : Outcome Session :=
  if s.closed then .ok s
  else if s.locked then refuse .closeWhileBusy
  else .ok { s with closed := true }

/-- the session's text: backend, objective count and whether it is open -/
def describe (s : Session) : String :=
  "<Session backend=" ++ s.backend.name ++ " objectives=" ++ toString s.nObj ++
    (if s.closed then " closed>" else " open>")

end Session

end MaxSatPrep
