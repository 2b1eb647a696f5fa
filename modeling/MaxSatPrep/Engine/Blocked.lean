import MaxSatPrep.Engine.State
/-!
Blocked clause elimination on hard rows; inprocessing engines skip it. A hard row is blocked on
one of its literals whose magnitude is that of no soft literal when every other hard row still
present that contains the negated literal also contains the negation of another literal of the
row, so that each resolvent on that literal is a tautology. Rows are visited in order, a row is
eliminated on its first blocking literal, and each elimination is recorded in the trace.

The magnitudes of all soft literals are taken first and the literals of hard rows must be able
to be set members; after that a literal without a magnitude or negation stops the elimination
where it stands: the eliminations found so far stay in the trace, but no row is removed.
-/

namespace MaxSatPrep

namespace Engine

/-- whether the resolvent of a row and another on a literal is a tautology -/
def tautologicalResolvent (row : List Datum) (lit : Datum) (other : List Datum) : Outcome Bool :=
  row.anyM (fun m => do
    if Datum.numEq m lit then pure false
    else pure (Datum.memberOf (← Datum.negate m) other))

/-- whether the hard row at position `i` is blocked on `lit`, given the eliminated positions -/
def blockedOn (rows : List Row) (hard gone : List Nat) (i : Nat) (row : List Datum)
    (lit : Datum) : Outcome Bool :=
  hard.allM (fun j => do
    if j == i || gone.contains j then pure true
    else match rows[j]? with
      | none => pure true
      | some other =>
        if Datum.memberOf (← Datum.negate lit) other.lits then
          tautologicalResolvent row lit other.lits
        else pure true)

/-- the first literal of a hard row that blocks it, if any -/
def firstBlocking (rows : List Row) (hard gone : List Nat) (i : Nat) (row : List Datum)
    (soft : List Datum) : List Datum → Outcome (Option Datum)
  | [] => .ok none
  | lit :: lits => do
    if Datum.memberOf (← Datum.magnitude lit) soft then
      firstBlocking rows hard gone i row soft lits
    else if ← blockedOn rows hard gone i row lit then pure (some lit)
    else firstBlocking rows hard gone i row soft lits

/-- visits the hard rows in order: the eliminated positions, the trace events, and the failure
that stopped the visit -/
def blockedPass (rows : List Row) (hard : List Nat) (soft : List Datum) :
    List Nat → List Nat → List Event → List Nat × List Event × Option Failure
  | [], gone, events => (gone, events, none)
  | i :: is, gone, events =>
    match rows[i]? with
    | none => blockedPass rows hard soft is gone events
    | some r =>
      match firstBlocking rows hard gone i r.lits soft r.lits with
      | .error f => (gone, events, some f)
      | .ok none => blockedPass rows hard soft is gone events
      | .ok (some lit) => blockedPass rows hard soft is (gone ++ [i]) (events ++ [Event.blocked r.lits lit])

/-- Eliminates blocked hard rows. The result reports whether a row was eliminated. -/
def eliminateBlocked : EngineM Bool := do
  let e ← get
  if e.inprocessing then return false
  let soft ← EngineM.lift (((e.rows.filter (fun r => !r.hard)).flatMap Row.lits).mapM Datum.magnitude)
  let hard := (List.range e.rows.length).filter (fun i => (e.rows[i]?.map Row.hard).getD false)
  hard.forM (fun i => do
    let _ ← EngineM.lift (((e.rows[i]?.map Row.lits).getD []).mapM Datum.hashable)
    pure ())
  let (gone, events, failure) := blockedPass e.rows hard soft hard [] []
  set { e with trace := e.trace ++ events }
  match failure with
  | some f => throw f
  | none =>
    if gone.isEmpty then pure false
    else
      modify (fun e => { e with rows := (e.rows.zipIdx.filter (fun (p : Row × Nat) => !gone.contains p.2)).map Prod.fst })
      pure true

end Engine

end MaxSatPrep
