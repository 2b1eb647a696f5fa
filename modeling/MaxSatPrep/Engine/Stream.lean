import MaxSatPrep.Engine.State
/-!
Streaming an instance into the engine. Weights and literals arrive one at a time; a literal
equal to zero closes the row, which is soft when weights arrived since the last close and hard
otherwise. A literal is kept before its magnitude raises the largest variable, so one without a
magnitude stays in the row. Closing a soft row raises the objective count to the row's number
of weights; when that comparison fails the row is closed all the same but keeps the stream's
lists, and grows with them (`Engine.sharing`). Finalizing pads every soft row to the objective
count, marks the first soft unit row of each variable as its label, and freezes the stream.
Literals still pending at that point are dropped, though they count towards the largest
variable.
-/

namespace MaxSatPrep

namespace Engine

/-- the rows that share the stream's lists, made equal to them again -/
def mirrorPending (e : Engine) : Engine :=
  { e with rows := e.rows.mapIdx (fun i r =>
      if e.sharing.contains i then { r with lits := e.pendingLits, weights := some e.pendingWeights }
      else r) }

/-- streams one weight of the current row -/
def initAddWeight (w : Datum) : EngineM Unit := do
  let e ← get
  if e.finalized then throw (Cause.fail .alreadyFinalized)
  set (mirrorPending { e with pendingWeights := e.pendingWeights ++ [w] })

/-- closes the current row -/
def closeRow : EngineM Unit := do
  let e ← get
  let weights := if e.pendingWeights.isEmpty then none else some e.pendingWeights
  let e := { e with rows := e.rows ++ [({ lits := e.pendingLits, weights := weights } : Row)] }
  set e
  let fresh (n : Datum) : Engine :=
    { e with nObj := n, pendingLits := [], pendingWeights := [], sharing := [] }
  match weights with
  | none => set (fresh e.nObj)
  | some ws =>
    match Datum.maxOf e.nObj (.int ws.length) with
    | .ok n => set (fresh n)
    | .error f =>
      set { e with sharing := e.sharing ++ [e.rows.length - 1] }
      throw f

/-- streams one literal of the current row; a literal equal to zero closes it -/
def initAddLit (l : Datum) : EngineM Unit := do
  let e ← get
  if e.finalized then throw (Cause.fail .alreadyFinalized)
  if Datum.numEq l (.int 0) then closeRow
  else
    set (mirrorPending { e with pendingLits := e.pendingLits ++ [l] })
    let m ← EngineM.lift (Datum.magnitude l)
    let v ← EngineM.lift (Datum.maxOf e.maxVar m)
    modify (fun e => { e with maxVar := v })

/-- Pads the weights of soft rows to `n` objectives and marks the first soft unit row of each
variable as a label; `seen` holds the magnitudes that already have one. The rows before a
failure keep their changes, and so does the failing row. -/
def markLabels (n : Datum) (seen : List Datum) : List Row → List Row × Option Failure
  | [] => ([], none)
  | r :: rs =>
    match r.weights with
    | none => let (rs', f) := markLabels n seen rs; (r :: rs', f)
    | some ws =>
      match (do Datum.zeros (← Datum.minus n (.int ws.length))) with
      | .error f => (r :: rs, some f)
      | .ok pad =>
        let r := { r with weights := some (ws ++ pad) }
        match r.lits with
        | [l] =>
          match Datum.magnitude l with
          | .error f => (r :: rs, some f)
          | .ok v =>
            if Datum.memberOf v seen then
              let (rs', f) := markLabels n seen rs
              (r :: rs', f)
            else
              let (rs', f) := markLabels n (v :: seen) rs
              ({ r with label := true } :: rs', f)
        | _ => let (rs', f) := markLabels n seen rs; (r :: rs', f)

/-- the finalization line of the info log -/
def finalizedLine (e : Engine) : Outcome String := do
  pure ("finalized: " ++ toString e.rows.length ++ " clauses, " ++ (← Datum.written e.maxVar) ++
    " variables, " ++ (← Datum.written e.nObj) ++ " objectives, top weight " ++
    (← Datum.written e.top))

/-- finalizes the instance -/
def initFinalize : EngineM Unit := do
  let e ← get
  if e.finalized then throw (Cause.fail .alreadyFinalized)
  let removed ← EngineM.lift (Datum.zeros e.nObj)
  let (rows, failure) := markLabels e.nObj [] e.rows
  set { e with removed := removed, rows := rows }
  match failure with
  | some f => throw f
  | none =>
    modify (fun e => { e with finalized := true })
    let line ← EngineM.lift (finalizedLine (← get))
    modify (fun e => { e with info := e.info ++ [line] })

end Engine

end MaxSatPrep
