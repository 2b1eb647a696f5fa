import MaxSatPrep.Engine.State
/-!
Incremental edits of a mutable engine: new variables, new hard clauses, new labels, changed
label weights, labels turned back into plain variables, and option settings. An edit that the
engine refuses leaves the state as it was (the literal buffer of a clause is emptied all the
same) and answers zero or false. The top weight grows with every added or raised weight and
never passes 2^64 - 1. Literals and weights are values of any kind, compared and added as the
language does; a comparison or sum that fails fails the edit.
-/

namespace MaxSatPrep

namespace Engine

/-- a new variable above all others, or zero when the engine is not mutable -/
def addVar : EngineM Datum := do
  let e ← get
  if !e.mutable then return .int 0
  let v ← EngineM.lift (Datum.plus e.maxVar (.int 1))
  set { e with maxVar := v }
  pure v

/-- whether a literal's magnitude is above the largest variable -/
def beyondVars (e : Engine) (l : Datum) : Outcome Bool := do
  Datum.greater (← Datum.magnitude l) e.maxVar

/-- Buffers a literal of a new hard clause; a literal equal to zero ends the clause, which is
added when the engine is mutable and knows all its variables. -/
def addLit (l : Datum) : EngineM Bool := do
  let e ← get
  if !Datum.numEq l (.int 0) then
    set { e with addBuffer := e.addBuffer ++ [l] }
    return true
  let lits := e.addBuffer
  set { e with addBuffer := [] }
  if !e.mutable then return false
  if ← EngineM.lift (lits.anyM (beyondVars e)) then return false
  modify (fun e => { e with rows := e.rows ++ [{ lits := lits, weights := none }] })
  pure true

/-- Adds a label with a weight in the first objective and raises the top weight by it; answers
the label, or zero when refused. -/
def addLabel (l w : Datum) : EngineM Datum := do
  let e ← get
  if !e.mutable || Datum.numEq e.nObj (.int 0) || Datum.numEq l (.int 0) then return .int 0
  if ← EngineM.lift (beyondVars e l) then return .int 0
  let labels ← EngineM.lift e.labels
  let taken ← EngineM.lift (labels.anyM (fun m => do
    pure (Datum.numEq (← Datum.magnitude m) (← Datum.magnitude l))))
  if taken then return .int 0
  let top ← EngineM.lift (Datum.plus e.top w)
  if ← EngineM.lift (Datum.greater top (.int u64Max)) then return .int 0
  let pad ← EngineM.lift (do Datum.zeros (← Datum.minus e.nObj (.int 1)))
  let row : Row := { lits := [l], weights := some (w :: pad), label := true }
  set { e with rows := e.rows ++ [row], top := top }
  pure l

/-- the objective a label's weight counts for: its first weight that is true, else the first -/
def labelObjective (ws : List Datum) : Nat := (ws.findIdx? Datum.truthy).getD 0

/-- Changes the weight of a label in its objective. A raise lifts the top weight by the
difference and is refused when that passes 2^64 - 1; a lowered weight leaves the top. -/
def alterWeight (label w : Datum) : EngineM Bool := do
  let e ← get
  let some i ← EngineM.lift (e.labelRow? label) | return false
  if !e.mutable then return false
  let some r := e.rows[i]? | return false
  let ws := r.weights.getD []
  let j := labelObjective ws
  let old ← EngineM.lift (Datum.itemAt ws (.int j))
  let top ← if ← EngineM.lift (Datum.greater w old) then do
      let raised ← EngineM.lift (do Datum.minus (← Datum.plus e.top w) old)
      if ← EngineM.lift (Datum.greater raised (.int u64Max)) then return false
      EngineM.lift (do Datum.plus e.top (← Datum.minus w old))
    else pure e.top
  let rows := e.rows.set i { r with weights := some (ws.set j w) }
  set { e with rows := rows, top := top }
  pure true

/-- removes the row of a label, leaving its variable unconstrained by it -/
def labelToVar (label : Datum) : EngineM Bool := do
  let e ← get
  let some i ← EngineM.lift (e.labelRow? label) | return false
  if !e.mutable then return false
  set { e with rows := e.rows.eraseIdx i }
  pure true

/-- sets every removed weight back to zero; refused before finalization -/
def resetRemovedWeight : EngineM Bool := do
  let e ← get
  if !e.finalized then return false
  let removed ← EngineM.lift (Datum.zeros e.nObj)
  set { e with removed := removed }
  pure true

/-- the options whose value is a flag -/
def flagOptions : List String :=
  ["bve_gate_extraction", "label_matching", "bve_sort_max_first", "harden_in_model_search"]

/-- the options whose value is a count -/
def countOptions : List String :=
  ["skip_technique", "bve_local_grow_limit", "bve_global_grow_limit", "max_bbtms_vars",
   "model_search_iter_limit"]

/-- stores an option value, replacing an earlier one -/
def putOption (e : Engine) (name : String) (v : OptionValue) : Engine :=
  if e.options.any (fun p => p.1 == name) then
    { e with options := e.options.map (fun p => if p.1 == name then (name, v) else p) }
  else { e with options := e.options ++ [(name, v)] }

/-- Sets an option: a flag option takes the truth of the value, a count option its integer.
The name is looked up in sets of names, so it must be able to be a set member. -/
def setOption (name value : Datum) : EngineM Unit := do
  let _ ← EngineM.lift (Datum.hashable name)
  match name with
  | .str n =>
    if flagOptions.contains n then modify (fun e => e.putOption n (.flag value.truthy))
    else if countOptions.contains n then
      let k ← EngineM.lift value.toInteger
      modify (fun e => e.putOption n (.count k))
    else throw (Cause.fail (.unknownOption n))
  | other =>
    let text ← EngineM.lift (Datum.written other)
    throw (Cause.fail (.unknownOption text))

end Engine

end MaxSatPrep
