import MaxSatPrep.Engine.State
/-!
Unit propagation. The fixed literals are looked up by their magnitude. Each pass drops the rows
with a true literal, removes false literals from the others, and retires a soft row left without
literals, adding its weights to the removed weight of their objectives. Then every hard row of
one literal whose magnitude is still free fixes that literal, in row order, recorded in the
trace. Passes repeat until no new literal is fixed. The result reports whether a row was dropped
or shortened.

A literal without a magnitude, a weight that does not add, or a weight past the objectives stops
the propagation where it stands: the rows reached in that pass keep their shortened literals,
but no row is dropped, and the weights retired so far stay removed.
-/

namespace MaxSatPrep

namespace Engine

/-- fixed literals by their magnitude, the latest first -/
abbrev Fixing := List (Datum × Datum)

/-- the fixed literal of a magnitude -/
def fixedOf? (vs : Fixing) (k : Datum) : Option Datum :=
  (vs.find? (fun p => Datum.memberEq p.1 k)).map Prod.snd

/-- a literal made true by the fixing: the literal fixed for its magnitude equals it -/
def isTrueUnder (vs : Fixing) (l : Datum) : Outcome Bool := do
  let k ← Datum.magnitude l
  pure (match fixedOf? vs k with
    | some m => Datum.numEq m l
    | none => false)

/-- a literal made false by the fixing: the literal fixed for its magnitude equals its negation -/
def isFalseUnder (vs : Fixing) (l : Datum) : Outcome Bool := do
  let k ← Datum.magnitude l
  let fixed := fixedOf? vs k
  let neg ← Datum.negate l
  pure (match fixed with
    | some m => Datum.numEq m neg
    | none => false)

/-- Adds weights into the removed weight, objective by objective from objective `i`; a weight
past the objectives or one that does not add stops the adding. -/
def retireWeights (removed : List Datum) (i : Nat) : List Datum → List Datum × Option Failure
  | [] => (removed, none)
  | w :: ws =>
    match removed[i]? with
    | none => (removed, some (Cause.fail .indexOutOfRange))
    | some r =>
      match Datum.plus r w with
      | .error f => (removed, some f)
      | .ok s => retireWeights (removed.set i s) (i + 1) ws

/-- one pass over the rows: every row (those reached with their false literals gone), the rows
that stay, the removed weights, whether a row changed, and the failure that stopped the pass -/
structure Sweep where
  rows : List Row
  alive : List Row
  removed : List Datum
  changed : Bool
  failure : Option Failure

/-- one pass over the rows under the fixing -/
def sweep (vs : Fixing) : List Row → List Datum → Sweep
  | [], removed => ⟨[], [], removed, false, none⟩
  | r :: rs, removed =>
    match r.lits.anyM (isTrueUnder vs) with
    | .error f => ⟨r :: rs, [], removed, false, some f⟩
    | .ok true =>
      let s := sweep vs rs removed
      { s with rows := r :: s.rows, changed := true }
    | .ok false =>
      match r.lits.filterM (fun l => do pure !(← isFalseUnder vs l)) with
      | .error f => ⟨r :: rs, [], removed, false, some f⟩
      | .ok kept =>
        let shortened := decide (kept.length < r.lits.length)
        let r := if shortened then { r with lits := kept } else r
        match kept, r.weights with
        | [], some ws =>
          match retireWeights removed 0 ws with
          | (removed, some f) => ⟨r :: rs, [], removed, false, some f⟩
          | (removed, none) =>
            let s := sweep vs rs removed
            { s with rows := r :: s.rows, changed := shortened || s.changed }
        | _, _ =>
          let s := sweep vs rs removed
          { s with rows := r :: s.rows, alive := r :: s.alive, changed := shortened || s.changed }

/-- The hard unit rows whose magnitude is free fix their literal, in row order: the fixing, the
new literals, and the failure of a literal without a magnitude, which stops the collecting. -/
def collectUnits : List Row → Fixing → List Datum → Fixing × List Datum × Option Failure
  | [], vs, fresh => (vs, fresh, none)
  | r :: rs, vs, fresh =>
    match r.weights, r.lits with
    | none, [l] =>
      match Datum.magnitude l with
      | .error f => (vs, fresh, some f)
      | .ok k =>
        if (fixedOf? vs k).isSome then collectUnits rs vs fresh
        else collectUnits rs ((k, l) :: vs) (fresh ++ [l])
    | _, _ => collectUnits rs vs fresh

/-- passes of propagation, at most `fuel` of them, accumulating the change flag -/
def propagateLoop : Nat → Fixing → Bool → EngineM Bool
  | 0, _, changed => pure changed
  | fuel + 1, vs, changed => do
    let e ← get
    let s := sweep vs e.rows e.removed
    match s.failure with
    | some f =>
      set { e with rows := s.rows, removed := s.removed }
      throw f
    | none =>
      set { e with rows := s.alive, removed := s.removed }
      let (vs, fresh, failure) := collectUnits s.alive vs []
      modify (fun e => { e with fixed := e.fixed ++ fresh, trace := e.trace ++ fresh.map Event.fix })
      match failure with
      | some f => throw f
      | none =>
        if fresh.isEmpty then pure (changed || s.changed)
        else propagateLoop fuel vs (changed || s.changed)

/-- Unit propagation to its fixpoint. Every pass after the first drops the unit rows that the
previous pass fixed, so the number of rows plus one bounds the passes. -/
def unitPropagate : EngineM Bool := do
  let e ← get
  let vs ← EngineM.lift (e.fixed.foldlM (fun vs l => do pure ((← Datum.magnitude l, l) :: vs)) [])
  propagateLoop (e.rows.length + 1) vs false

end Engine

end MaxSatPrep
