import MaxSatPrep.Session.Basic
import MaxSatPrep.Instance.Encoding
import MaxSatPrep.Datum.Convert
/-!
Sessions opened from instances. A satisfiability instance gives hard clauses only; an
optimisation instance is the multi-objective instance of its one objective; a multi-objective
instance is decomposed into hard clauses, one soft clause map per objective and the offsets.
The decomposition comes first, so an encoding failure is reported before the backend is looked
up. Weighted clauses are collected as a weighted formula does: every literal needs a
magnitude, a clause with a zero weight is hard, and soft clauses equal in canonical order sum
their weights.
-/

namespace MaxSatPrep

namespace Session

/-- a clause as a document -/
def clauseDatum (c : List Int) : Datum := .list (c.map .int)

/-- the (clause, weight) pairs of a soft clause map -/
def softDatums (m : SoftMap) : List (Datum × Datum) :=
  m.entries.map (fun p => (clauseDatum (p.1.map Lit.toInt), .int p.2))

/-- opens a session on a decomposed instance, with its offsets if asked for -/
def ofDecomposed (registry : Registry) (backendName : Option String) (d : Decomposed)
    (inprocessing withOffsets : Bool) : Outcome Session :=
  create registry backendName (.list (d.hards.map .list))
    (d.softs.map (fun m => .mapping (softDatums m))) inprocessing
    (if withOffsets then some (.list (d.offsets.map .int)) else none)

/-- opens a session on the hard clauses of a satisfiability instance -/
def ofSat (registry : Registry) (backendName : Option String) (s : SatInstance)
    (enc : Encoders) (inprocessing : Bool) : Outcome Session := do
  let d ← MultiOptInstance.decompose { constraints := s } enc
  ofDecomposed registry backendName { d with softs := [] } inprocessing false

/-- opens a session on an instance with one objective -/
def ofOpt (registry : Registry) (backendName : Option String) (o : OptInstance)
    (enc : Encoders) (inprocessing : Bool) : Outcome Session := do
  let d ← MultiOptInstance.decompose { constraints := o.constraints, objectives := [o.objective] }
    enc
  ofDecomposed registry backendName d inprocessing true

/-- opens a session on an instance with a list of objectives -/
def ofMultiOpt (registry : Registry) (backendName : Option String) (m : MultiOptInstance)
    (enc : Encoders) (inprocessing : Bool) : Outcome Session := do
  let d ← m.decompose enc
  ofDecomposed registry backendName d inprocessing true

/-- A clause as a weighted formula takes it: it must iterate, and every literal must have a
magnitude, being a number or a boolean. -/
def checkMagnitudes (c : Datum) : Outcome Unit := do
  let xs ← c.iterate
  match xs.find? (fun x => x.number?.isNone) with
  | some x => refuse (.badOperand "abs()" x.typeName)
  | none => pure ()

/-- the soft clauses of weighted pairs: each clause in canonical order, equal clauses summing
their weights in the position of the first -/
def collectSofts (soft : List (Datum × Datum)) : Outcome (List (List Lit × Datum)) :=
  soft.foldlM (fun acc p => do
    let key ← clauseOf p.1
    match acc.find? (fun q => q.1 == key) with
    | some q =>
      let w ← q.2.plus p.2
      pure (acc.map (fun r => if r.1 == key then (key, w) else r))
    | none => pure (acc ++ [(key, ← (Datum.int 0).plus p.2)])) []

/-- Opens a session on weighted clauses as a weighted formula collects them: every clause is
taken in order, hard ones first, and a pair with a weight that is not truthy becomes a hard
clause; the other pairs form the one objective. The formula keeps a top weight, starting at 1,
to which each truthy weight is added in place as it comes. -/
def ofWeighted (registry : Registry) (backendName : Option String) (hard : List Datum)
    (soft : List (Datum × Datum)) (inprocessing : Bool) : Outcome Session := do
  hard.forM checkMagnitudes
  let _ ← soft.foldlM (fun top p => do
    checkMagnitudes p.1
    if p.2.truthy then Datum.plusBy "+=" top p.2 else pure top) (Datum.int 1)
  let hard := hard ++ (soft.filter (fun p => !p.2.truthy)).map Prod.fst
  let softs ← collectSofts (soft.filter (fun p => p.2.truthy))
  create registry backendName (.list hard)
    [.mapping (softs.map (fun p => (clauseDatum (p.1.map Lit.toInt), p.2)))] inprocessing none

end Session

end MaxSatPrep
