import MaxSatPrep.Instance.Model
import MaxSatPrep.Schema
import MaxSatPrep.Clause
/-!
Lax checks of instance documents. Literals are non-zero integers, bounds of cardinality
constraints and weights of objectives natural numbers; a pseudo-Boolean constraint needs one
weight per literal, which is checked only once its fields pass. The weighted literals of an
objective are an object keyed by literal numerals; keys naming the same literal keep the first
position and the last weight. Fields other than the model's are ignored.
-/

namespace MaxSatPrep

namespace Schema

/-- the relation of a cardinality constraint -/
def cardKind (d : Datum) : Checked CardKind :=
  (oneOf ["atmost", "atleast", "equals"] d).map (fun w =>
    if w == "atleast" then .atLeast else if w == "equals" then .exactly else .atMost)

/-- the relation of a pseudo-Boolean constraint -/
def pbKind (d : Datum) : Checked PbKind :=
  (oneOf ["leq", "geq", "equals"] d).map (fun w =>
    if w == "geq" then .geq else if w == "equals" then .equal else .leq)

/-- a cardinality constraint -/
def card (d : Datum) : Checked CardConstraint := do
  let _ ← fields d
  let r := Checked.both (required d "lits" (list dimacsLit))
    (Checked.both (required d "bound" nat) (optional d "kind" .atMost cardKind))
  r.map (fun p => { lits := p.1, bound := p.2.1, kind := p.2.2 })

/-- a pseudo-Boolean constraint with one weight per literal -/
def pb (d : Datum) : Checked PbConstraint := do
  let _ ← fields d
  let r := Checked.both (Checked.both (required d "lits" (list dimacsLit))
    (required d "weights" (list int))) (Checked.both (required d "bound" int)
    (optional d "kind" .leq pbKind))
  let ((lits, weights), (bound, kind)) ← r
  let c : PbConstraint := { lits := lits, weights := weights, bound := bound, kind := kind }
  if lits.length = weights.length then pure c else Checked.fail

/-- a satisfiability instance -/
def satInstance (d : Datum) : Checked SatInstance := do
  let _ ← fields d
  let r := Checked.both (optional d "clauses" [] (list (list dimacsLit)))
    (Checked.both (optional d "cards" [] (list card)) (optional d "pbs" [] (list pb)))
  r.map (fun p => { clauses := p.1, cards := p.2.1, pbs := p.2.2 })

/-- a weighted clause -/
def weightedClause (d : Datum) : Checked WeightedClause := do
  let _ ← fields d
  let r := Checked.both (required d "lits" (list dimacsLit)) (required d "weight" nat)
  r.map (fun p => { lits := p.1, weight := p.2 })

/-- a literal key of an object: a numeral of a non-zero integer -/
def litKey (k : String) : Checked Int := dimacsLit (.str k)

/-- puts a literal's weight, a present literal keeping its position -/
def putWeight (ps : List (Int × Nat)) (l : Int) (w : Nat) : List (Int × Nat) :=
  if ps.any (fun p => p.1 == l) then ps.map (fun p => if p.1 == l then (l, w) else p)
  else ps ++ [(l, w)]

/-- weighted literals: an object from literal numerals to natural weights -/
def litWeights (d : Datum) : Checked (List (Int × Nat)) := do
  let fs ← fields d
  let entries ← Checked.all (fs.map (fun p => Checked.both (litKey p.1) (nat p.2)))
  pure (entries.foldl (fun acc p => putWeight acc p.1 p.2) [])

/-- an objective -/
def objective (d : Datum) : Checked Objective := do
  let _ ← fields d
  let r := Checked.both (optional d "lits" [] litWeights)
    (Checked.both (optional d "clauses" [] (list weightedClause)) (optional d "offset" 0 int))
  r.map (fun p => { lits := p.1, clauses := p.2.1, offset := p.2.2 })

/-- an instance with one objective -/
def optInstance (d : Datum) : Checked OptInstance := do
  let _ ← fields d
  let r := Checked.both (optional d "constraints" {} satInstance)
    (optional d "objective" {} objective)
  r.map (fun p => { constraints := p.1, objective := p.2 })

/-- an instance with a list of objectives -/
def multiOptInstance (d : Datum) : Checked MultiOptInstance := do
  let _ ← fields d
  let r := Checked.both (optional d "constraints" {} satInstance)
    (optional d "objectives" [] (list objective))
  r.map (fun p => { constraints := p.1, objectives := p.2 })

end Schema

/-- a document checked against a model, a failure naming the model and the failing places -/
def checkAgainst {α : Type} (model : String) (check : Datum → Checked α) (d : Datum) :
    Outcome α :=
  match check d with
  | .ok x => .ok x
  | .error n => refuse (.schema model n)

/-- Checks a clause list: every clause must be iterable, and every literal a non-zero integer
(laxly read); failures are reported as an invalid structure. -/
def validateClauses (cnf : Datum) : Outcome (List (List Int)) :=
  let wrap (f : Failure) : Failure := ⟨.validation, .invalidCnf f.cause⟩
  (do
    let clauses ← cnf.iterate
    let items ← clauses.mapM Datum.iterate
    checkAgainst "DimacsCNF" (fun _ => Checked.all (items.map (fun (c : List Datum) =>
      Checked.all (c.map Schema.dimacsLit)))) cnf).mapError wrap

end MaxSatPrep
