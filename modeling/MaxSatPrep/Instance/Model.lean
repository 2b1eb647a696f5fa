import MaxSatPrep.Weights.SoftMap
/-!
Instances above the clause level. A satisfiability instance holds clauses, cardinality
constraints (a bound on how many literals are true) and pseudo-Boolean constraints (a bound on a
weighted sum of true literals). An objective to minimise weighs true literals and falsified
clauses, plus an offset; an optimisation instance has one objective, a multi-objective instance
a list. Literals are non-zero DIMACS integers.
-/

namespace MaxSatPrep

/-- the relation of a cardinality constraint -/
inductive CardKind where
  | atMost
  | atLeast
  | exactly
  deriving DecidableEq

/-- the word of a cardinality relation in documents -/
def CardKind.word : CardKind → String
  | .atMost => "atmost"
  | .atLeast => "atleast"
  | .exactly => "equals"

/-- at most, at least or exactly `bound` of the literals are true -/
structure CardConstraint where
  lits : List Int
  bound : Nat
  kind : CardKind := .atMost

/-- the relation of a pseudo-Boolean constraint -/
inductive PbKind where
  | leq
  | geq
  | equal
  deriving DecidableEq

/-- the word of a pseudo-Boolean relation in documents -/
def PbKind.word : PbKind → String
  | .leq => "leq"
  | .geq => "geq"
  | .equal => "equals"

/-- the weighted sum of true literals is at most, at least or exactly `bound` -/
structure PbConstraint where
  lits : List Int
  weights : List Int
  bound : Int
  kind : PbKind := .leq

/-- clauses with cardinality and pseudo-Boolean constraints -/
structure SatInstance where
  clauses : List (List Int) := []
  cards : List CardConstraint := []
  pbs : List PbConstraint := []

/-- a clause with the weight paid when it is false -/
structure WeightedClause where
  lits : List Int
  weight : Nat

/-- an objective: weights of true literals, weights of false clauses, and an offset -/
structure Objective where
  lits : List (Int × Nat) := []
  clauses : List WeightedClause := []
  offset : Int := 0

/-- an instance with one objective -/
structure OptInstance where
  constraints : SatInstance := {}
  objective : Objective := {}

/-- an instance with a list of objectives -/
structure MultiOptInstance where
  constraints : SatInstance := {}
  objectives : List Objective := []

/-- the largest variable of a list of literals, zero for none -/
def maxVarOf (ls : List Int) : Nat := ls.foldl (fun m l => max m l.natAbs) 0

namespace SatInstance

/-- the largest variable of the instance -/
def maxVar (s : SatInstance) : Nat :=
  maxVarOf (s.clauses.flatten ++ (s.cards.map CardConstraint.lits).flatten ++
    (s.pbs.map PbConstraint.lits).flatten)

/-- the instance of plain clauses -/
def ofClauses (cs : List (List Lit)) : SatInstance := { clauses := cs.map (·.map Lit.toInt) }

end SatInstance

namespace Objective

/-- the largest variable of the objective -/
def maxVar (o : Objective) : Nat :=
  maxVarOf (o.lits.map Prod.fst ++ (o.clauses.map WeightedClause.lits).flatten)

/-- The soft clauses of the objective: a weighted literal `l` becomes the clause `[-l]`, then
the weighted clauses are put in canonical order; equal clauses sum their weights. -/
def softClauses (o : Objective) : SoftMap :=
  let m := o.lits.foldl (fun m p =>
    m.add (canonicalClause ((Lit.ofInt? (-p.1)).toList)) p.2) SoftMap.empty
  o.clauses.foldl (fun m c => m.add (canonicalClause (c.lits.filterMap Lit.ofInt?)) c.weight) m

/-- the objective of weighted soft clauses and an offset -/
def ofSoftClauses (m : SoftMap) (offset : Int) : Objective :=
  { clauses := m.entries.map (fun p => ⟨p.1.map Lit.toInt, p.2.toNat⟩), offset := offset }

end Objective

namespace OptInstance

/-- the largest variable of the instance -/
def maxVar (o : OptInstance) : Nat := max o.constraints.maxVar o.objective.maxVar

end OptInstance

namespace MultiOptInstance

/-- the largest variable of the instance -/
def maxVar (o : MultiOptInstance) : Nat :=
  (o.objectives.map Objective.maxVar).foldl max o.constraints.maxVar

end MultiOptInstance

end MaxSatPrep
