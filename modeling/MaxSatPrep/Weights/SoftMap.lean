import MaxSatPrep.Literal
/-!
Soft clause maps: the soft clauses of one objective, each clause once with its weight, in the
order clauses were first added. Adding a clause again sums its weights (`add`); putting it again
replaces the weight (`put`); either way it keeps its first position.
-/

namespace MaxSatPrep

/-- the soft clauses of one objective with their weights, in first-insertion order -/
structure SoftMap where
  entries : List (List Lit × Int)
  deriving DecidableEq

namespace SoftMap

/-- no soft clause -/
def empty : SoftMap := ⟨[]⟩

/-- the weight of a clause, if present -/
def get? (m : SoftMap) (c : List Lit) : Option Int :=
  (m.entries.find? (fun p => p.1 == c)).map Prod.snd

/-- adds a weight to a clause, appending the clause when absent -/
def add (m : SoftMap) (c : List Lit) (w : Int) : SoftMap :=
  if m.entries.any (fun p => p.1 == c) then
    ⟨m.entries.map (fun p => if p.1 == c then (c, p.2 + w) else p)⟩
  else ⟨m.entries ++ [(c, w)]⟩

/-- sets the weight of a clause, appending the clause when absent -/
def put (m : SoftMap) (c : List Lit) (w : Int) : SoftMap :=
  if m.entries.any (fun p => p.1 == c) then
    ⟨m.entries.map (fun p => if p.1 == c then (c, w) else p)⟩
  else ⟨m.entries ++ [(c, w)]⟩

/-- the map summing the weights of equal clauses of a list of pairs -/
def ofPairs (ps : List (List Lit × Int)) : SoftMap := ps.foldl (fun m p => m.add p.1 p.2) empty

/-- the clauses, in order -/
def clauses (m : SoftMap) : List (List Lit) := m.entries.map Prod.fst

theorem get?_empty (c : List Lit) : empty.get? c = none := rfl

end SoftMap

end MaxSatPrep
