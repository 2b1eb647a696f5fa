import MaxSatPrep.Clause
import MaxSatPrep.Weights.SoftMap
import MaxSatPrep.Datum.Sequence
/-!
Weight tables. An objective arrives as a mapping from clauses to weights or as a value whose
items are (clause, weight) pairs, each unpacked in turn; each weight must be a natural number
(booleans are refused) and each clause is put in canonical order, item by item. The top weight is one
more than the sum of all weights of all objectives and must fit into 64 bits; a hard clause
carries it in every column. The weight rows hold one row per (objective, pair), with the weight
in the objective's column and zero elsewhere.
-/

namespace MaxSatPrep

namespace Weights

/-- the largest 64-bit weight -/
def u64Max : Nat := Nat.pow 2 64 - 1

/-- the weight of a pair: a natural number that is not a boolean -/
def softWeight (d : Datum) : Outcome Nat :=
  match d with
  | .int n => if 0 ≤ n then .ok n.toNat else refuse (.badSoftWeight d)
  | _ => refuse (.badSoftWeight d)

/-- An objective as it is handed over: the (clause, weight) items of a mapping, or a value
whose items are unpacked into a clause and a weight. -/
inductive SoftClauses where
  | mapping (pairs : List (Datum × Datum))
  | items (d : Datum)

/-- one (clause, weight) pair, the weight checked before the clause is read -/
def softPair (clause weight : Datum) : Outcome (List Lit × Nat) := do
  let w ← softWeight weight
  let c ← clauseOf clause
  pure (c, w)

/-- the pairs of one objective, each item unpacked and checked before the next -/
def softPairs : SoftClauses → Outcome (List (List Lit × Nat))
  | .mapping ps => ps.mapM (fun p => softPair p.1 p.2)
  | .items d => do
    let xs ← d.iterate
    xs.mapM (fun x => do
      let (c, w) ← Datum.unpackPair x
      softPair c w)

/-- A clause as a mapping key: a list is kept as its elements, which must be keys themselves;
an object is no key; any other value is its own key. -/
def keyOf (d : Datum) : Outcome Datum :=
  match d with
  | .list xs =>
    match xs.find? (fun x => match x with | .list _ | .obj _ => true | _ => false) with
    | some x => refuse (.unhashable x.typeName)
    | none => .ok d
  | .obj _ => refuse (.unhashable "dict")
  | _ => .ok d

/-- The pairs of a mapping written as pairs: a later pair whose clause equals an earlier one,
element by element as mapping keys compare, replaces its weight and keeps the earlier clause
and position. -/
def mappingPairs (ps : List (Datum × Datum)) : Outcome (List (Datum × Datum)) :=
  ps.foldlM (fun acc p => do
    let key ← keyOf p.1
    if acc.any (fun q => Datum.memberEq q.1 key) then
      pure (acc.map (fun q => if Datum.memberEq q.1 key then (q.1, p.2) else q))
    else pure (acc ++ [(key, p.2)])) []

/-- one more than the sum of all weights; refused beyond 64 bits -/
def topWeight (objs : List (List (List Lit × Nat))) : Outcome Nat :=
  let top := 1 + (objs.map (fun ps => (ps.map Prod.snd).foldl (· + ·) 0)).foldl (· + ·) 0
  if u64Max < top then refuse (.topWeightTooLarge top) else .ok top

/-- the weight rows: a row per (objective, pair), the weight in the objective's column -/
def weightRows (objs : List (List (List Lit × Nat))) : List (List Lit × List Nat) :=
  let n := objs.length
  (objs.zipIdx.map (fun p => p.1.map (fun cw =>
    (cw.1, (List.range n).map (fun j => if j = p.2 then cw.2 else 0))))).flatten

end Weights

end MaxSatPrep
