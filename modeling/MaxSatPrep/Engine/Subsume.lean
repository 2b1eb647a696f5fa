import MaxSatPrep.Engine.State
/-!
Subsumption by hard rows. Hard rows are taken by the size of their literal set, then by
position; each one that is still present removes every other present row, hard or soft, whose
literal set contains its own. Literal sets are sets of values, so every literal must be able to
be a set member; a list or object literal stops subsumption before anything is removed. The
result reports whether a row was removed.
-/

namespace MaxSatPrep

namespace Engine

/-- the literal set of a row contains that of another -/
def subsetOf (a b : List Datum) : Bool := a.all (fun l => Datum.memberOf l b)

/-- the distinct values of a list, as a set holds them -/
def distinct : List Datum → List Datum
  | [] => []
  | x :: xs => let rest := distinct xs; if Datum.memberOf x rest then rest else x :: rest

/-- the number of distinct literals of a row -/
def distinctCount (ls : List Datum) : Nat := (distinct ls).length

/-- the positions removed by the hard row at position `i`, added to those removed so far -/
def removeSupersets (rows : List Row) (i : Nat) (gone : List Nat) : List Nat :=
  if gone.contains i then gone
  else match rows[i]? with
    | none => gone
    | some ri =>
      (List.range rows.length).foldl (fun acc j =>
        if j != i && !acc.contains j && (rows[j]?.map (fun rj => subsetOf ri.lits rj.lits)).getD false
        then acc ++ [j] else acc) gone

/-- the positions of hard rows, by literal-set size and then position -/
def hardOrder (rows : List Row) : List Nat :=
  let hard := (List.range rows.length).filter (fun i => (rows[i]?.map Row.hard).getD false)
  hard.mergeSort (fun i j =>
    (rows[i]?.map (fun r => distinctCount r.lits)).getD 0 ≤
      (rows[j]?.map (fun r => distinctCount r.lits)).getD 0)

/-- removes every row subsumed by a present hard row -/
def subsume : EngineM Bool := do
  let e ← get
  e.rows.forM (fun r => do
    let _ ← EngineM.lift (r.lits.mapM Datum.hashable)
    pure ())
  let gone := (hardOrder e.rows).foldl (fun acc i => removeSupersets e.rows i acc) []
  if gone.isEmpty then pure false
  else
    set { e with rows := (e.rows.zipIdx.filter (fun (p : Row × Nat) => !gone.contains p.2)).map Prod.fst }
    pure true

end Engine

end MaxSatPrep
