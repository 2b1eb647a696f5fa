import MaxSatPrep.Engine.State
import MaxSatPrep.Weights.SoftMap
import MaxSatPrep.Datum.Convert
import MaxSatPrep.Codec
/-!
Reading a simplified instance back from the engine's table. A row's clause is read literal by
literal until a literal equal to zero, each decoded as a literal. A row is hard iff its weight
equals the top weight under every objective; otherwise it is a soft clause of each objective
under which its weight differs from the top weight, equal clauses of an objective summing their
weights. The list of soft maps ends at the last objective that received a clause.
-/

namespace MaxSatPrep

/-- A simplified instance: hard clauses, soft clauses per objective, the top weight and the
weight removed from each objective. Weights are values as the engine holds them. -/
structure Simplified where
  hards : List (List Lit)
  softs : List (List (List Lit × Datum))
  topWeight : Datum
  removedWeight : List Datum

namespace Simplified

/-- the number of objectives -/
def nObjectives (s : Simplified) : Nat := s.removedWeight.length

/-- the integer of an integer weight; engines that hold only integers have no other -/
def weightInt (d : Datum) : Int := d.asInt?.getD 0

/-- the soft clauses of an objective with integer weights, empty past the last one that has
any -/
def objective (s : Simplified) (i : Nat) : SoftMap :=
  ⟨((s.softs[i]?).getD []).map (fun p => (p.1, weightInt p.2))⟩

end Simplified

/-- a formula of hard clauses and weighted soft clauses, as a single-objective file holds it;
the weights are kept as the values they were given as -/
structure Wcnf where
  hard : List (List Int)
  soft : List (List Int)
  weights : List Datum

/-- Soft clauses whose weights are values of any kind, in first-insertion order: putting a
clause that is present replaces its weight in its first position. -/
def putValue (m : List (List Lit × Datum)) (c : List Lit) (w : Datum) :
    List (List Lit × Datum) :=
  if m.any (fun p => p.1 == c) then m.map (fun p => if p.1 == c then (c, w) else p)
  else m ++ [(c, w)]

/-- The single-objective form of hard clauses and soft maps with weights of any kind: more than
one soft map is refused; the hard clauses come first, then the soft clauses of the first map
whose weight is above zero. A weight that is no number does not compare with zero. -/
def wcnfOf (hards : List (List Lit)) (softs : List (List (List Lit × Datum))) : Outcome Wcnf := do
  if 1 < softs.length then refuse .wcnfSingleObjective else
  let kept ← ((softs.head?).getD []).filterM (fun p => Datum.greater p.2 (.int 0))
  pure { hard := hards.map (fun c => c.map Lit.toInt), soft := kept.map (fun p => p.1.map Lit.toInt),
         weights := kept.map Prod.snd }

/-- the single-objective form of a simplified instance -/
def Simplified.toWcnf (s : Simplified) : Outcome Wcnf := wcnfOf s.hards s.softs

/-- adds a weight value to a clause of soft clauses with weights of any kind, an absent clause
starting from zero -/
def addValue (m : List (List Lit × Datum)) (c : List Lit) (w : Datum) :
    Outcome (List (List Lit × Datum)) := do
  let old := ((m.find? (fun p => p.1 == c)).map Prod.snd).getD (.int 0)
  pure (putValue m c (← Datum.plus old w))

/-- One row split as `classifyRows` splits it, for weights and a top weight of any kind: each
weight in turn is read, and one that is not equal to the top weight is added to the clause's
soft weight under its objective. Also whether the row stays hard. -/
def classifyValueRow (top : Datum) (n : Nat) (c : List Lit) (ws : List Datum)
    (softs : List (List (List Lit × Datum))) : Outcome (List (List (List Lit × Datum)) × Bool) :=
  (List.range n).foldlM (fun (st : List (List (List Lit × Datum)) × Bool) j => do
    let w ← match ws[j]? with
      | some w => pure w
      | none => refuse .indexOutOfRange
    if Datum.numEq w top then pure st
    else
      let softs := st.1 ++ List.replicate (j + 1 - st.1.length) []
      pure (softs.set j (← addValue (softs.getD j []) c w), false)) (softs, true)

/-- Splits rows as `classifyRows` does, with weights, a top weight and an objective count of any
kind: weights equal as numbers are equal, and weights add as values do. The rows are read in
order, so a short row or a sum that fails stops the reading where it stands; each row reads the
objectives up to the count, which must be an integer, and the number of objectives read back is
checked against the count last. -/
def classifyValueRows (rows : List (List Lit × List Datum)) (top : Datum) (nObj : Datum) :
    Outcome (List (List Lit) × List (List (List Lit × Datum))) := do
  let (hards, softs) ← rows.foldlM (fun acc r => do
    let k ← Datum.rangeBound nObj
    let (softs, isHard) ← classifyValueRow top k.toNat r.1 r.2 acc.2
    pure (if isHard then acc.1 ++ [r.1] else acc.1, softs)) ([], [])
  if ← Datum.atMost (.int softs.length) nObj then pure (hards, softs)
  else refuse (.objectivesReadBack softs.length nObj)

namespace Engine

/-- The clause of row `c` as it is read back: literals from the front up to the first that
equals zero, each decoded as a literal, in canonical order. The literals past the row's end read
as zero, so the reading ends. -/
def readClause (e : Engine) (c : Nat) : Outcome (List Lit) := do
  let r ← Datum.itemAt e.rows (.int c)
  let lits ← (r.lits.takeWhile (fun l => !Datum.numEq l (.int 0))).mapM Codec.decodeLit
  pure (canonicalClause lits)

/-- The rows read back with `n` objectives: each row's clause, then its weight under each
objective. -/
def readRows (e : Engine) (n : Datum) : Outcome (List (List Lit × List Datum)) :=
  (List.range e.rows.length).mapM (fun c => do
    let clause ← e.readClause c
    let k ← Datum.rangeBound n
    let ws ← (List.range k.toNat).mapM (fun (o : Nat) => e.preproWeight (.int c) (.int o))
    pure (clause, ws))

/-- The simplified instance read with `n` objectives; an engine reporting a top weight below
one breaks its contract. -/
def extract (e : Engine) (n : Datum) : Outcome Simplified := do
  if ← Datum.less e.top (.int 1) then
    let _ ← Datum.written e.top
    refuse (.reportedTop e.top)
  let rows ← e.readRows n
  let (hards, softs) ← classifyValueRows rows e.top n
  let k ← Datum.rangeBound n
  let removed ← (List.range k.toNat).mapM (fun (o : Nat) => e.removedWeight (.int o))
  pure { hards := hards, softs := softs, topWeight := e.top, removedWeight := removed }

end Engine

end MaxSatPrep
