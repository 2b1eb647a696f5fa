import MaxSatPrep.Encode.VarCounter
import MaxSatPrep.Encode.Counter
import MaxSatPrep.Encode.Linear
import MaxSatPrep.Error
/-!
Instances as clauses. Every constraint is handed to an encoder with the variable counter; an
encoder gives clauses and the counter after its auxiliary variables, or refuses. The counter may
hold any number a request gives it, so a clause's literals are values. The clauses of an instance
are its own clauses, then those of every cardinality constraint, then those of every
pseudo-Boolean constraint. Decomposing a multi-objective instance numbers the auxiliary variables
above the instance's variables and turns a refusal into a validation failure.

The standard encoders settle the trivial bounds themselves and count the others above a top
variable, then take every variable up to the last one counted. The top is the largest magnitude
among the constraint's literals and the counter's largest variable, the literals winning a tie.
It must be an integer. Cardinality encodings number their variables with signed 32-bit
integers: the top must be one, and the variables counted past the largest of them go on from the
smallest, as do their literals and the last variable counted. Pseudo-Boolean encodings take each
literal as a signed 32-bit integer, before its coefficient.
-/

namespace MaxSatPrep

/-- the comparison a pseudo-Boolean relation is written with -/
def PbKind.symbol : PbKind → String
  | .leq => "<="
  | .geq => ">="
  | .equal => "=="

/-- how constraints become clauses -/
structure Encoders where
  card : CardConstraint → VarCounter → Outcome (List (List Datum) × VarCounter)
  pb : PbConstraint → VarCounter → Outcome (List (List Datum) × VarCounter)

/-- a clause of integer literals as values -/
def clauseData (c : List Int) : List Datum := c.map .int

namespace Encoders

/-- the largest signed 32-bit integer -/
def int32Max : Nat := Nat.pow 2 31 - 1

/-- The top variable of an encoding: the largest magnitude among the literals and the counter's
largest variable; a binary64 top is no integer. -/
def topFor (counter : VarCounter) (lits : List Int) : Outcome Nat := do
  let m := maxVarOf lits
  let t ← Datum.magnitude (← counter.maxId)
  if ← Datum.greater t (.int m) then
    match t with
    | .int i => pure i.toNat
    | other => refuse (.notAnInteger other.typeName)
  else pure m

/-- an integer as a signed 32-bit integer, wrapping around past either end -/
def wrap32 (v : Int) : Int :=
  let span : Int := Int.ofNat (Nat.pow 2 32)
  let half : Int := Int.ofNat (Nat.pow 2 31)
  Int.emod (v + half) span - half

/-- the top variable of a cardinality encoding, which must be a signed 32-bit integer -/
def cardTopFor (counter : VarCounter) (lits : List Int) : Outcome Nat := do
  let t ← topFor counter lits
  if int32Max < t then refuse .signedOverflow else pure t

/-- an encoding counted above the top variable, the counter then taking every variable up to
the last one counted -/
def counted (counter : VarCounter) (top : Nat) (encode : Nat → List (List Int) × Nat) :
    Outcome (List (List Datum) × VarCounter) := do
  let (clauses, last) := encode top
  pure (clauses.map clauseData, ← counter.reserveUpTo (.int last))

/-- A cardinality encoding counted in signed 32-bit integers from its parts: the literals wrap
around, and the counter then takes every variable up to the largest of the parts' last
variables, each wrapped around too. -/
def countedWrapping (counter : VarCounter) (ps : List (List (List Int) × Nat)) :
    Outcome (List (List Datum) × VarCounter) := do
  let clauses := ps.flatMap Prod.fst
  let last := match ps.map (fun p => wrap32 p.2) with
    | [] => 0
    | t :: ts => ts.foldl max t
  pure (clauses.map (fun c => clauseData (c.map wrap32)), ← counter.reserveUpTo (.int last))

/-- the standard cardinality encoding: trivial bounds directly, the others counted -/
def standardCard (c : CardConstraint) (counter : VarCounter) :
    Outcome (List (List Datum) × VarCounter) :=
  let n := c.lits.length
  let k := c.bound
  let negated := c.lits.map (fun l => [Datum.int (-l)])
  let count := do countedWrapping counter (Counter.parts c (← cardTopFor counter c.lits))
  match c.kind with
  | .atMost =>
    if n ≤ k then .ok ([], counter)
    else if k = 0 then .ok (negated, counter)
    else count
  | .atLeast =>
    if k = 0 then .ok ([], counter)
    else if n < k then .ok ([[]], counter)
    else count
  | .exactly =>
    if n < k then .ok ([[]], counter)
    else if k = 0 then .ok (negated, counter)
    else count

/-- the largest signed 64-bit integer -/
def int64Max : Int := Int.ofNat (Nat.pow 2 63) - 1

/-- whether an integer is a signed 64-bit integer -/
def fitsInt64 (v : Int) : Bool := -(int64Max + 1) ≤ v && v ≤ int64Max

/-- The terms of a pseudo-Boolean sum checked in order: each literal must be a signed 32-bit
integer, then its coefficient a signed 64-bit integer. -/
def termsFit : List (Int × Int) → Outcome Unit
  | [] => .ok ()
  | (l, w) :: ts =>
    if (int32Max : Int) < l then refuse (.literalOutOfRange true)
    else if l < -((int32Max : Int) + 1) then refuse (.literalOutOfRange false)
    else if !fitsInt64 w then refuse (.unsupportedOperands "*" "int" "pindakaas.Lit")
    else termsFit ts

/-- The standard pseudo-Boolean encoding: a bound below zero is refused, no literals need
nothing, and literals must be signed 32-bit integers and coefficients and bound signed 64-bit
integers; the rest is counted. A bound beyond 64 bits cannot be ordered against the sum, and for
equality the comparison gives a truth value, which is no constraint. -/
def standardPb (c : PbConstraint) (counter : VarCounter) :
    Outcome (List (List Datum) × VarCounter) :=
  if c.bound < 0 then refuse (.wrongBound c.bound)
  else if c.lits.isEmpty then .ok ([], counter)
  else if let .error f := termsFit (c.lits.zip c.weights) then .error f
  else if int64Max < c.bound then
    if c.kind = .equal then refuse .notAConstraint
    else refuse (.unorderable c.kind.symbol "pindakaas.LinExp" "int")
  else do counted counter (← topFor counter c.lits) (Linear.encode c)

/-- the standard encoders -/
def standard : Encoders := ⟨standardCard, standardPb⟩

end Encoders

/-- the encodings of a list of constraints in order, threading the counter -/
def encodeAll {α : Type} (encode : α → VarCounter → Outcome (List (List Datum) × VarCounter))
    (cs : List α) (counter : VarCounter) : Outcome (List (List Datum) × VarCounter) :=
  cs.foldlM (fun acc c => do
    let (clauses, counter) ← encode c acc.2
    pure (acc.1 ++ clauses, counter)) ([], counter)

namespace SatInstance

/-- the instance's clauses, then those of its cardinality and pseudo-Boolean constraints -/
def asCnf (s : SatInstance) (enc : Encoders) (counter : VarCounter) :
    Outcome (List (List Datum) × VarCounter) := do
  let (cards, counter) ← encodeAll enc.card s.cards counter
  let (pbs, counter) ← encodeAll enc.pb s.pbs counter
  pure (s.clauses.map clauseData ++ cards ++ pbs, counter)

end SatInstance

/-- an instance split into hard clauses, the soft clauses of each objective, and the offsets -/
structure Decomposed where
  hards : List (List Datum)
  softs : List SoftMap
  offsets : List Int

namespace MultiOptInstance

/-- Splits the instance; auxiliary variables are numbered above the instance's variables, and
an encoding refused as a bad value fails validation. -/
def decompose (inst : MultiOptInstance) (enc : Encoders) : Outcome Decomposed := do
  let (hards, _) ← (inst.constraints.asCnf enc ⟨.int ((inst.maxVar + 1 : Nat) : Int)⟩).mapError
    (fun f => if f.kind = .value then ⟨.validation, .encodeFailed f.cause⟩ else f)
  pure { hards := hards, softs := inst.objectives.map Objective.softClauses,
         offsets := inst.objectives.map Objective.offset }

end MultiOptInstance

end MaxSatPrep
