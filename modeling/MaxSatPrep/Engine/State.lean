import MaxSatPrep.Datum.Sequence
/-!
The state of the preprocessing engine. The formula is a table of rows: a hard row is a clause
that must hold, a soft row carries one weight per objective, and a label is a soft row of one
literal that was marked when the instance was finalized or added later. Beside the table the
engine keeps the fixed literals, the weight removed from each objective, and a trace of fixings
and blocked-clause eliminations that reconstruction replays.

The engine keeps the values it is given as they are: literals, weights, the top weight, the
objective count and positions may be values of any kind, and every operation on them is the
language's own (magnitude, negation, sums, comparisons, list positions), failing where that
fails. A call that fails keeps every change it made before the failure (`EngineM`).
-/

namespace MaxSatPrep

/-- a row of the clause table: literals and, for a soft row, one weight per objective -/
structure Row where
  lits : List Datum
  weights : Option (List Datum)
  label : Bool := false

namespace Row

/-- a row without weights must hold -/
def hard (r : Row) : Bool := r.weights.isNone

/-- the size of a row in the termination measure: its literals and one -/
def measure (r : Row) : Nat := r.lits.length + 1

end Row

/-- an event of the reconstruction trace -/
inductive Event where
  /-- a literal fixed true -/
  | fix (lit : Datum)
  /-- a clause eliminated as blocked on a literal of it -/
  | blocked (clause : List Datum) (blocking : Datum)

/-- one run of one technique, as the technique log keeps it -/
structure TechniqueRun where
  technique : String
  changed : Bool
  clausesBefore : Nat
  clausesAfter : Nat
  fixedAfter : Nat
  deriving DecidableEq

/-- the value of an engine option -/
inductive OptionValue where
  | flag (b : Bool)
  | count (n : Int)
  deriving DecidableEq

/-- The state of one engine instance. `sharing` lists the rows whose literal and weight lists
are still the lists the stream fills: a row whose closing failed keeps them, so it grows with
the stream until a row closes cleanly. -/
structure Engine where
  top : Datum
  inprocessing : Bool
  finalized : Bool := false
  preprocessed : Bool := false
  nObj : Datum
  maxVar : Datum := .int 0
  rows : List Row := []
  fixed : List Datum := []
  removed : List Datum := []
  trace : List Event := []
  pendingLits : List Datum := []
  pendingWeights : List Datum := []
  sharing : List Nat := []
  addBuffer : List Datum := []
  assignment : List Datum := []
  reconstructed : List (Datum × Bool) := []
  options : List (String × OptionValue) := []
  idle : List (String × Nat) := []
  log : List TechniqueRun := []
  info : List String := []

/-- A call on the engine. It ends with an answer or a failure; either way the engine keeps
every change made before the end. -/
abbrev EngineM := ExceptT Failure (StateM Engine)

namespace EngineM

/-- the answer or failure of a computation that leaves the engine alone -/
def lift {α : Type} (o : Outcome α) : EngineM α :=
  match o with
  | .ok a => pure a
  | .error f => throw f

/-- runs a call on an engine: its answer or failure, and the engine afterwards -/
def run {α : Type} (m : EngineM α) (e : Engine) : Outcome α × Engine :=
  (ExceptT.run m).run e

end EngineM

namespace Engine

/-- the largest value a 64-bit weight can take -/
def u64Max : Int := Int.ofNat (Nat.pow 2 64) - 1

/-- a fresh engine instance with a top weight, an inprocessing flag and an objective count -/
def start (top : Datum) (inprocessing : Bool) (nObj : Datum) : Engine :=
  { top := top, inprocessing := inprocessing, nObj := nObj }

/-- rows may be added and reweighted: finalized, and inprocessing or not yet preprocessed -/
def mutable (e : Engine) : Bool := e.finalized && (e.inprocessing || !e.preprocessed)

/-- the first literals of the label rows, in row order; a label row without literals has none -/
def labelsOf : List Row → Outcome (List Datum)
  | [] => .ok []
  | r :: rs =>
    if r.label then
      match r.lits with
      | l :: _ => do pure (l :: (← labelsOf rs))
      | [] => refuse .indexOutOfRange
    else labelsOf rs

/-- the label literals, in row order -/
def labels (e : Engine) : Outcome (List Datum) := labelsOf e.rows

/-- the position of the first label row whose first literal equals `label`, counting from `i` -/
def labelIndex (label : Datum) : List Row → Nat → Outcome (Option Nat)
  | [], _ => .ok none
  | r :: rs, i =>
    if r.label then
      match r.lits with
      | l :: _ => if Datum.numEq l label then .ok (some i) else labelIndex label rs (i + 1)
      | [] => refuse .indexOutOfRange
    else labelIndex label rs (i + 1)

/-- the position of the first label row of a label -/
def labelRow? (e : Engine) (label : Datum) : Outcome (Option Nat) := labelIndex label e.rows 0

/-- the termination measure: each row's literals and one -/
def measure (e : Engine) : Nat := (e.rows.map Row.measure).foldl (· + ·) 0

/-- the literal at position `i` of row `c`, zero past the row's end -/
def preproLit (e : Engine) (c i : Datum) : Outcome Datum := do
  let r ← Datum.itemAt e.rows c
  Datum.itemOr r.lits i (.int 0)

/-- the weight of row `c` under objective `o`: the top weight for a hard row, zero past the
row's weights -/
def preproWeight (e : Engine) (c o : Datum) : Outcome Datum := do
  let r ← Datum.itemAt e.rows c
  match r.weights with
  | none => pure e.top
  | some ws => Datum.itemOr ws o (.int 0)

/-- the label at a position -/
def preproLabel (e : Engine) (i : Datum) : Outcome Datum := do
  Datum.itemAt (← e.labels) i

/-- the fixed literal at a position -/
def preproFixedLit (e : Engine) (i : Datum) : Outcome Datum := Datum.itemAt e.fixed i

/-- the weight removed from objective `o`, zero past the objectives -/
def removedWeight (e : Engine) (o : Datum) : Outcome Datum := Datum.itemOr e.removed o (.int 0)

/-- the sum of values, from zero -/
def sumOf (ds : List Datum) : Outcome Datum := ds.foldlM Datum.plus (.int 0)

/-- the value of an option, if set -/
def option? (e : Engine) (name : String) : Option OptionValue :=
  (e.options.find? (fun p => p.1 == name)).map Prod.snd

/-- the number of consecutive runs of a technique that changed nothing -/
def idleRuns (e : Engine) (t : String) : Nat :=
  ((e.idle.find? (fun p => p.1 == t)).map Prod.snd).getD 0

/-- sets the idle count of a technique -/
def setIdle (e : Engine) (t : String) (n : Nat) : Engine :=
  if e.idle.any (fun p => p.1 == t) then
    { e with idle := e.idle.map (fun p => if p.1 == t then (t, n) else p) }
  else { e with idle := e.idle ++ [(t, n)] }

end Engine

end MaxSatPrep
