import MaxSatPrep.Clause
/-!
Partial assignments: a truth value for some variables, kept sorted by variable with one entry
each. Building one from literals refuses a literal whose variable already has the other value.
Every view (the model, its size, its largest variable, equality) is by variable, so the sorted
list is the whole state.
-/

namespace MaxSatPrep

/-- a partial assignment: truth values of variables, sorted by variable, one entry each -/
structure Assignment where
  values : List (Nat × Bool)
  deriving DecidableEq

namespace Assignment

/-- no variable assigned -/
def empty : Assignment := ⟨[]⟩

/-- the value of a variable, if assigned -/
def value? (a : Assignment) (v : Nat) : Option Bool :=
  (a.values.find? (fun p => p.1 == v)).map Prod.snd

/-- puts a variable's value into a sorted entry list, replacing an entry of the variable -/
def insertSorted (v : Nat) (b : Bool) : List (Nat × Bool) → List (Nat × Bool)
  | [] => [(v, b)]
  | (w, c) :: rest =>
    if v < w then (v, b) :: (w, c) :: rest
    else if v = w then (v, b) :: rest
    else (w, c) :: insertSorted v b rest

/-- assigns a literal true; refuses a variable that has the other value -/
def assign (a : Assignment) (l : Lit) : Outcome Assignment :=
  let b := !l.negated
  match a.value? l.var with
  | some c => if c = b then .ok a else refuse (.conflictingValues l.var)
  | none => .ok ⟨insertSorted l.var b a.values⟩

/-- the assignment of literals, in order -/
def ofLits (ls : List Lit) : Outcome Assignment :=
  ls.foldlM assign empty

/-- the assignment of literal values, each read as a literal first -/
def ofDatums (ds : List Datum) : Outcome Assignment :=
  ds.foldlM (fun a d => do assign a (← Lit.ofDatum d)) empty

/-- the assignment of a solver model: entries equal to zero are skipped -/
def ofModel (ds : List Datum) : Outcome Assignment :=
  ofDatums (ds.filter (fun d => !Datum.numEq d (.int 0)))

/-- the assignment of the literals an iterable value yields -/
def ofIterable (d : Datum) : Outcome Assignment := do
  ofDatums (← d.iterate)

/-- the assignment of a solver model given as one value: a value that is not truthy is the
empty model, any other is iterated with its zeros skipped -/
def ofModelValue (d : Datum) : Outcome Assignment :=
  if d.truthy then do ofModel (← d.iterate) else .ok empty

/-- the truth of a literal, if its variable is assigned -/
def litValue? (a : Assignment) (l : Lit) : Option Bool :=
  (a.value? l.var).map (fun b => b != l.negated)

/-- the literal made true by each assigned variable, by variable -/
def lits (a : Assignment) : List Lit :=
  a.values.filterMap (fun p => if h : 0 < p.1 then some ⟨p.1, !p.2, h⟩ else none)

/-- the number of assigned variables -/
def size (a : Assignment) : Nat := a.values.length

/-- the largest assigned variable, zero when none is -/
def maxVar (a : Assignment) : Nat := a.values.foldl (fun m p => max m p.1) 0

/-- every variable from 1 to `n` is assigned -/
def isTotal (a : Assignment) (n : Int) : Bool :=
  (List.range n.toNat).all (fun i => (a.value? (i + 1)).isSome)

/-- Some literal of a clause is true. The clause's values are read as literals one by one, up
to the first true one. -/
def satisfies (a : Assignment) : List Datum → Outcome Bool
  | [] => .ok false
  | d :: ds => do
    let l ← Lit.ofDatum d
    if a.litValue? l = some true then pure true else satisfies a ds

/-- the text of an assignment in messages: `Assignment([x1, ~x2])` -/
def name (a : Assignment) : String := "Assignment(" ++ Lit.listName a.lits ++ ")"

theorem value?_empty (v : Nat) : empty.value? v = none := rfl

end Assignment

end MaxSatPrep
