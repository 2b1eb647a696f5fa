import MaxSatPrep.Instance.Model
/-!
At most one, or exactly one, of a list of literals. Up to six literals every two are excluded
together, and for exactly one the literals also form a clause. More literals are laid out row by
row in a grid `p` wide, `p` the least number with `p² ≥ n`: each literal implies its row and its
column, each row and column implies one of its literals, and the rows and the columns are
themselves constrained the same way, at most one or exactly one. The rows are numbered above the
top variable, then the columns; the columns' own clauses come before the rows'.

For exactly one a grid needs no clause over the literals: a chosen row and a chosen column each
hold a literal of theirs, and that literal's own row and column are the chosen ones.
-/

namespace MaxSatPrep

namespace AtMostOne

/-- every two of the literals are not both true -/
def pairwise : List Int → List (List Int)
  | [] => []
  | l :: rest => rest.map (fun m => [-l, -m]) ++ pairwise rest

/-- the least `p` with `p * p ≥ n` -/
def side (n : Nat) : Nat := ((List.range (n + 1)).find? (fun p => n ≤ p * p)).getD n

/-- the variables `top + 1, …, top + n` -/
def fresh (top n : Nat) : List Int := (List.range n).map (fun i => ((top + 1 + i : Nat) : Int))

/-- the clauses for at most one of the literals, or exactly one when `exact`, above `top`, and
the new top; `fuel` bounds the nesting of grids -/
def encode (exact : Bool) : Nat → List Int → Nat → List (List Int) × Nat
  | 0, lits, top => ((if exact then [lits] else []) ++ pairwise lits, top)
  | fuel + 1, lits, top =>
    let n := lits.length
    if n ≤ 6 then ((if exact then [lits] else []) ++ pairwise lits, top)
    else
      let p := side n
      let rows := (n + p - 1) / p
      let rowVars := fresh top rows
      let colVars := fresh (top + rows) p
      let placed := lits.zipIdx
      let links := placed.flatMap (fun q =>
        [[-q.1, rowVars.getD (q.2 / p) 0], [-q.1, colVars.getD (q.2 % p) 0]])
      let rowSupport := (List.range rows).map (fun r =>
        -(rowVars.getD r 0) :: (placed.filter (fun q => q.2 / p = r)).map Prod.fst)
      let colSupport := (List.range p).map (fun c =>
        -(colVars.getD c 0) :: (placed.filter (fun q => q.2 % p = c)).map Prod.fst)
      let (colClauses, top) := encode exact fuel colVars (top + rows + p)
      let (rowClauses, top) := encode exact fuel rowVars top
      (links ++ rowSupport ++ colSupport ++ colClauses ++ rowClauses, top)

theorem encode_small (exact : Bool) (fuel : Nat) (lits : List Int) (top : Nat)
    (h : lits.length ≤ 6) :
    encode exact fuel lits top = ((if exact then [lits] else []) ++ pairwise lits, top) := by
  cases fuel with
  | zero => rfl
  | succ f => simp [encode, h]

end AtMostOne

end MaxSatPrep
