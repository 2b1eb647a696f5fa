import MaxSatPrep.Instance.Model
/-!
Cardinality constraints as clauses through a sequential counter. For literals `x₁ … xₙ` and a
bound `k`, the counter variable `s(i, j)` says that at least `j` of `x₁ … xᵢ` are true. Only
the counters that can still lead to more than `k` true literals are kept: `1 ≤ i ≤ n - 1` and
`max 1 (k - (n - i) + 1) ≤ j ≤ min i k`. They are numbered above the top variable in the
order the clauses first name them.
Every counter `(i, j)` passes its value on: to `(i + 1, j)` always, and to `(i + 1, j + 1)` when
`xᵢ₊₁` is true, where reaching `k + 1` is a conflict. The clauses go by diagonals `i - j`.

A bound of zero makes every literal false, a bound of `n - 1` is one clause, and a bound of at
least `n` needs nothing. "At least `k`" is "at most `n - k`" of the negated literals; "exactly"
is "at least" and then "at most", the second counter numbered after the first.
-/

namespace MaxSatPrep

namespace Counter

/-- the kept counters, row by row -/
def nodes (n k : Nat) : List (Nat × Nat) :=
  (List.range (n - 1)).flatMap (fun i0 =>
    let i := i0 + 1
    let lo := max 1 (k + i + 1 - n)
    let hi := min i k
    (List.range (hi + 1 - lo)).map (fun t => (i, lo + t)))

/-- a literal of a counter clause before counters are numbered -/
inductive Part where
  /-- one of the counted literals -/
  | input (l : Int)
  /-- a counter, negated or not -/
  | counter (negated : Bool) (p : Nat × Nat)

/-- the counter a part names, if any -/
def Part.node? : Part → Option (Nat × Nat)
  | .input _ => none
  | .counter _ p => some p

/-- The clauses leaving counter `(i, j)`: to `(i + 1, j)`, then through `xᵢ₊₁`; the counters
`(i, 0)` always hold and have no variable. -/
def edges (lits : List Int) (k : Nat) (kept : Nat × Nat → Bool) (i j : Nat) :
    List (List Part) :=
  let here := j ≠ 0
  let held := if here then [Part.counter true (i, j)] else []
  let onFalse := if here ∧ kept (i + 1, j) then
      [[Part.counter true (i, j), Part.counter false (i + 1, j)]] else []
  let x := Part.input (-(lits.getD i 0))
  let onTrue := if k < j + 1 then [[x] ++ held]
    else if kept (i + 1, j + 1) then [[x] ++ held ++ [Part.counter false (i + 1, j + 1)]]
    else []
  onFalse ++ onTrue

/-- The sequential counter for at most `k` of `n` literals, when `0 < k < n - 1`. Counters are
numbered above `top` in the order the clauses first name them. -/
def sequential (lits : List Int) (k top : Nat) : List (List Int) × Nat :=
  let n := lits.length
  let ns := nodes n k
  let kept (p : Nat × Nat) : Bool := ns.contains p
  let parts := (List.range n).flatMap (fun d => (List.range (k + 1)).flatMap (fun j =>
    let i := d + j
    if (j = 0 ∧ i + k + 1 ≤ n) ∨ (j ≠ 0 ∧ kept (i, j)) then edges lits k kept i j else []))
  let order := (parts.flatten.filterMap Part.node?).eraseDups
  let var (p : Nat × Nat) : Int := ((top + 1 + (order.idxOf p) : Nat) : Int)
  let literal : Part → Int
    | .input l => l
    | .counter neg p => if neg then -(var p) else var p
  (parts.map (·.map literal), top + order.length)

/-- at most `k` of the literals are true; the clauses and the new top variable -/
def atMost (lits : List Int) (k top : Nat) : List (List Int) × Nat :=
  let n := lits.length
  if k = 0 then (lits.map (fun l => [-l]), top)
  else if n ≤ k then ([], top)
  else if k + 1 = n then ([lits.map (fun l => -l)], top)
  else sequential lits k top

/-- at least `k` of the literals are true -/
def atLeast (lits : List Int) (k top : Nat) : List (List Int) × Nat :=
  atMost (lits.map (fun l => -l)) (lits.length - k) top

/-- exactly `k` of the literals are true -/
def exactly (lits : List Int) (k top : Nat) : List (List Int) × Nat :=
  let (lower, top) := atLeast lits k top
  let (upper, top) := atMost lits k top
  (lower ++ upper, top)

/-- the clauses of a cardinality constraint above the top variable -/
def encode (c : CardConstraint) (top : Nat) : List (List Int) × Nat :=
  match c.kind with
  | .atMost => atMost c.lits c.bound top
  | .atLeast => atLeast c.lits c.bound top
  | .exactly => exactly c.lits c.bound top

/-- The parts of the clauses of a cardinality constraint above the top variable, in order, each
with the top variable after it: one part, or for exactly `k` the lower bound and then the upper
bound counted on from it. -/
def parts (c : CardConstraint) (top : Nat) : List (List (List Int) × Nat) :=
  match c.kind with
  | .atMost => [atMost c.lits c.bound top]
  | .atLeast => [atLeast c.lits c.bound top]
  | .exactly =>
    let lower := atLeast c.lits c.bound top
    [lower, atMost c.lits c.bound lower.2]

theorem atMost_zero (lits : List Int) (top : Nat) :
    atMost lits 0 top = (lits.map (fun l => [-l]), top) := by
  simp [atMost]

end Counter

end MaxSatPrep
