import MaxSatPrep.Instance.Model
/-!
Sums of weighted literals in unary, and the totalizer that compares such a sum with a bound `k`.

A tally is a number given in unary by literals: for each of its possible positive values `v`
the literal "the tally is at least `v`". A term `c·ℓ` is the tally `{c}` of its literal. Tallies
are added pairwise, layer by layer (an odd last one moves up unchanged), until two remain;
those two are compared with `k`. With three terms or more the terms are first put in increasing
order of coefficient, equal ones keeping their order.

The sum of two tallies takes the values of sums up to `k`, numbered above the top variable. For
every value `a` of the first part the values `b` of the second go up in order: each pair gives
the sum at least `a + b`, and the first pair beyond `k` is a conflict that ends the row. For
equality the parts also bound the sum from above, through their complements.

At the root, `x + y ≤ k` needs only the least conflicts: for each value `a` of `x` the least `b`
with `a + b > k`, unless a smaller `a` already has it. For `x + y = k` each part is first bounded
from below by what the other can at most give, each such bound a unit clause. Then come the least
conflicts of `x + y ≤ k` and those of the complements, `x' + y' ≤ uₓ + u_y - k`, over the values
from those bounds up; upper bounds of the parts appear among these conflicts.
-/

namespace MaxSatPrep

/-- a number in unary: its positive values in increasing order, each with the literal saying
the number is at least that value -/
structure Tally where
  steps : List (Nat × Int)

namespace Tally

/-- the tally of one literal with a coefficient -/
def single (lit : Int) (c : Nat) : Tally := ⟨[(c, lit)]⟩

/-- the values, zero first -/
def values (t : Tally) : List Nat := 0 :: t.steps.map Prod.fst

/-- the largest value -/
def upper (t : Tally) : Nat := (t.steps.map Prod.fst).foldl max 0

/-- the literal "at least `v`", if `v` is a positive value -/
def atLeast? (t : Tally) (v : Nat) : Option Int :=
  (t.steps.find? (fun s => s.1 == v)).map Prod.snd

/-- the literals of a clause part "not at least `v`": none for zero -/
def notAtLeast (t : Tally) (v : Nat) : List Int := ((t.atLeast? v).map (fun l => [-l])).getD []

/-- the literal "at least the first value above `m`", if there is one -/
def above? (t : Tally) (m : Nat) : Option Int :=
  (t.steps.find? (fun s => m < s.1)).map Prod.snd

/-- The complement `upper - t`: its value `u - v` holds when `t` is at most `v`, that is when
`t` is not at least the next value. -/
def flip (t : Tally) : Tally :=
  let u := t.upper
  ⟨(t.values.reverse.filterMap (fun v =>
    if v < u then (t.above? v).map (fun l => (u - v, -l)) else none))⟩

end Tally

/-- The values a tally can still take, in increasing order, each with the literal saying the
tally is at least that value; the least value is known to hold and has none. -/
structure Range where
  steps : List (Nat × Option Int)

namespace Range

/-- the values of a tally from `lo` to `hi` -/
def within (t : Tally) (lo hi : Nat) : Range :=
  ⟨(t.values.filter (fun v => lo ≤ v ∧ v ≤ hi)).map
    (fun v => (v, if v ≤ lo then none else t.atLeast? v))⟩

/-- the largest value -/
def upper (r : Range) : Nat := (r.steps.map Prod.fst).foldl max 0

/-- The complement `u - r` for the largest value `u`: its value `u - vᵢ` holds when `r` is at
most `vᵢ`, that is when `r` is not at least `vᵢ₊₁`. -/
def flip (r : Range) : Range :=
  let u := r.upper
  let inner := (r.steps.zip r.steps.tail).map (fun p => (u - p.1.1, p.2.2.map (fun l => -l)))
  ⟨(0, none) :: inner.reverse⟩

/-- the clause part "not at least", empty when the value is known to hold -/
def refute (s : Nat × Option Int) : List Int := (s.2.map (fun l => -l)).toList

end Range

namespace Totalizer

/-- the distinct values in increasing order -/
def ascending (vs : List Nat) : List Nat := (vs.mergeSort (· ≤ ·)).eraseDups

/-- The clauses giving `z` at least `a + b` for one value `a` of `x` and the values `b` of `y`
in increasing order; the first pair beyond `k` is a conflict and ends the row. -/
def upwardRow (x y z : Tally) (k a : Nat) : List Nat → List (List Int)
  | [] => []
  | b :: bs =>
    if a = 0 ∧ b = 0 then upwardRow x y z k a bs
    else if k < a + b then [x.notAtLeast a ++ y.notAtLeast b]
    else (x.notAtLeast a ++ y.notAtLeast b ++ (z.atLeast? (a + b)).toList) ::
      upwardRow x y z k a bs

/-- the clauses bounding `z` from below by `x + y`, row by row -/
def upward (x y z : Tally) (k : Nat) : List (List Int) :=
  x.values.flatMap (fun a => upwardRow x y z k a y.values)

/-- The clauses bounding `z` from above by `x + y`, through the complements of the parts:
`x` at most `uₓ - a` and `y` at most `u_y - b` give `z` at most `uₓ + u_y - a - b`. -/
def downward (x y z : Tally) : List (List Int) :=
  let x' := x.flip
  let y' := y.flip
  let u := x.upper + y.upper
  x'.values.flatMap (fun a => y'.values.filterMap (fun b =>
    if a = 0 ∧ b = 0 then none
    else (z.above? (u - (a + b))).map (fun l => x'.notAtLeast a ++ y'.notAtLeast b ++ [-l])))

/-- The sum of two tallies, with values up to `k`, numbered from `top + 1`; its clauses are the
order of its literals, then the lower bounds, then for equality the upper bounds. -/
def add (x y : Tally) (k top : Nat) (exact : Bool) : Tally × List (List Int) × Nat :=
  let sums := ascending ((x.values.flatMap (fun a => y.values.map (a + ·))).filter
    (fun s => 0 < s ∧ s ≤ k))
  let z : Tally := ⟨sums.zipIdx.map (fun p => (p.1, ((top + 1 + p.2 : Nat) : Int)))⟩
  let order := (z.steps.zip z.steps.tail).map (fun p => [-p.2.2, p.1.2])
  let clauses := order ++ upward x y z k ++ (if exact then downward x y z else [])
  (z, clauses, top + sums.length)

/-- The least conflicts of `x + y ≤ k`: for each value `a` of `x` in increasing order the least
value `b` of `y` with `a + b > k`, unless the previous `a` had the same `b`. A smaller `a` with
the same `b` makes the clause of a larger one redundant. -/
def staircase (x y : Range) (k : Nat) : List (List Int) :=
  (x.steps.foldl (fun (acc : List (List Int) × Option Nat) s =>
    match y.steps.find? (fun t => k < s.1 + t.1) with
    | none => acc
    | some t =>
      if acc.2 = some t.1 then acc
      else (acc.1 ++ [Range.refute s ++ Range.refute t], some t.1)) ([], none)).1

/-- The clauses comparing `x + y` with `k`: at most, or exactly; none when equality has no
solution. For equality each part is first bounded from below by what the other can at most
give, `x ≥ k - u_y` and `y ≥ k - uₓ`, each bound that moves a unit clause. The least conflicts
then run over the values from those bounds up, and a conflict of two values known to hold is an
empty clause: no solution. -/
def root (x y : Tally) (k : Nat) (exact : Bool) : Option (List (List Int)) :=
  if exact then do
    let lx ← x.values.find? (fun v => k ≤ v + y.upper)
    let ly ← y.values.find? (fun v => k ≤ v + x.upper)
    let units := ((x.atLeast? lx).toList ++ (y.atLeast? ly).toList).map (fun l => [l])
    let rx := Range.within x lx x.upper
    let ry := Range.within y ly y.upper
    let below := staircase rx ry k
    let above := staircase rx.flip ry.flip (x.upper + y.upper - k)
    if (below ++ above).any List.isEmpty then none else some (units ++ below ++ above)
  else some (staircase (Range.within x 0 x.upper) (Range.within y 0 y.upper) k)

/-- one layer: neighbours added pairwise, an odd last tally kept -/
def layer (k : Nat) (exact : Bool) : List Tally → Nat → List Tally × List (List Int) × Nat
  | x :: y :: rest, top =>
    let (z, cs, top) := add x y k top exact
    let (zs, ds, top) := layer k exact rest top
    (z :: zs, cs ++ ds, top)
  | ts, top => (ts, [], top)

/-- Adds layer after layer until two tallies remain, then compares them with `k`; `fuel`
bounds the number of layers. None when equality has no solution; the top variable counts every
sum numbered on the way. -/
def tree (k : Nat) (exact : Bool) : Nat → List Tally → Nat → Option (List (List Int)) × Nat
  | _, [x, y], top => (root x y k exact, top)
  | fuel + 1, ts@(_ :: _ :: _ :: _), top =>
    let (next, cs, top) := layer k exact ts top
    let (rest, top) := tree k exact fuel next top
    (rest.map (cs ++ ·), top)
  | _, _, top => (some [], top)

/-- The totalizer of terms `(ℓ, c)` against `k`, at most or exactly, numbered above `top`. With
three terms or more they go in increasing order of coefficient. -/
def count (terms : List (Int × Nat)) (k : Nat) (exact : Bool) (top : Nat) :
    Option (List (List Int)) × Nat :=
  let leaves := if 3 ≤ terms.length then terms.mergeSort (fun s t => s.2 ≤ t.2) else terms
  tree k exact terms.length (leaves.map (fun t => Tally.single t.1 t.2)) top

end Totalizer

end MaxSatPrep
