import MaxSatPrep.Encode.Totalizer
import MaxSatPrep.Encode.AtMostOne
/-!
Pseudo-Boolean constraints as clauses. The constraint is first brought to the form
`Σ cᵢ·ℓᵢ ≤ k` (or `= k`) with positive coefficients over distinct variables, taken in variable
order: occurrences of one variable are summed, "at least" is negated, and a negative coefficient
moves to the negated literal. This arithmetic is on signed 64-bit words and wraps around, so a
sum past the largest word turns negative. A literal whose coefficient alone exceeds `k` is made
false. What remains is trivial, impossible, a cardinality constraint, or counted by a totalizer.
Exactly `k` also needs the greatest common divisor of the coefficients to divide `k`.

When the remaining coefficients are all `w`, at most `k` is at most `⌊k / w⌋` of the literals:
`n - 1` of them is one clause, one of them is `AtMostOne`, and other bounds are counted with unit
coefficients. Exactly one is the exactly-one form of `AtMostOne`; exactly `n - 1` is a clause over
the negated literals and at most one of them.
-/

namespace MaxSatPrep

namespace Linear

/-- the distinct values in increasing order -/
def ascending (vs : List Nat) : List Nat := (vs.mergeSort (· ≤ ·)).eraseDups

/-- the coefficients of the constraint's variables, in variable order, and the bound, for
"at most" or "exactly", in word arithmetic -/
def aggregate (c : PbConstraint) : List (Nat × Int64) × Int64 :=
  let terms := c.lits.zip (c.weights.map Int.toInt64)
  let vars := ascending (c.lits.map Int.natAbs)
  let coef (v : Nat) : Int64 :=
    (terms.filter (fun t => t.1.natAbs == v)).foldl
      (fun s t => if 0 < t.1 then s + t.2 else s - t.2) 0
  let shift := (terms.filter (fun t => t.1 < 0)).foldl (fun s t => s + t.2) 0
  let k := c.bound.toInt64 - shift
  let cs := vars.map (fun v => (v, coef v))
  if c.kind = .geq then (cs.map (fun p => (p.1, -p.2)), -k) else (cs, k)

/-- positive coefficients: a negative one moves to the negated literal -/
def positive (cs : List (Nat × Int64)) (k : Int64) : List (Int × Int64) × Int64 :=
  cs.foldl (fun acc p =>
    if p.2 = 0 then acc
    else if 0 < p.2 then (acc.1 ++ [((p.1 : Int), p.2)], acc.2)
    else (acc.1 ++ [(-(p.1 : Int), -p.2)], acc.2 - p.2)) ([], k)

/-- the greatest common divisor of the coefficients -/
def divisor (terms : List (Int × Nat)) : Nat := terms.foldl (fun g t => Nat.gcd g t.2) 0

/-- the coefficient all terms share, if they share one -/
def common? : List (Int × Nat) → Option Nat
  | [] => none
  | t :: rest => if rest.all (fun s => s.2 == t.2) then some t.2 else none

/-- at most `k` of the literals, for `0 < k < n` -/
def cardAtMost (lits : List Int) (k top : Nat) : Option (List (List Int)) × Nat :=
  if k + 1 = lits.length then (some [lits.map (fun l => -l)], top)
  else if k = 1 then
    let (cs, top) := AtMostOne.encode false lits.length lits top
    (some cs, top)
  else Totalizer.count (lits.map (fun l => (l, 1))) k false top

/-- exactly `k` of the literals, for `0 < k < n` -/
def cardExactly (lits : List Int) (k top : Nat) : Option (List (List Int)) × Nat :=
  if k = 1 then
    let (cs, top) := AtMostOne.encode true lits.length lits top
    (some cs, top)
  else if k + 1 = lits.length then
    let negated := lits.map (fun l => -l)
    let (cs, top) := AtMostOne.encode false negated.length negated top
    (some (negated :: cs), top)
  else Totalizer.count (lits.map (fun l => (l, 1))) k true top

/-- the clauses of terms with positive coefficients, each at most `k`, whose sum exceeds `k`;
none when equality has no solution -/
def counted (terms : List (Int × Nat)) (k : Nat) (exact : Bool) (top : Nat) :
    Option (List (List Int)) × Nat :=
  if exact ∧ k % divisor terms ≠ 0 then (none, top) else
  match common? terms with
  | some w =>
    if exact then cardExactly (terms.map Prod.fst) (k / w) top
    else cardAtMost (terms.map Prod.fst) (k / w) top
  | none => Totalizer.count terms k exact top

/-- the clauses of a pseudo-Boolean constraint above the top variable, and the new top -/
def encode (c : PbConstraint) (top : Nat) : List (List Int) × Nat :=
  let (cs, k) := aggregate c
  let (terms, k) := positive cs k
  if k < 0 then ([[]], top) else
  let units := (terms.filter (fun t => k < t.2)).map (fun t => [-t.1])
  let rest := terms.filter (fun t => t.2 ≤ k)
  let total := (rest.map Prod.snd).foldl (· + ·) 0
  let exact := c.kind = .equal
  if exact ∧ total < k then ([[]], top)
  else if exact ∧ total = k then (units ++ rest.map (fun t => [t.1]), top)
  else if ¬exact ∧ total ≤ k then (units, top)
  else
    match counted (rest.map (fun t => (t.1, t.2.toInt.toNat))) k.toInt.toNat exact top with
    | (some body, top) => (units ++ body, top)
    | (none, top) => ([[]], top)

end Linear

end MaxSatPrep
