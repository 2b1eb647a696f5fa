import MaxSatPrep.Number.Binary64
/-!
Shortest decimal text of a binary64 value. For a finite nonzero value the reals that round to
it form an interval (its ends belong to it iff the significand is even). For 1, 2, … 17 digits
the value's two neighbours on that decimal grid are tested, in exact natural arithmetic; the
first grid with a neighbour inside wins, of two the nearer, and of two equally near the even
digit string. Seventeen digits always suffice for binary64.
-/

namespace MaxSatPrep

namespace Binary64

/-- `a / b ≤ c / d` for fractions of naturals with nonzero denominators -/
def ratioLe (x y : Nat × Nat) : Bool := x.1 * y.2 ≤ y.1 * x.2

/-- `a / b < c / d` for fractions of naturals with nonzero denominators -/
def ratioLt (x y : Nat × Nat) : Bool := x.1 * y.2 < y.1 * x.2

/-- `⌊log₁₀ (num / den)⌋` for positive `num` and `den` -/
def floorLog10 (num den : Nat) : Int :=
  let l : Int := (decimalLength num : Int) - (decimalLength den : Int)
  if den * (Nat.pow 10 l.toNat) ≤ num * (Nat.pow 10 (-l).toNat) then l else l - 1

/-- the reals that round to a finite nonzero value: its two ends, as multiples of `2^(q-2)`,
and whether the ends belong to it -/
structure RoundingInterval where
  low : Nat
  high : Nat
  scaleExp : Int
  closed : Bool

/-- The rounding interval of a finite nonzero value. Below a power of two that is not the
smallest normal value the spacing halves, so the lower end lies closer. -/
def roundingInterval (x : Binary64) : RoundingInterval :=
  let m := x.significand
  let lowGap := if x.fraction = 0 ∧ 1 < x.biased then 1 else 2
  { low := 4 * m - lowGap, high := 4 * m + 2, scaleExp := x.exponent - 2, closed := m % 2 == 0 }

/-- whether `d · 10^g` lies in the rounding interval -/
def RoundingInterval.holds (r : RoundingInterval) (d : Nat) (g : Int) : Bool :=
  let v := scale10 d g
  let lo := scale2 r.low r.scaleExp
  let hi := scale2 r.high r.scaleExp
  if r.closed then ratioLe lo v && ratioLe v hi else ratioLt lo v && ratioLt v hi

/-- The candidate with `n` significant digits: of the two grid neighbours of the value on
the grid `10^(e - n + 1)`, those in the rounding interval, the nearer first. -/
def candidate (x : Binary64) (e : Int) (n : Nat) : Option (Nat × Int) :=
  let g : Int := e - n + 1
  let v := x.magnitude
  let (qn, qd) := if 0 ≤ g then (v.1, v.2 * Nat.pow 10 g.toNat)
    else (v.1 * Nat.pow 10 (-g).toNat, v.2)
  let lo := qn / qd
  let hi := lo + 1
  let r := x.roundingInterval
  let loIn := r.holds lo g
  let hiIn := r.holds hi g
  if loIn && hiIn then
    -- compare 2v with (2 lo + 1) · 10^g
    let twice := (2 * v.1, v.2)
    let mid := scale10 (2 * lo + 1) g
    if ratioLt twice mid then some (lo, g)
    else if ratioLt mid twice then some (hi, g)
    else if lo % 2 == 0 then some (lo, g) else some (hi, g)
  else if loIn then some (lo, g)
  else if hiIn then some (hi, g)
  else none

/-- drops trailing zero digits, raising the exponent for each -/
def dropTrailingZeros : Nat → Nat → Int → Nat × Int
  | 0, d, g => (d, g)
  | fuel + 1, d, g =>
    if d ≠ 0 ∧ d % 10 = 0 then dropTrailingZeros fuel (d / 10) (g + 1) else (d, g)

/-- The shortest decimal `d · 10^g` that reads back as the finite nonzero value `x`, with no
trailing zero in `d`. -/
def shortest (x : Binary64) : Nat × Int :=
  let v := x.magnitude
  let e := floorLog10 v.1 v.2
  let found := (List.range 17).findSome? (fun i => candidate x e (i + 1))
  let (d, g) := found.getD (v.1 * Nat.pow 10 17 / v.2, -17)
  dropTrailingZeros (decimalLength d) d g

end Binary64

end MaxSatPrep
