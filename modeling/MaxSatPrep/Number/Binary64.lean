/-!
Double-precision binary floating-point values, kept as their three fields (sign, biased
exponent, fraction) and computed with exactly in natural-number arithmetic; no runtime float
operation is involved. The main operation is `ofRatio`, the nearest value to a fraction of
naturals with a tie going to the even significand, from which decimal reading and integer
conversion follow.
-/

namespace MaxSatPrep

/-- a binary64 value: sign, biased exponent field (0 to 2047) and 52-bit fraction field -/
structure Binary64 where
  negative : Bool
  biased : Nat
  fraction : Nat
  deriving DecidableEq

namespace Binary64

/-- the weight of the hidden significand bit -/
def hiddenBit : Nat := Nat.pow 2 52

/-- the exponent field of infinities and NaNs -/
def allOnes : Nat := 2047

/-- the quiet NaN a document reader gives for every `NaN` it reads -/
def nan : Binary64 := ⟨false, allOnes, Nat.pow 2 51⟩

/-- A NaN that arithmetic or a conversion makes. It is a value of its own, apart from the
reader's `nan`: the reader hands out one NaN, and each computed NaN is a new one. -/
def madeNaN : Binary64 := ⟨false, allOnes, Nat.pow 2 51 + 1⟩

/-- the infinity of a sign -/
def infinity (neg : Bool) : Binary64 := ⟨neg, allOnes, 0⟩

/-- the zero of a sign -/
def zero (neg : Bool) : Binary64 := ⟨neg, 0, 0⟩

/-- not a number -/
def isNaN (x : Binary64) : Bool := x.biased == allOnes && x.fraction != 0

/-- an infinity -/
def isInfinite (x : Binary64) : Bool := x.biased == allOnes && x.fraction == 0

/-- neither infinite nor NaN -/
def isFinite (x : Binary64) : Bool := x.biased != allOnes

/-- either zero -/
def isZero (x : Binary64) : Bool := x.biased == 0 && x.fraction == 0

/-- the significand of a finite value, with the hidden bit unless the value is subnormal -/
def significand (x : Binary64) : Nat :=
  if x.biased = 0 then x.fraction else hiddenBit + x.fraction

/-- the binary exponent of the last significand bit of a finite value -/
def exponent (x : Binary64) : Int :=
  if x.biased = 0 then -1074 else (x.biased : Int) - 1075

/-- `k · 2^e` as a fraction of naturals -/
def scale2 (k : Nat) (e : Int) : Nat × Nat :=
  if 0 ≤ e then (k * (Nat.pow 2 e.toNat), 1) else (k, (Nat.pow 2 (-e).toNat))

/-- `k · 10^e` as a fraction of naturals -/
def scale10 (k : Nat) (e : Int) : Nat × Nat :=
  if 0 ≤ e then (k * (Nat.pow 10 e.toNat), 1) else (k, (Nat.pow 10 (-e).toNat))

/-- the magnitude of a finite value as a fraction of naturals -/
def magnitude (x : Binary64) : Nat × Nat := scale2 x.significand x.exponent

/-- the quotient `a / b` rounded to the nearest natural, a tie to the even one -/
def roundHalfEven (a b : Nat) : Nat :=
  let d := a / b
  let r := a % b
  if 2 * r < b then d
  else if b < 2 * r then d + 1
  else if d % 2 = 0 then d else d + 1

/-- `⌊log₂ (num / den)⌋` for positive `num` and `den` -/
def floorLog2 (num den : Nat) : Int :=
  let l : Int := (Nat.log2 num : Int) - (Nat.log2 den : Int)
  if den * (Nat.pow 2 l.toNat) ≤ num * (Nat.pow 2 (-l).toNat) then l else l - 1

/-- The binary64 value nearest to `num / den`, a tie going to the even significand; a value
beyond the largest finite one becomes infinite and a zero numerator gives zero. -/
def ofRatio (neg : Bool) (num den : Nat) : Binary64 :=
  if num = 0 ∨ den = 0 then zero neg
  else
    let q : Int := max (floorLog2 num den - 52) (-1074)
    let m := if 0 ≤ q then roundHalfEven num (den * (Nat.pow 2 q.toNat))
      else roundHalfEven (num * (Nat.pow 2 (-q).toNat)) den
    let carry := m = Nat.pow 2 53
    let m := if carry then hiddenBit else m
    let q := if carry then q + 1 else q
    if m < hiddenBit then ⟨neg, 0, m⟩
    else if (allOnes : Int) ≤ q + 1075 then infinity neg
    else ⟨neg, (q + 1075).toNat, m - hiddenBit⟩

/-- a finite value as a signed multiple of a power of two -/
def signedSignificand (x : Binary64) : Int :=
  if x.negative then -(x.significand : Int) else x.significand

/-- The sum rounded to the nearest value, a tie to the even significand. A NaN gives a made
NaN, infinities of opposite signs a made NaN, an infinity itself; an exact zero sum is negative
only when both addends are. -/
def add (x y : Binary64) : Binary64 :=
  if x.isNaN || y.isNaN then madeNaN
  else if x.isInfinite && y.isInfinite then (if x.negative == y.negative then x else madeNaN)
  else if x.isInfinite then x
  else if y.isInfinite then y
  else
    let e := min x.exponent y.exponent
    let s := x.signedSignificand * ((Nat.pow 2 (x.exponent - e).toNat : Nat) : Int) +
      y.signedSignificand * ((Nat.pow 2 (y.exponent - e).toNat : Nat) : Int)
    if s = 0 then zero (x.negative && y.negative)
    else
      let (num, den) := scale2 s.natAbs e
      ofRatio (s < 0) num den

/-- the number of decimal digits of a natural (one for zero) -/
def decimalLength (n : Nat) : Nat := (Nat.toDigits 10 n).length

/-- The binary64 value nearest to `digits · 10^exp10`. Exponents far outside the binary64
range are decided without building their powers: such values are infinite or zero. -/
def ofDecimal (neg : Bool) (digits : Nat) (exp10 : Int) : Binary64 :=
  if digits = 0 then zero neg
  else
    let top := exp10 + decimalLength digits
    if 311 < top then infinity neg
    else if top < -330 then zero neg
    else
      let (num, den) := scale10 digits exp10
      ofRatio neg num den

/-- the binary64 value of an integer, or none when it is too large for any finite value -/
def ofInt? (n : Int) : Option Binary64 :=
  let x := ofRatio (n < 0) n.natAbs 1
  if x.isInfinite then none else some x

/-- the integer part of a finite value, rounding toward zero -/
def truncate (x : Binary64) : Int :=
  let (num, den) := x.magnitude
  let t : Int := (num / den : Nat)
  if x.negative then -t else t

/-- a finite value without fractional part -/
def isIntegral (x : Binary64) : Bool :=
  x.isFinite && (let (num, den) := x.magnitude; num % den == 0)

/-- strictly below zero -/
def isNegative (x : Binary64) : Bool := x.negative && !x.isZero && !x.isNaN

/-- strictly above zero -/
def isPositive (x : Binary64) : Bool := !x.negative && !x.isZero && !x.isNaN

/-- equal as numbers: zeros of both signs are equal and a NaN equals nothing -/
def sameNumber (x y : Binary64) : Bool :=
  if x.isNaN || y.isNaN then false
  else if x.isZero && y.isZero then true
  else x == y

/-- equal to an integer as a number -/
def equalsInt (x : Binary64) (n : Int) : Bool :=
  x.isIntegral && x.truncate == n

/-- the value with the other sign -/
def neg (x : Binary64) : Binary64 := if x.isNaN then madeNaN else { x with negative := !x.negative }

/-- the magnitude: the sign cleared, and a NaN for a NaN, made anew -/
def abs (x : Binary64) : Binary64 := if x.isNaN then madeNaN else { x with negative := false }

theorem ofRatio_zero (neg : Bool) (den : Nat) : ofRatio neg 0 den = zero neg := by
  simp [ofRatio]

end Binary64

/-- a number as a document or a caller holds it: an integer, or a binary64 value -/
inductive Num where
  | int (n : Int)
  | real (x : Binary64)
  deriving DecidableEq

namespace Num

/-- strictly below zero -/
def isNegative : Num → Bool
  | .int n => n < 0
  | .real x => x.isNegative

/-- A number as a point of the extended line: its class (`-1` for minus infinity, `0` for a
finite value, `1` for plus infinity) and, when finite, its value as a signed fraction; none for
a NaN. -/
def rank? : Num → Option (Int × Int × Nat)
  | .int n => some (0, n, 1)
  | .real x =>
    if x.isNaN then none
    else if x.isInfinite then some (if x.negative then -1 else 1, 0, 1)
    else
      let (num, den) := x.magnitude
      some (0, if x.negative then -(num : Int) else num, den)

/-- whether `a > b` exactly; never when a NaN takes part -/
def greater (a b : Num) : Bool :=
  match a.rank?, b.rank? with
  | some (ca, na, da), some (cb, nb, db) =>
    if ca ≠ cb then cb < ca
    else if ca ≠ 0 then false
    else nb * (da : Int) < na * (db : Int)
  | _, _ => false

/-- zero or below, as a deadline measured from now is already reached -/
def isNonPositive : Num → Bool
  | .int n => n ≤ 0
  | .real x => x.isNegative || x.isZero

end Num

end MaxSatPrep
