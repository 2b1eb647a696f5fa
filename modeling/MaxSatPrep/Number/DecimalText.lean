import MaxSatPrep.Number.Shortest
/-!
The text of a binary64 value: the shortest digits that read back, written positionally when the
decimal point falls within a window and in exponent form otherwise. The choices of the window,
of the trailing `.0`, of the exponent's mark, sign and width and of the texts of infinities and
NaN are one record, `Binary64.style`.
-/

namespace MaxSatPrep

/-- the decisions of a float text format -/
structure FloatStyle where
  /-- positional when `lowPoint < point ≤ highPoint`, where `point` is the position of the
  decimal point after the first digit counted from the left of the digit string -/
  lowPoint : Int
  highPoint : Int
  /-- an integral positional value keeps `.0` -/
  pointZero : Bool
  exponentMark : String
  /-- the exponent shows `+` when not negative -/
  plusSign : Bool
  exponentWidth : Nat
  infinityText : String
  nanText : String

namespace Binary64

/-- Floats are written with the shortest digits that read back, positionally when the decimal
point lies after at most sixteen digits and before at most three zeros, an integral value with
`.0`, otherwise as `d.ddde±XX`. -/
def style : FloatStyle :=
  { lowPoint := -4, highPoint := 16, pointZero := true, exponentMark := "e", plusSign := true,
    exponentWidth := 2, infinityText := "inf", nanText := "nan" }

/-- `n` copies of the digit zero -/
def zeros (n : Nat) : String := String.ofList (List.replicate n '0')

/-- the digits of `d · 10^g` placed by a style, without sign -/
def placeDigits (f : FloatStyle) (d : Nat) (g : Int) : String :=
  let ds := toString d
  let len : Int := ds.length
  let point := len + g
  if f.lowPoint < point ∧ point ≤ f.highPoint then
    if point ≤ 0 then "0." ++ zeros (-point).toNat ++ ds
    else if len ≤ point then ds ++ zeros (point - len).toNat ++ (if f.pointZero then ".0" else "")
    else
      let cs := ds.toList
      String.ofList (cs.take point.toNat) ++ "." ++ String.ofList (cs.drop point.toNat)
  else
    let cs := ds.toList
    let lead := String.ofList (cs.take 1)
    let rest := String.ofList (cs.drop 1)
    let mantissa := if rest.isEmpty then lead else lead ++ "." ++ rest
    let e := point - 1
    let digits := toString e.natAbs
    let padded := zeros (f.exponentWidth - digits.length) ++ digits
    let sign := if e < 0 then "-" else if f.plusSign then "+" else ""
    mantissa ++ f.exponentMark ++ sign ++ padded

/-- the text of a binary64 value in a style -/
def textIn (f : FloatStyle) (x : Binary64) : String :=
  if x.isNaN then f.nanText
  else
    let sign := if x.negative then "-" else ""
    if x.isInfinite then sign ++ f.infinityText
    else if x.isZero then sign ++ placeDigits f 0 0
    else
      let (d, g) := x.shortest
      sign ++ placeDigits f d g

/-- the text of a binary64 value -/
def text (x : Binary64) : String := textIn style x

end Binary64

end MaxSatPrep
