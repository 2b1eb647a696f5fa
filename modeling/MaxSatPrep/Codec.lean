import MaxSatPrep.Clause
/-!
Values as they cross the engine boundary as integers. A truth value goes out as 1 or 0 after
its truthiness; an integer comes back as a truth value by being non-zero, or, for reconstructed
values, by being positive. A literal comes back as a signed integer: zero ends a clause, and
otherwise the magnitude is the variable, which must be an integer that is not a boolean.
Values of other types compare and take magnitudes as far as numbers allow, and fail beyond.
-/

namespace MaxSatPrep

namespace Codec

/-- a truth value as the engine takes it -/
def encodeBool (d : Datum) : Int := if d.truthy then 1 else 0

/-- an engine truth value: any value unequal to zero is true -/
def decodeBool (d : Datum) : Bool := !d.numEq (.int 0)

/-- a reconstructed truth value: positive is true; a value that is no number does not compare -/
def decodeSignedBool (d : Datum) : Outcome Bool :=
  match d with
  | .bool b => .ok b
  | .int n => .ok (0 < n)
  | .real x => .ok x.isPositive
  | other => refuse (.unorderable ">" other.typeName "int")

/-- A literal from a signed value. Zero of any numeric type ends a clause; `true` has the
magnitude 1; a binary64 magnitude is no variable; other values have no magnitude. -/
def decodeLit (d : Datum) : Outcome Lit :=
  if d.numEq (.int 0) then refuse .zeroLiteral
  else
    match d with
    | .int z => Lit.decode z
    | .bool _ => Lit.decode 1
    | .real x => refuse (.variableNotPositive (.real { x with negative := false }))
    | other => refuse (.badOperand "abs()" other.typeName)

theorem decodeLit_int (z : Int) (h : z ≠ 0) : decodeLit (.int z) = Lit.decode z := by
  have : Datum.numEq (.int z) (.int 0) = false := by
    simp [Datum.numEq, Datum.asInt?, h]
  simp [decodeLit, this]

end Codec

end MaxSatPrep
