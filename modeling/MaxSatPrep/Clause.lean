import MaxSatPrep.Error
/-!
Literals and clauses read from document values. A literal is an integer other than zero; a
boolean or any other value is refused, and zero is refused because it ends a clause. A clause
is read element by element, stopping at the first bad literal, and put into canonical order.
-/

namespace MaxSatPrep

/-- the elements of an iterable value -/
def Datum.iterate (d : Datum) : Outcome (List Datum) :=
  match d.elements? with
  | some xs => .ok xs
  | none => refuse (.notIterable d.typeName)

namespace Lit

/-- the literal of a non-zero DIMACS integer; zero is a value error -/
def decode (z : Int) : Outcome Lit :=
  match ofInt? z with
  | some l => .ok l
  | none => refuse .zeroLiteral

/-- the literal a value stands for: a non-zero integer, booleans excluded -/
def ofDatum (d : Datum) : Outcome Lit :=
  match d with
  | .int z => (decode z).mapError Failure.asValidation
  | _ => refuse (.expectedLiteral d)

/-- the literal of a variable value and a polarity; the variable must be a positive integer -/
def make (var : Datum) (negated : Bool) : Outcome Lit :=
  match var with
  | .int n => if h : 0 < n then .ok ⟨n.toNat, negated, by omega⟩ else refuse (.variableNotPositive var)
  | _ => refuse (.variableNotPositive var)

theorem ofDatum_int (l : Lit) : ofDatum (.int l.toInt) = .ok l := by
  have h : decode l.toInt = .ok l := by simp only [decode, ofInt?_toInt]
  show (decode l.toInt).mapError Failure.asValidation = .ok l
  rw [h]
  rfl

end Lit

/-- the canonical clause of the literals a value yields -/
def clauseOf (d : Datum) : Outcome (List Lit) := do
  let items ← d.iterate
  let ls ← items.mapM Lit.ofDatum
  pure (canonicalClause ls)

/-- the DIMACS integers of a clause -/
def clauseInts (c : List Lit) : List Int := c.map Lit.toInt

end MaxSatPrep
