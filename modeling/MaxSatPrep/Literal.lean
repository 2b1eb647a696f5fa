/-!
Literals: a variable, numbered from 1, together with a polarity. Literals travel as DIMACS
integers, the variable itself for a positive literal and its negation for a negative one; zero
ends a clause and stands for no literal. Main statements: reading back the integer of a
literal gives the literal, and the canonical order compares variables first and puts the
positive literal of a variable first.
-/

namespace MaxSatPrep

/-- a literal: a variable numbered from 1 and whether it is negated -/
structure Lit where
  var : Nat
  negated : Bool
  var_pos : 0 < var
  deriving DecidableEq

namespace Lit

/-- the DIMACS integer of a literal -/
def toInt (l : Lit) : Int := if l.negated then -(l.var : Int) else (l.var : Int)

/-- the literal of a non-zero DIMACS integer -/
def ofInt? (z : Int) : Option Lit :=
  if h : z = 0 then none else some ⟨z.natAbs, decide (z < 0), Int.natAbs_pos.mpr h⟩

/-- the complementary literal -/
def neg (l : Lit) : Lit := { l with negated := !l.negated }

/-- the canonical order: the smaller variable first, and of one variable the positive literal -/
def le (a b : Lit) : Bool :=
  a.var < b.var || (a.var == b.var && (!a.negated || b.negated))

/-- the name of a literal in messages: `x3`, or `~x3` when negated -/
def name (l : Lit) : String := (if l.negated then "~x" else "x") ++ toString l.var

/-- the names of literals as a bracketed list, `[x1, ~x2]` -/
def listName (ls : List Lit) : String :=
  "[" ++ ", ".intercalate (ls.map name) ++ "]"

theorem ofInt?_toInt (l : Lit) : ofInt? l.toInt = some l := by
  rcases l with ⟨v, neg, hv⟩
  cases neg <;> simp [toInt, ofInt?] <;> omega

theorem toInt_ne_zero (l : Lit) : l.toInt ≠ 0 := by
  rcases l with ⟨v, neg, hv⟩
  cases neg <;> simp [toInt] <;> omega

theorem ofInt?_eq_none_iff (z : Int) : ofInt? z = none ↔ z = 0 := by
  unfold ofInt?
  split <;> simp_all

theorem toInt_neg (l : Lit) : l.neg.toInt = -l.toInt := by
  rcases l with ⟨v, neg, hv⟩
  cases neg <;> simp [toInt, Lit.neg]

end Lit

/-- Canonical clauses: the literals in the canonical order. Repeated and complementary
literals stay. -/
def canonicalClause (ls : List Lit) : List Lit := ls.mergeSort Lit.le

end MaxSatPrep
