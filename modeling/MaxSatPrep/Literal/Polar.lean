import MaxSatPrep.Clause
import MaxSatPrep.Sorting
import MaxSatPrep.Datum.Convert
/-!
Literals built from a variable and a polarity value of any kind. The literal itself takes the
truth of the value, but the value is kept: such literals order as the pairs of their variable and
their polarity value, so two literals of one variable compare their polarity values, which may
fail to order. Equal polarity values are never compared.
-/

namespace MaxSatPrep

/-- a literal together with the polarity value it was built with -/
structure PolarLit where
  lit : Lit
  polarity : Datum

namespace PolarLit

/-- the literal of a variable value and a polarity value -/
def make (var polarity : Datum) : Outcome PolarLit := do
  pure ⟨← Lit.make var polarity.truthy, polarity⟩

/-- whether `a` comes before `b`: by variable, then by polarity value unless the values are
equal -/
def lt (a b : PolarLit) : Outcome Bool :=
  if a.lit.var = b.lit.var then
    if Datum.memberEq a.polarity b.polarity then .ok false else Datum.less a.polarity b.polarity
  else .ok (a.lit.var < b.lit.var)

/-- the literals in order, or the first comparison that fails -/
def sort (ls : List PolarLit) : Outcome (List Lit) := do
  pure ((← Sorting.sort lt ls).map PolarLit.lit)

theorem lt_of_var_lt (a b : PolarLit) (h : a.lit.var < b.lit.var) : lt a b = .ok true := by
  have hne : a.lit.var ≠ b.lit.var := Nat.ne_of_lt h
  simp [lt, hne, h]

end PolarLit

end MaxSatPrep
