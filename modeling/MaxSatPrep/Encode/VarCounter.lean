import MaxSatPrep.Datum.Convert
/-!
A variable counter over whatever numbers a request gives it. It holds the next variable:
handing one out adds one, and reserving every variable up to `v` moves the next variable to
`v + 1` when that is greater. Integers, booleans and binary64 numbers add and compare as
numbers; other values fail where they are added or compared. The largest variable handed out
is the next one minus one.
-/

namespace MaxSatPrep

/-- the next variable of a counter, as a number of any kind -/
structure VarCounter where
  next : Datum

namespace VarCounter

/-- the counter above a largest variable -/
def above (maxVar : Datum) : Outcome VarCounter := do
  pure ⟨← Datum.plus maxVar (.int 1)⟩

/-- hands out the next variable -/
def fresh (c : VarCounter) : Outcome (Datum × VarCounter) := do
  pure (c.next, ⟨← Datum.plus c.next (.int 1)⟩)

/-- marks every variable up to `v` as used -/
def reserveUpTo (c : VarCounter) (v : Datum) : Outcome VarCounter := do
  let w ← Datum.plus v (.int 1)
  if ← Datum.greater w c.next then pure ⟨w⟩ else pure c

/-- the largest variable handed out or reserved -/
def maxId (c : VarCounter) : Outcome Datum := Datum.minus c.next (.int 1)

theorem fresh_int (n : Int) : fresh ⟨.int n⟩ = .ok (.int n, ⟨.int (n + 1)⟩) := rfl

end VarCounter

end MaxSatPrep
