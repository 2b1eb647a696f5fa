import MaxSatPrep.Error
import MaxSatPrep.Number.Numeral
/-!
Converting document values to numbers where a setting needs one. To an integer: booleans count
as 0 and 1, binary64 numbers are truncated toward zero (infinities and NaN refused), texts are
read as integer numerals of at most 4300 digits. To a binary64 number: integers are rounded to the nearest (refused
when too large), texts are read as float numerals. Other values have no number. Numbers add as
integers while both are integers or booleans, and as binary64 numbers once one is binary64;
texts and lists add to their own kind only. Numbers compare by their exact values, texts by
their code points, and lists by their first pair of unequal elements, a list before its
extensions. A value is written out as text as messages show it, a text as it is; an integer of
more than 4300 digits is not written out.
-/

namespace MaxSatPrep

namespace Datum

/-- the integer of a value -/
def toInteger (d : Datum) : Outcome Int :=
  match d with
  | .bool b => .ok (if b then 1 else 0)
  | .int n => .ok n
  | .real x =>
    if x.isNaN then refuse .nanToInt
    else if x.isInfinite then refuse .infinityToInt
    else .ok x.truncate
  | .str s =>
    match Numeral.readInteger s with
    | .value n => .ok n
    | .tooLong digits => refuse (.digitLimit digits)
    | .invalid => refuse (.intText s)
  | _ => refuse (.intArgument d.typeName)

/-- the binary64 number of a value -/
def toReal (d : Datum) : Outcome Binary64 :=
  match d with
  | .bool b => .ok (Binary64.ofDecimal false (if b then 1 else 0) 0)
  | .int n =>
    match Binary64.ofInt? n with
    | some x => .ok x
    | none => refuse .intTooLargeForFloat
  | .real x => .ok x
  | .str s =>
    match Numeral.real? s with
    | some x => .ok x
    | none => refuse (.floatText s)
  | _ => refuse (.floatArgument d.typeName)

/-- the text of a value where it is written out whole: a text as it is, any other value as
messages show it -/
def toText : Datum → String
  | .str s => s
  | d => d.describe

/-- a number that takes part in a sum, as an integer or a binary64 number -/
def number? : Datum → Option (Int ⊕ Binary64)
  | .bool b => some (.inl (if b then 1 else 0))
  | .int n => some (.inl n)
  | .real x => some (.inr x)
  | _ => none

/-- an integer of a binary64 sum: refused when too large for any finite value -/
def widen (n : Int) : Outcome Binary64 :=
  match Binary64.ofInt? n with
  | some x => .ok x
  | none => refuse .intTooLargeForFloat

/-- The sum of two values, written with the operator `op` in failures: integers and booleans
add exactly; with a binary64 addend the other is rounded to binary64 first and the sum is
rounded. Other values do not add. -/
def plusBy (op : String) (a b : Datum) : Outcome Datum :=
  match a.number?, b.number? with
  | some (.inl x), some (.inl y) => .ok (.int (x + y))
  | some (.inl x), some (.inr y) => do pure (.real ((← widen x).add y))
  | some (.inr x), some (.inl y) => do pure (.real (x.add (← widen y)))
  | some (.inr x), some (.inr y) => .ok (.real (x.add y))
  | _, _ =>
    match a, b with
    | .str x, .str y => .ok (.str (x ++ y))
    | .list xs, .list ys => .ok (.list (xs ++ ys))
    | .str _, _ | .list _, _ => refuse (.concatenation a.typeName b.typeName)
    | _, _ => refuse (.unsupportedOperands op a.typeName b.typeName)

/-- the sum of two values, as `+` -/
def plus (a b : Datum) : Outcome Datum := plusBy "+" a b

/-- the difference of two numbers; other values do not subtract -/
def minus (a b : Datum) : Outcome Datum :=
  match a.number?, b.number? with
  | some (.inl x), some (.inl y) => .ok (.int (x - y))
  | some (.inl x), some (.inr y) => do pure (.real ((← widen x).add y.neg))
  | some (.inr x), some (.inl y) => do pure (.real (x.add (← widen y).neg))
  | some (.inr x), some (.inr y) => .ok (.real (x.add y.neg))
  | _, _ => refuse (.unsupportedOperands "-" a.typeName b.typeName)

/-- the negation of a number: a boolean negates as an integer; other values have none -/
def negate (d : Datum) : Outcome Datum :=
  match d.number? with
  | some (.inl x) => .ok (.int (-x))
  | some (.inr x) => .ok (.real x.neg)
  | none => refuse (.badOperand "unary -" d.typeName)

/-- the magnitude of a number: a boolean as an integer; other values have none -/
def magnitude (d : Datum) : Outcome Datum :=
  match d.number? with
  | some (.inl x) => .ok (.int x.natAbs)
  | some (.inr x) => .ok (.real x.abs)
  | none => refuse (.badOperand "abs()" d.typeName)

/-- a number as an integer or a binary64 value -/
def numOf : Int ⊕ Binary64 → Num
  | .inl n => .int n
  | .inr x => .real x

mutual
/-- Whether `a < b`: numbers exactly, texts by code points, lists by their first unequal
elements; other values do not compare. -/
def less : Datum → Datum → Outcome Bool
  | .str x, .str y => .ok (decide (Text.codePoints x.toList < Text.codePoints y.toList))
  | .list xs, .list ys => listLess xs ys
  | a, b =>
    match a.number?, b.number? with
    | some x, some y => .ok (Num.greater (numOf y) (numOf x))
    | _, _ => refuse (.unorderable "<" a.typeName b.typeName)

/-- whether one list comes before another: at their first unequal elements, or as a shorter
list all of whose elements start the other -/
def listLess : List Datum → List Datum → Outcome Bool
  | [], [] => .ok false
  | [], _ :: _ => .ok true
  | _ :: _, [] => .ok false
  | x :: xs, y :: ys => if memberEq x y then listLess xs ys else less x y
end

mutual
/-- Whether `a > b`, with the reach of `less`: numbers exactly, texts by code points, lists by
their first unequal elements; other values do not compare. -/
def greater : Datum → Datum → Outcome Bool
  | .str x, .str y => .ok (decide (Text.codePoints y.toList < Text.codePoints x.toList))
  | .list xs, .list ys => listGreater xs ys
  | a, b =>
    match a.number?, b.number? with
    | some x, some y => .ok (Num.greater (numOf x) (numOf y))
    | _, _ => refuse (.unorderable ">" a.typeName b.typeName)

/-- whether one list comes after another: at their first unequal elements, or as a longer list
that the other starts -/
def listGreater : List Datum → List Datum → Outcome Bool
  | [], _ => .ok false
  | _ :: _, [] => .ok true
  | x :: xs, y :: ys => if memberEq x y then listGreater xs ys else greater x y
end

/-- Whether `a ≤ b` for numbers, exactly; other values do not compare this way. -/
def atMost (a b : Datum) : Outcome Bool :=
  match a.number?, b.number? with
  | some x, some y => .ok (!Num.greater (numOf x) (numOf y))
  | _, _ => refuse (.unorderable "<=" a.typeName b.typeName)

/-- the larger of two values as `max` picks it: the second when it is greater, else the first -/
def maxOf (a b : Datum) : Outcome Datum := do
  if ← greater b a then pure b else pure a

/-- the text a value is written out as; refused for a value holding an integer of more than
4300 digits -/
def written (d : Datum) : Outcome String :=
  if d.hasLongInt then refuse .longIntText else .ok d.toText

end Datum

end MaxSatPrep
