import MaxSatPrep.Datum
import MaxSatPrep.Number.Numeral
/-!
Lax checks of documents against models. A check gives the typed value or the number of places
that fail; checks of the fields of an object and of the items of a list all run, and their
failures add up. Integers accept booleans, integral binary64 numbers strictly between `-2⁶³`
and `2⁶³`, and numeral texts (white space around, an optional point and zeros after); booleans accept 0 and 1 and the words
`true`, `false`, `yes`, `no`, `on`, `off`, `t`, `f`, `y`, `n` in any case besides `0` and `1`.
-/

namespace MaxSatPrep

/-- a checked value, or the number of failing places -/
abbrev Checked (α : Type) := Except Nat α

namespace Checked

/-- one failing place -/
def fail {α : Type} : Checked α := .error 1

/-- both checks, their failures added -/
def both {α β : Type} (a : Checked α) (b : Checked β) : Checked (α × β) :=
  match a, b with
  | .ok x, .ok y => .ok (x, y)
  | .error m, .ok _ => .error m
  | .ok _, .error n => .error n
  | .error m, .error n => .error (m + n)

/-- the check of every item of a list, failures added -/
def all {α : Type} : List (Checked α) → Checked (List α)
  | [] => .ok []
  | c :: cs => (both c (all cs)).map (fun p => p.1 :: p.2)

/-- a further condition on a checked value, one failing place when it does not hold -/
def ensure {α : Type} (c : Checked α) (p : α → Bool) : Checked α :=
  match c with
  | .ok x => if p x then .ok x else fail
  | .error n => .error n

end Checked

namespace Schema

/-- an integer, laxly -/
def int (d : Datum) : Checked Int :=
  match d with
  | .int n => .ok n
  | .bool b => .ok (if b then 1 else 0)
  | .real x =>
    let bound : Int := Int.ofNat (Nat.pow 2 63)
    if x.isIntegral ∧ -bound < x.truncate ∧ x.truncate < bound then .ok x.truncate
    else Checked.fail
  | .str s => match Numeral.laxInteger? s with
    | some n => .ok n
    | none => Checked.fail
  | _ => Checked.fail

/-- the words read as false -/
def falseWords : List String := ["f", "n", "no", "off", "false"]

/-- the words read as true -/
def trueWords : List String := ["t", "y", "on", "yes", "true"]

/-- a boolean, laxly -/
def bool (d : Datum) : Checked Bool :=
  match d with
  | .bool b => .ok b
  | .int n => if n = 0 then .ok false else if n = 1 then .ok true else Checked.fail
  | .real x => if x.equalsInt 0 then .ok false else if x.equalsInt 1 then .ok true
    else Checked.fail
  | .str s =>
    let w := String.ofList (s.toList.map Char.toLower)
    if s == "0" || falseWords.contains w then .ok false
    else if s == "1" || trueWords.contains w then .ok true
    else Checked.fail
  | _ => Checked.fail

/-- a list whose items all pass a check -/
def list {α : Type} (item : Datum → Checked α) (d : Datum) : Checked (List α) :=
  match d with
  | .list xs => Checked.all (xs.map item)
  | _ => Checked.fail

/-- a non-zero integer -/
def dimacsLit (d : Datum) : Checked Int := (int d).ensure (· != 0)

/-- a natural number -/
def nat (d : Datum) : Checked Nat := ((int d).ensure (0 ≤ ·)).map Int.toNat

/-- one of some texts -/
def oneOf (words : List String) (d : Datum) : Checked String :=
  match d with
  | .str s => if words.contains s then .ok s else Checked.fail
  | _ => Checked.fail

/-- a field that must be present -/
def required {α : Type} (obj : Datum) (key : String) (check : Datum → Checked α) : Checked α :=
  match obj.field? key with
  | some d => check d
  | none => Checked.fail

/-- a field with a default when absent -/
def optional {α : Type} (obj : Datum) (key : String) (dflt : α) (check : Datum → Checked α) :
    Checked α :=
  match obj.field? key with
  | some d => check d
  | none => .ok dflt

/-- a field that may be absent or null -/
def nullable {α : Type} (obj : Datum) (key : String) (check : Datum → Checked α) :
    Checked (Option α) :=
  match obj.field? key with
  | some .null | none => .ok none
  | some d => (check d).map some

/-- the fields of an object, checked; anything else fails once -/
def fields (d : Datum) : Checked (List (String × Datum)) :=
  match d with
  | .obj fs => .ok fs
  | _ => Checked.fail

end Schema

end MaxSatPrep
