import MaxSatPrep.Number.DecimalText
import MaxSatPrep.Text.Unicode
/-!
Documents: the loosely typed values that requests, configuration files and instance
descriptions are made of (null, booleans, integers of any size, binary64 numbers, texts, lists
and objects with keys in insertion order). Booleans are numbers where values are compared or
counted: `numEq` compares `true` with `1` and `1.0` alike, as the keys of a mapping do.
-/

namespace MaxSatPrep

/-- a document value -/
inductive Datum where
  | null
  | bool (b : Bool)
  | int (n : Int)
  | real (x : Binary64)
  | str (s : String)
  | list (xs : List Datum)
  | obj (fields : List (String × Datum))
  deriving Inhabited

namespace Datum

/-- the name of a value's type, as messages about a wrong type give it -/
def typeName : Datum → String
  | .null => "NoneType"
  | .bool _ => "bool"
  | .int _ => "int"
  | .real _ => "float"
  | .str _ => "str"
  | .list _ => "list"
  | .obj _ => "dict"

/-- the value of a key of an object; none for a missing key or a value that is no object -/
def field? (d : Datum) (key : String) : Option Datum :=
  match d with
  | .obj fs => (fs.find? (fun p => p.1 == key)).map Prod.snd
  | _ => none

/-- an object field that is present and not null -/
def given? (d : Datum) (key : String) : Option Datum :=
  match d.field? key with
  | some .null => none
  | other => other

/-- The truth of a value where a condition tests it: null, false, zero, the empty text, list
and object are false, everything else true. -/
def truthy : Datum → Bool
  | .null => false
  | .bool b => b
  | .int n => n != 0
  | .real x => !x.isZero
  | .str s => !s.isEmpty
  | .list xs => !xs.isEmpty
  | .obj fs => !fs.isEmpty

/-- the code points of a text, each a text in kept form -/
def textItems (s : String) : List Datum :=
  (Text.codePoints s.toList).map (fun n => .str (String.ofList (Text.keepCode n)))

/-- The items a value yields when iterated: the elements of a list, the code points of a text
(each a text), the keys of an object; other values cannot be iterated. -/
def elements? : Datum → Option (List Datum)
  | .list xs => some xs
  | .str s => some (textItems s)
  | .obj fs => some (fs.map (fun p => .str p.1))
  | _ => none

/-- the integer a boolean or integer value counts as -/
def asInt? : Datum → Option Int
  | .bool b => some (if b then 1 else 0)
  | .int n => some n
  | _ => none

/-- the integer of an integer value that is not a boolean -/
def strictInt? : Datum → Option Int
  | .int n => some n
  | _ => none

/-- Whether a value is the reader's NaN. A document reader gives every `NaN` it reads as one and
the same value, while arithmetic makes a new NaN each time (`Binary64.madeNaN`). Members of
lists, sets and mapping keys are first compared by being the same value, so the reader's NaN
matches itself there, though two NaNs are never equal as numbers. -/
def readNaN : Datum → Bool
  | .real x => decide (x = Binary64.nan)
  | _ => false

mutual
/-- Equality of values as the language compares them, mapping keys included: booleans, integers
and binary64 numbers compare as numbers, texts by content, lists element by element and objects
by their keys and the values under them. -/
def numEq : Datum → Datum → Bool
  | .null, .null => true
  | .str a, .str b => a == b
  | .real x, .real y => x.sameNumber y
  | .real x, d => match d.asInt? with
    | some n => x.equalsInt n
    | none => false
  | d, .real y => match d.asInt? with
    | some n => y.equalsInt n
    | none => false
  | .list xs, .list ys => listEq xs ys
  | .obj fs, .obj gs => fs.length == gs.length && fieldsEq fs gs
  | a, b => match a.asInt?, b.asInt? with
    | some m, some n => m == n
    | _, _ => false

/-- element-wise equality of two lists, as members compare -/
def listEq : List Datum → List Datum → Bool
  | [], [] => true
  | x :: xs, y :: ys => (readNaN x && readNaN y || numEq x y) && listEq xs ys
  | _, _ => false

/-- whether each field of the first object has an equal value under its key in the second -/
def fieldsEq : List (String × Datum) → List (String × Datum) → Bool
  | [], _ => true
  | (k, v) :: fs, gs =>
    (match gs.find? (fun p => p.1 == k) with
      | some (_, w) => readNaN v && readNaN w || numEq v w
      | none => false) && fieldsEq fs gs
end

/-- Equality of members of a list, a set or the keys of a mapping: the same value is equal to
itself, which only the reader's NaN needs, and other values compare with `numEq`. -/
def memberEq (a b : Datum) : Bool := a.readNaN && b.readNaN || numEq a b

end Datum

end MaxSatPrep
