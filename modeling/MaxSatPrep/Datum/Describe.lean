import MaxSatPrep.Datum
import MaxSatPrep.Text.Quoted
/-!
The text of a document value as messages quote an offending value: `None`, `True`, `False`,
integers in decimal, binary64 numbers in their shortest text, quoted texts, `[a, b]` for lists
and `{'k': v}` for objects. An integer of more than 4300 decimal digits is never written
out: a value holding one has no text (`hasLongInt`).
-/

namespace MaxSatPrep

namespace Datum

mutual
/-- the text of a value in messages -/
def describe : Datum → String
  | .null => "None"
  | .bool b => if b then "True" else "False"
  | .int n => toString n
  | .real x => x.text
  | .str s => Text.quote s
  | .list xs => "[" ++ describeItems xs ++ "]"
  | .obj fs => "\x7b" ++ describeFields fs ++ "\x7d"

/-- list items separated by a comma and a space -/
def describeItems : List Datum → String
  | [] => ""
  | [x] => describe x
  | x :: xs => describe x ++ ", " ++ describeItems xs

/-- object fields `'key': value` separated by a comma and a space -/
def describeFields : List (String × Datum) → String
  | [] => ""
  | [(k, v)] => Text.quote k ++ ": " ++ describe v
  | (k, v) :: fs => Text.quote k ++ ": " ++ describe v ++ ", " ++ describeFields fs
end

/-- the most decimal digits of an integer that is written out as text -/
def writableDigits : Nat := 4300

/-- whether an integer has more decimal digits than are written out -/
def longInt (n : Int) : Bool := writableDigits < (toString n.natAbs).length

mutual
/-- whether a value holds an integer that is not written out, at any depth -/
def hasLongInt : Datum → Bool
  | .int n => longInt n
  | .list xs => itemsHaveLongInt xs
  | .obj fs => fieldsHaveLongInt fs
  | _ => false

/-- whether an item of a list holds an integer that is not written out -/
def itemsHaveLongInt : List Datum → Bool
  | [] => false
  | x :: xs => hasLongInt x || itemsHaveLongInt xs

/-- whether a field value holds an integer that is not written out -/
def fieldsHaveLongInt : List (String × Datum) → Bool
  | [] => false
  | (_, v) :: fs => hasLongInt v || fieldsHaveLongInt fs
end

end Datum

end MaxSatPrep
