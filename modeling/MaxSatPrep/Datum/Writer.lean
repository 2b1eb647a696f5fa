import MaxSatPrep.Datum
import MaxSatPrep.Text.Quoted
/-!
Writing a document as JSON text on one line. Texts are written by their code points: non-ASCII
characters as they are, and the quote, the backslash, control characters and lone surrogates
escaped; binary64 numbers use their shortest text, and the non-finite ones are written `NaN`,
`Infinity` and `-Infinity`.
-/

namespace MaxSatPrep

namespace Datum

/-- one code point inside a JSON string -/
def jsonCode (n : Nat) : String :=
  let c := Char.ofNat n
  if Text.isSurrogate n then "\\u" ++ Text.hexDigits 4 n
  else if c = '"' then "\\\""
  else if c = '\\' then "\\\\"
  else if c = '\n' then "\\n"
  else if c = '\r' then "\\r"
  else if c = '\t' then "\\t"
  else if c = '\x08' then "\\b"
  else if c = '\x0c' then "\\f"
  else if n < 0x20 then "\\u" ++ Text.hexDigits 4 n
  else c.toString

/-- a JSON string -/
def jsonString (s : String) : String :=
  "\"" ++ String.join ((Text.codePoints s.toList).map jsonCode) ++ "\""

/-- a binary64 number as JSON text -/
def jsonReal (x : Binary64) : String :=
  if x.isNaN then "NaN"
  else if x.isInfinite then (if x.negative then "-Infinity" else "Infinity")
  else x.text

mutual
/-- a value as JSON text -/
def write : Datum → String
  | .null => "null"
  | .bool b => if b then "true" else "false"
  | .int n => toString n
  | .real x => jsonReal x
  | .str s => jsonString s
  | .list xs => "[" ++ writeItems xs ++ "]"
  | .obj fs => "\x7b" ++ writeFields fs ++ "\x7d"

/-- list items separated by commas -/
def writeItems : List Datum → String
  | [] => ""
  | [x] => write x
  | x :: xs => write x ++ ", " ++ writeItems xs

/-- object fields separated by commas -/
def writeFields : List (String × Datum) → String
  | [] => ""
  | [(k, v)] => jsonString k ++ ": " ++ write v
  | (k, v) :: fs => jsonString k ++ ": " ++ write v ++ ", " ++ writeFields fs
end

end Datum

end MaxSatPrep
