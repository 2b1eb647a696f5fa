import MaxSatPrep.Text.Unicode
/-!
Quoted text as messages show a string value: between single quotes, or between double quotes
when the text holds a single quote and no double quote. The backslash, the chosen quote, the
tab, newline and return are escaped by a backslash; every other character that is not printable
(`Text.isPrintable`) is written as a hexadecimal escape of 2, 4 or 8 digits.
-/

namespace MaxSatPrep

namespace Text

/-- the lowercase hexadecimal digits of `n`, padded with zeros to `width` -/
def hexDigits (width n : Nat) : String :=
  let ds := Nat.toDigits 16 n
  String.ofList (List.replicate (width - ds.length) '0' ++ ds)

/-- one code point inside quotes `q` -/
def escapeCode (q : Char) (n : Nat) : String :=
  let c := Char.ofNat n
  if isSurrogate n then "\\u" ++ hexDigits 4 n
  else if c = '\\' then "\\\\"
  else if c = q then "\\" ++ c.toString
  else if c = '\t' then "\\t"
  else if c = '\n' then "\\n"
  else if c = '\r' then "\\r"
  else if !isPrintable c then
    let n := c.toNat
    if n < 0x100 then "\\x" ++ hexDigits 2 n
    else if n < 0x10000 then "\\u" ++ hexDigits 4 n
    else "\\U" ++ hexDigits 8 n
  else c.toString

/-- the quote character a text is shown between -/
def quoteFor (s : String) : Char :=
  if s.contains '\'' && !s.contains '"' then '"' else '\''

/-- a text as messages show a string value -/
def quote (s : String) : String :=
  let q := quoteFor s
  q.toString ++ String.join ((codePoints s.toList).map (escapeCode q)) ++ q.toString

end Text

end MaxSatPrep
