import MaxSatPrep.Number.Binary64
import MaxSatPrep.Text.Blank
import MaxSatPrep.Text.Unicode
/-!
Numerals in text. A text is first brought to ASCII (`asciiForm`): a text of ASCII characters
stays as it is; in any other text blanks become spaces and decimal digits of every script their
ASCII digits, and another character beyond ASCII ends the text. Numerals may then be surrounded
by ASCII white space, and single underscores may stand between digits.

Three readers: `readInteger` reads a signed decimal integer, refusing more than `maxDigits`
digits; `real?` reads a binary64 number (a decimal with optional point and exponent, or `inf`,
`infinity`, `nan` in any case); `laxInteger?` reads the integers that lax document checks accept,
from the text as it is: ASCII digits between Unicode white space after leading zeros that may
hold underscores and be followed by a minus, possibly followed by a point and one or more zeros.
-/

namespace MaxSatPrep

namespace Numeral

/-- the value of a list of decimal digit characters -/
def digitsValue (ds : List Char) : Nat :=
  ds.foldl (fun n c => 10 * n + (c.toNat - '0'.toNat)) 0

/-- Digits with single underscores between them at the front of a text: the digits and the
rest; none when no digit comes first. -/
def digitPart : List Char → Option (List Char × List Char)
  | c :: cs =>
    if c.isDigit then
      match digitPart cs with
      | some (ds, rest) => some (c :: ds, rest)
      | none =>
        match cs with
        | '_' :: d :: more =>
          if d.isDigit then
            match digitPart (d :: more) with
            | some (ds, rest) => some (c :: ds, rest)
            | none => some ([c], cs)
          else some ([c], cs)
        | _ => some ([c], cs)
    else none
  | [] => none

/-- an optional sign at the front of a text -/
def signPart : List Char → Bool × List Char
  | '-' :: cs => (true, cs)
  | '+' :: cs => (false, cs)
  | cs => (false, cs)

/-- space, tab, newline, vertical tab, form feed and return -/
def isAsciiSpace (c : Char) : Bool :=
  c == ' ' || c == '\t' || c == '\n' || c == '\x0b' || c == '\x0c' || c == '\r'

/-- the characters of a text beyond the first one at or above U+007F, each mapped -/
def asciiChars : List Char → List Char
  | [] => []
  | c :: cs =>
    if c.toNat < 127 then c :: asciiChars cs
    else if Text.isBlank c then ' ' :: asciiChars cs
    else
      match Text.decimalValue? c with
      | some d => Char.ofNat ('0'.toNat + d) :: asciiChars cs
      | none => ['?']

/-- A text as numerals are read from it. An ASCII text stays as it is. In another text the
characters below U+007F stay, blanks become spaces, decimal digits become ASCII digits, and any
other character ends the text as `?`, which no numeral holds. -/
def asciiForm (s : String) : List Char :=
  if s.toList.all (fun c => c.toNat < 128) then s.toList else asciiChars s.toList

/-- the characters between the ASCII white space at both ends -/
def trimmed (s : String) : List Char :=
  (((asciiForm s).dropWhile isAsciiSpace).reverse.dropWhile isAsciiSpace).reverse

/-- the most digits an integer numeral may have -/
def maxDigits : Nat := 4300

/-- how a text reads as an integer -/
inductive IntegerReading where
  /-- a numeral and its value -/
  | value (n : Int)
  /-- a run of digits longer than `maxDigits`, with its length -/
  | tooLong (digits : Nat)
  /-- no numeral -/
  | invalid
  deriving DecidableEq

/-- The run of digits and underscores at the front of a text, with the rest. It is refused
when it starts or ends with an underscore or holds two together. -/
def digitRun (cs : List Char) : Option (List Char × List Char) :=
  let run := cs.takeWhile (fun c => c.isDigit || c == '_')
  let rest := cs.drop run.length
  if run.head? == some '_' || run.getLast? == some '_' then none
  else if (run.zip run.tail).any (fun p => p.1 == '_' && p.2 == '_') then none
  else some (run.filter Char.isDigit, rest)

/-- A signed decimal integer between ASCII white space. The length limit is checked on the
digits before anything after them. -/
def readInteger (s : String) : IntegerReading :=
  let (neg, body) := signPart (trimmed s)
  match digitRun body with
  | none => .invalid
  | some (ds, rest) =>
    if ds.isEmpty then .invalid
    else if maxDigits < ds.length then .tooLong ds.length
    else if rest.isEmpty then
      let v : Int := digitsValue ds
      .value (if neg then -v else v)
    else .invalid

/-- a decimal mantissa: digits before and after an optional point, at least one digit in all -/
def mantissaPart (cs : List Char) : Option (List Char × List Char × List Char) :=
  match digitPart cs with
  | some (whole, '.' :: rest) =>
    match digitPart rest with
    | some (frac, rest2) => some (whole, frac, rest2)
    | none => some (whole, [], rest)
  | some (whole, rest) => some (whole, [], rest)
  | none =>
    match cs with
    | '.' :: rest =>
      match digitPart rest with
      | some (frac, rest2) => some ([], frac, rest2)
      | none => none
    | _ => none

/-- the optional exponent after a mantissa -/
def exponentPart : List Char → Option (Int × List Char)
  | e :: cs =>
    if e == 'e' || e == 'E' then
      let (neg, body) := signPart cs
      match digitPart body with
      | some (ds, rest) => let v : Int := digitsValue ds; some (if neg then -v else v, rest)
      | none => none
    else none
  | [] => none

/-- the lower-case form of ASCII letters -/
def lowerAscii (cs : List Char) : List Char := cs.map Char.toLower

/-- a binary64 number between blanks -/
def real? (s : String) : Option Binary64 :=
  let (neg, body) := signPart (trimmed s)
  let word := lowerAscii body
  if word == "inf".toList || word == "infinity".toList then some (Binary64.infinity neg)
  else if word == "nan".toList then some Binary64.madeNaN
  else
    match mantissaPart body with
    | none => none
    | some (whole, frac, rest) =>
      let (expo, rest) := match exponentPart rest with
        | some (e, r) => (e, r)
        | none => (0, rest)
      if rest.isEmpty then
        some (Binary64.ofDecimal neg (digitsValue (whole ++ frac)) (expo - frac.length))
      else none

/-- The text from the first character after the leading zeros of a numeral, underscores among
those zeros skipped too. A text of zeros and underscores only keeps its last character; a text
that does not start with a digit has none. -/
def afterLeadingZeros : List Char → Option (List Char)
  | '0' :: cs => some (skipZeros '0' cs)
  | c :: cs => if c.isDigit then some (c :: cs) else none
  | [] => none
where
  /-- the rest after zeros and underscores, or the last of them when nothing else follows -/
  skipZeros (last : Char) : List Char → List Char
    | [] => [last]
    | c :: cs => if c == '0' || c == '_' then skipZeros c cs else c :: cs

/-- The text with its underscores taken out, when it neither starts nor ends with one and holds
no two together. -/
def withoutUnderscores (cs : List Char) : Option (List Char) :=
  if cs.head? == some '_' || cs.getLast? == some '_' then none
  else if (cs.zip cs.tail).any (fun p => p.1 == '_' && p.2 == '_') then none
  else some (cs.filter (· != '_'))

/-- An integer as JSON writes one: an optional minus, then a lone zero or digits that do not
start with zero, at most `maxDigits` of them. -/
def jsonInteger? (cs : List Char) : Option Int :=
  let (neg, ds) := match cs with
    | '-' :: rest => (true, rest)
    | rest => (false, rest)
  if ds.isEmpty || !ds.all Char.isDigit then none
  else if ds.head? == some '0' && 1 < ds.length then none
  else if maxDigits < ds.length then none
  else let v : Int := digitsValue ds; some (if neg then -v else v)

/-- An optional sign, then leading zeros with underscores among them, then an integer as JSON
writes one, single underscores allowed inside it. The integer after the zeros may carry a minus
of its own, which the first sign then negates once more. -/
def laxWhole (cs : List Char) : Option Int :=
  let (neg, body) := signPart cs
  match afterLeadingZeros body with
  | none => none
  | some rest =>
    match withoutUnderscores rest with
    | none => none
    | some plain => (jsonInteger? plain).map (fun v => if neg then -v else v)

/-- The integers lax document checks accept from text: between Unicode white space, a numeral
as `laxWhole` reads it, which may be followed by a point and one or more zeros; at most 4300
digits count, leading zeros apart. Digits of other scripts are not read. -/
def laxInteger? (s : String) : Option Int :=
  let cs := (Text.trimWith Text.isWhiteSpace s).toList
  match laxWhole cs with
  | some v => some v
  | none =>
    match cs.idxOf? '.' with
    | some i =>
      let frac := cs.drop (i + 1)
      if !frac.isEmpty && frac.all (· == '0') then laxWhole (cs.take i) else none
    | none => none

end Numeral

end MaxSatPrep
