import MaxSatPrep.Datum
import MaxSatPrep.Text.Unicode
/-!
Reading a document from JSON text. Numbers without fraction or exponent are integers of any
size; the others are binary64 values, nearest to the written decimal. `NaN`, `Infinity` and
`-Infinity` are read as numbers too. Control characters inside a text are refused, escapes
`\uXXXX` combine surrogate pairs, and a repeated object key keeps its first position and its
last value. Whitespace is the space, tab, newline and return. An integer of more than 4300 digits
stops the reading where it stands, as a failure of its own, and so does a list or object opened
deeper than the reading allows.

The text read is in kept form (`Text.keep`), as a text value is, so that a document held in a
text value reads back with its lone surrogates; a line of input is put in kept form first.
-/

namespace MaxSatPrep

namespace Datum

/-- why a text is not read as a document -/
inductive ReadFailure where
  /-- the text is not JSON -/
  | malformed
  /-- an integer with more digits than a conversion takes, and its number of digits -/
  | tooManyDigits (digits : Nat)
  /-- a list (or an object) opened deeper than the reading goes -/
  | tooDeep (list : Bool)

/-- a reading of some value at the front of the input, with the input after it -/
abbrev Reading (α : Type) := Except ReadFailure (α × List Char)

/-- the whitespace of JSON text -/
def isJsonSpace (c : Char) : Bool := c == ' ' || c == '\t' || c == '\n' || c == '\r'

/-- the number of a list of decimal digit characters -/
def digitValue (ds : List Char) : Nat :=
  ds.foldl (fun n c => 10 * n + (c.toNat - '0'.toNat)) 0

/-- the value of one hexadecimal digit -/
def hexValue? (c : Char) : Option Nat :=
  if c.isDigit then some (c.toNat - '0'.toNat)
  else if 'a' ≤ c ∧ c ≤ 'f' then some (c.toNat - 'a'.toNat + 10)
  else if 'A' ≤ c ∧ c ≤ 'F' then some (c.toNat - 'A'.toNat + 10)
  else none

/-- four hexadecimal digits at the front of the input -/
def hex4? : List Char → Option (Nat × List Char)
  | a :: b :: c :: d :: rest => do
    let va ← hexValue? a
    let vb ← hexValue? b
    let vc ← hexValue? c
    let vd ← hexValue? d
    pure (((va * 16 + vb) * 16 + vc) * 16 + vd, rest)
  | _ => none

/-- the optional exponent of a number: `e` or `E`, a sign and at least one digit -/
def exponentPart (cs : List Char) : Option (Int × List Char) :=
  match cs with
  | e :: rest =>
    if e = 'e' ∨ e = 'E' then
      let (neg, body) := match rest with
        | '-' :: r => (true, r)
        | '+' :: r => (false, r)
        | r => (false, r)
      let ds := body.takeWhile Char.isDigit
      if ds.isEmpty then none
      else
        let v : Int := digitValue ds
        some (if neg then -v else v, body.dropWhile Char.isDigit)
    else none
  | [] => none

/-- A number at the front of the input: an optional minus, `0` or digits not starting with
`0`, an optional fraction and an optional exponent. An integer of more than 4300 digits is
refused. -/
def readNumber (cs : List Char) : Reading Datum :=
  let (neg, r) := match cs with
    | '-' :: r => (true, r)
    | r => (false, r)
  let whole := match r with
    | '0' :: _ => ['0']
    | _ => r.takeWhile Char.isDigit
  if whole.isEmpty then .error .malformed
  else
    let r := r.drop whole.length
    let (frac, r) := match r with
      | '.' :: rest =>
        let ds := rest.takeWhile Char.isDigit
        if ds.isEmpty then ([], r) else (ds, rest.drop ds.length)
      | _ => ([], r)
    let (expo, r) := match exponentPart r with
      | some (e, rest) => (some e, rest)
      | none => (none, r)
    if frac.isEmpty ∧ expo.isNone then
      if 4300 < whole.length then .error (.tooManyDigits whole.length)
      else
        let v : Int := digitValue whole
        .ok (.int (if neg then -v else v), r)
    else
      let e := expo.getD 0 - frac.length
      .ok (.real (Binary64.ofDecimal neg (digitValue (whole ++ frac)) e), r)

/-- The rest of a text after its opening quote: its characters, last first, and the input after
the closing quote. The input is a kept text, so its characters are copied as they are, and a
code point read from an escape is added in its kept form. -/
def readText : Nat → List Char → List Char → Option (String × List Char)
  | 0, _, _ => none
  | _ + 1, [], _ => none
  | fuel + 1, c :: rest, acc =>
    if c = '"' then some (String.ofList acc.reverse, rest)
    else if c = '\\' then
      match rest with
      | 'u' :: more => do
        let (n, after) ← hex4? more
        if 0xd800 ≤ n ∧ n ≤ 0xdbff then
          match after with
          | '\\' :: 'u' :: more2 =>
            match hex4? more2 with
            | some (m, after2) =>
              if 0xdc00 ≤ m ∧ m ≤ 0xdfff then
                readText fuel after2
                  ((Text.keepCode (0x10000 + (n - 0xd800) * 0x400 + (m - 0xdc00))).reverse ++ acc)
              else readText fuel after ((Text.keepCode n).reverse ++ acc)
            | none => readText fuel after ((Text.keepCode n).reverse ++ acc)
          | _ => readText fuel after ((Text.keepCode n).reverse ++ acc)
        else readText fuel after ((Text.keepCode n).reverse ++ acc)
      | e :: more =>
        let decoded : Option Char :=
          if e = '"' then some '"' else if e = '\\' then some '\\' else if e = '/' then some '/'
          else if e = 'b' then some '\x08' else if e = 'f' then some '\x0c'
          else if e = 'n' then some '\n' else if e = 'r' then some '\r'
          else if e = 't' then some '\t' else none
        match decoded with
        | some d => readText fuel more (d :: acc)
        | none => none
      | [] => none
    else if c.toNat < 0x20 then none
    else readText fuel rest (c :: acc)

/-- a field put into an object: a present key keeps its position and takes the new value -/
def upsertField (fs : List (String × Datum)) (k : String) (v : Datum) : List (String × Datum) :=
  if fs.any (fun p => p.1 == k) then fs.map (fun p => if p.1 == k then (k, v) else p)
  else fs ++ [(k, v)]

/-- a fixed word at the front of the input -/
def word? (w : String) (cs : List Char) : Option (List Char) :=
  if w.toList.isPrefixOf cs then some (cs.drop w.length) else none

mutual
/-- A value at the front of the input, after optional whitespace; `room` is the number of
lists and objects that may still be opened inside one another. -/
def readValue : Nat → Nat → List Char → Reading Datum
  | 0, _, _ => .error .malformed
  | fuel + 1, room, cs =>
    match cs.dropWhile isJsonSpace with
    | '{' :: rest =>
      match room with
      | 0 => .error (.tooDeep false)
      | room + 1 => readMembers fuel room (rest.dropWhile isJsonSpace) [] true
    | '[' :: rest =>
      match room with
      | 0 => .error (.tooDeep true)
      | room + 1 => readElements fuel room (rest.dropWhile isJsonSpace) [] true
    | '"' :: rest =>
      match readText (rest.length + 1) rest [] with
      | some (t, after) => .ok (.str t, after)
      | none => .error .malformed
    | cs' =>
      match word? "null" cs' with
      | some r => .ok (.null, r)
      | none => match word? "true" cs' with
      | some r => .ok (.bool true, r)
      | none => match word? "false" cs' with
      | some r => .ok (.bool false, r)
      | none => match word? "NaN" cs' with
      | some r => .ok (.real Binary64.nan, r)
      | none => match word? "Infinity" cs' with
      | some r => .ok (.real (Binary64.infinity false), r)
      | none => match word? "-Infinity" cs' with
      | some r => .ok (.real (Binary64.infinity true), r)
      | none => readNumber cs'

/-- the elements of a list after its opening bracket -/
def readElements : Nat → Nat → List Char → List Datum → Bool → Reading Datum
  | 0, _, _, _, _ => .error .malformed
  | fuel + 1, room, cs, acc, first =>
    match cs with
    | ']' :: rest => if first then .ok (.list acc.reverse, rest) else .error .malformed
    | _ =>
      match readValue fuel room cs with
      | .error e => .error e
      | .ok (v, rest) =>
        match rest.dropWhile isJsonSpace with
        | ',' :: more => readElements fuel room (more.dropWhile isJsonSpace) (v :: acc) false
        | ']' :: more => .ok (.list (v :: acc).reverse, more)
        | _ => .error .malformed

/-- the fields of an object after its opening brace -/
def readMembers : Nat → Nat → List Char → List (String × Datum) → Bool → Reading Datum
  | 0, _, _, _, _ => .error .malformed
  | fuel + 1, room, cs, acc, first =>
    match cs with
    | '}' :: rest => if first then .ok (.obj acc, rest) else .error .malformed
    | '"' :: rest =>
      match readText (rest.length + 1) rest [] with
      | none => .error .malformed
      | some (k, after) =>
        match after.dropWhile isJsonSpace with
        | ':' :: more =>
          match readValue fuel room more with
          | .error e => .error e
          | .ok (v, rest2) =>
            let acc := upsertField acc k v
            match rest2.dropWhile isJsonSpace with
            | ',' :: more2 => readMembers fuel room (more2.dropWhile isJsonSpace) acc false
            | '}' :: more2 => .ok (.obj acc, more2)
            | _ => .error .malformed
        | _ => .error .malformed
    | _ => .error .malformed
end

/-- The document a kept JSON text holds, with nothing but whitespace after it, with at most
`room` lists and objects inside one another. -/
def readWithin (room : Nat) (s : String) : Except ReadFailure Datum :=
  let cs := s.toList
  match readValue (2 * cs.length + 2) room cs with
  | .ok (d, rest) => if (rest.dropWhile isJsonSpace).isEmpty then .ok d else .error .malformed
  | .error e => .error e

/-- the document a kept JSON text holds, nested as deep as it likes -/
def read (s : String) : Except ReadFailure Datum := readWithin (s.length + 1) s

/-- the document a kept JSON text holds, if it is one -/
def read? (s : String) : Option Datum :=
  match read s with
  | .ok d => some d
  | .error _ => none

/-- the document a line of input holds, if it is one: its characters are all their own, so it
is read in its kept form -/
def readLine? (line : String) : Option Datum := read? (Text.keep line)

end Datum

end MaxSatPrep
