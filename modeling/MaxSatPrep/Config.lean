import MaxSatPrep.Datum.Reader
import MaxSatPrep.Datum.Convert
/-!
Session settings: the engine to use, the default technique string, log level and time limit,
and the place of the native engine library. They start from defaults; a configuration file,
when it holds readable JSON, replaces each setting it names (the log level through integer
conversion, the time limit through float conversion); then each non-empty environment variable
`PREPRO_BACKEND`, `PREPRO_TECHNIQUES`, `PREPRO_LIBRARY`, `PREPRO_TIME_LIMIT` wins. Settings read
from a file keep the file's value, whatever its type. The environment is set before anything is
read, entry by entry, as the operating system takes it (`environment`).
-/

namespace MaxSatPrep

/-- the settings a session takes its defaults from -/
structure SessionConfig where
  backend : Datum := .str "reference"
  techniques : Datum := .str "[bu]#[buvsrgc]"
  logLevel : Datum := .int 0
  timeLimit : Datum := .real (Binary64.ofDecimal false 1 9)
  libraryPath : Datum := .null

namespace SessionConfig

/-- the default settings -/
def defaults : SessionConfig := {}

/-- the settings of a configuration document; a document that is not an object has no fields
to look up -/
def ofDocument (d : Datum) : Outcome SessionConfig :=
  match d with
  | .obj _ => do
    let c := defaults
    let get (key : String) (dflt : Datum) : Datum := (d.field? key).getD dflt
    let backend := get "backend" c.backend
    let techniques := get "techniques" c.techniques
    let logLevel ← (get "log_level" c.logLevel).toInteger
    let timeLimit ← match d.field? "time_limit" with
      | some t => Datum.toReal t
      | none => pure (Binary64.ofDecimal false 1 9)
    let libraryPath := get "library_path" c.libraryPath
    pure { backend := backend, techniques := techniques, logLevel := .int logLevel,
           timeLimit := .real timeLimit, libraryPath := libraryPath }
  | _ => refuse (.noAttribute d.typeName "get")

/-- The code point, start and end of the first run of surrogates that UTF-8 does not encode:
surrogates from U+DC80 to U+DCFF stand for raw bytes and are kept, and the run reported starts at
the first other surrogate and ends with the run of surrogates it belongs to. -/
def unencodable (cps : List Nat) : Option (Nat × Nat × Nat) :=
  match cps.findIdx? (fun c => Text.isSurrogate c && !(0xdc80 ≤ c && c ≤ 0xdcff)) with
  | none => none
  | some k =>
    let run := (cps.drop k).takeWhile Text.isSurrogate
    some ((cps[k]?).getD 0, k, k + run.length)

/-- a text of the environment must encode as bytes -/
def encodable (s : String) : Outcome Unit :=
  match unencodable (Text.codePoints s.toList) with
  | some (code, start, stop) => refuse (.surrogatesNotEncoded code start stop)
  | none => .ok ()

/-- whether a text holds the zero character -/
def holdsZero (s : String) : Bool := s.toList.contains (Char.ofNat 0)

/-- Sets one environment variable: the name and then the value must be texts that encode, then
neither may hold the zero character, and the name must not hold `=` or be empty. -/
def setVariable (name : String) (value : Datum) : Outcome (String × String) := do
  encodable name
  let v ← match value with
    | .str v => pure v
    | d => refuse (.envNotText d.typeName)
  encodable v
  if holdsZero name || holdsZero v then refuse .nullCharacter
  if name.toList.contains '=' then refuse .illegalEnvName
  if name.isEmpty then refuse .invalidArgument
  pure (name, v)

/-- sets environment variables in order; the first that cannot be set stops the setting -/
def environment (entries : List (String × Datum)) : Outcome (List (String × String)) :=
  entries.mapM (fun p => setVariable p.1 p.2)

/-- the value of an environment variable, when set and not empty -/
def envValue (env : List (String × String)) (name : String) : Option String :=
  match (env.find? (fun p => p.1 == name)).map Prod.snd with
  | some "" => none
  | other => other

/-- how many lists and objects a configuration file may open inside one another before its
reading runs out of stack -/
def fileNesting : Nat := 990

/-- Loads the settings from an optional configuration file text and the environment. A file
that is not readable JSON is ignored; one whose reading meets an integer of more than 4300
digits or nests too deep fails. -/
def load (file : Option String) (env : List (String × String)) : Outcome SessionConfig := do
  let c ← match file.map (Datum.readWithin fileNesting) with
    | some (.ok d) => ofDocument d
    | some (.error (.tooManyDigits n)) => refuse (.digitLimit n)
    | some (.error (.tooDeep list)) => refuse (.nestingTooDeep list)
    | _ => pure defaults
  let c := match envValue env "PREPRO_BACKEND" with
    | some b => { c with backend := .str b }
    | none => c
  let c := match envValue env "PREPRO_TECHNIQUES" with
    | some t => { c with techniques := .str t }
    | none => c
  let c := match envValue env "PREPRO_LIBRARY" with
    | some l => { c with libraryPath := .str l }
    | none => c
  match envValue env "PREPRO_TIME_LIMIT" with
  | some t => do
    let x ← Datum.toReal (.str t)
    pure { c with timeLimit := .real x }
  | none => pure c

end SessionConfig

end MaxSatPrep
