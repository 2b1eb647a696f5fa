import MaxSatPrep.Literal
import MaxSatPrep.Datum.Describe
/-!
Failures: why an operation refuses, as a `Cause` with its own data, and the class a caller
catches it by, an `ErrorKind`. The wording of every message is in `Cause.message`, the class
names in `ErrorKind.name`. A failure usually has its cause's default kind; literal checks turn
a value error into a validation error with the same text.
-/

namespace MaxSatPrep

/-- the class of a failure -/
inductive ErrorKind where
  | validation
  | rejected
  | unknownLabel
  | engineContract
  | sessionClosed
  | concurrentAccess
  | backendUnavailable
  | value
  | index
  | attribute
  | type
  | overflow
  | schema
  | assertion
  | recursion
  | unicodeEncode
  | system
  | memory
  deriving DecidableEq

/-- the class name of a failure kind -/
def ErrorKind.name : ErrorKind → String
  | .validation => "ValidationError"
  | .rejected => "RejectedError"
  | .unknownLabel => "UnknownLabelError"
  | .engineContract => "EngineContractError"
  | .sessionClosed => "SessionClosedError"
  | .concurrentAccess => "ConcurrentAccessError"
  | .backendUnavailable => "BackendUnavailableError"
  | .value => "ValueError"
  | .index => "IndexError"
  | .attribute => "AttributeError"
  | .type => "TypeError"
  | .overflow => "OverflowError"
  | .schema => "PydanticValidationError"
  | .assertion => "AssertionError"
  | .recursion => "RecursionError"
  | .unicodeEncode => "UnicodeEncodeError"
  | .system => "OSError"
  | .memory => "MemoryError"

/-- why an operation refuses -/
inductive Cause where
  /-- a value that is not an integer where a literal is expected -/
  | expectedLiteral (d : Datum)
  /-- zero where a literal is expected -/
  | zeroLiteral
  /-- a variable that is not a positive integer -/
  | variableNotPositive (d : Datum)
  /-- an assignment giving a variable both values -/
  | conflictingValues (v : Nat)
  /-- a soft clause weight that is not a natural number -/
  | badSoftWeight (d : Datum)
  /-- a top weight beyond 64 bits -/
  | topWeightTooLarge (top : Int)
  /-- a weight argument that is not a natural number -/
  | badWeight (d : Datum)
  /-- a weight argument beyond 64 bits -/
  | weightTooLarge (w : Int)
  /-- a clause list whose structure is wrong -/
  | invalidCnf (inner : Cause)
  /-- constraints that their encoder could not turn into clauses -/
  | encodeFailed (inner : Cause)
  /-- an encoder's own refusal -/
  | encoderRefused (msg : String)
  /-- a constraint bound below zero -/
  | wrongBound (b : Int)
  /-- options that fail their checks -/
  | invalidOptions (inner : Cause)
  /-- a document that fails the checks of a model: its name and the number of failing places -/
  | schema (model : String) (count : Nat)
  /-- a value that cannot be iterated -/
  | notIterable (typeName : String)
  /-- an operand of a type that a one-place operation does not take -/
  | badOperand (op typeName : String)
  /-- operands of types that a two-place operation does not combine -/
  | unsupportedOperands (op left right : String)
  /-- a text or list added to a value of another type -/
  | concatenation (left right : String)
  /-- operands of types that a comparison does not order -/
  | unorderable (op left right : String)
  /-- a comparison that gave a truth value where a constraint was expected -/
  | notAConstraint
  /-- a list or object used as a mapping key -/
  | unhashable (typeName : String)
  /-- a position past the end of a list -/
  | indexOutOfRange
  /-- a value without the attribute asked for -/
  | noAttribute (typeName attr : String)
  /-- a text that is no integer numeral -/
  | intText (s : String)
  /-- an integer numeral with more digits than a conversion takes -/
  | digitLimit (digits : Nat)
  /-- a text that is no float numeral -/
  | floatText (s : String)
  /-- a value of a type that has no integer -/
  | intArgument (typeName : String)
  /-- keyword arguments of a call given by a value that is not a mapping -/
  | keywordsNotMapping (callee typeName : String)
  /-- a value of a type that has no length -/
  | noLength (typeName : String)
  /-- a value of a type that is not taken where an integer is needed -/
  | notAnInteger (typeName : String)
  /-- an integer beyond the signed 32-bit integers -/
  | signedOverflow
  /-- a literal outside the signed 32-bit integers, above them or below them -/
  | literalOutOfRange (above : Bool)
  /-- a value of a type that has no float -/
  | floatArgument (typeName : String)
  /-- an infinity where an integer is needed -/
  | infinityToInt
  /-- a NaN where an integer is needed -/
  | nanToInt
  /-- an integer too large for a float -/
  | intTooLargeForFloat
  /-- a technique string with `#` inside a group -/
  | separatorInGroup (s : String)
  /-- a technique string with a group inside a group -/
  | nestedGroup (s : String)
  /-- a technique string closing a group that is not open -/
  | unbalancedClose (s : String)
  /-- a technique string ending inside a group -/
  | unbalancedOpen (s : String)
  /-- an option name the engine does not know -/
  | unknownOption (name : String)
  /-- initialisation after the instance was finalized -/
  | alreadyFinalized
  /-- preprocessing before the instance was finalized -/
  | notFinalized
  /-- an engine handle that was released -/
  | invalidHandle
  /-- a top weight below one reported by an engine -/
  | reportedTop (top : Datum)
  /-- more than one objective for a single-objective format -/
  | wcnfSingleObjective
  /-- more objectives read back than declared -/
  | objectivesReadBack (got : Nat) (declared : Datum)
  /-- a wrong number of objective offsets -/
  | offsetCount (given objectives : Nat)
  /-- a negative time limit -/
  | negativeTimeLimit (t : Datum)
  /-- the engine refused a new variable -/
  | refusedVariable
  /-- the engine refused a clause -/
  | refusedClause (c : List Lit)
  /-- the engine refused a label -/
  | refusedLabel (l : Lit)
  /-- the engine refused to reset the removed weight -/
  | refusedReset
  /-- a literal that is no label -/
  | noLabel (l : Lit)
  /-- a satisfiability view of a session with objectives -/
  | notSatisfiability (n : Nat)
  /-- a single-objective view of a session without exactly one objective -/
  | notSingleObjective (n : Nat)
  /-- a closed session -/
  | sessionReleased
  /-- closing while a call holds the session -/
  | closeWhileBusy
  /-- reading while a mutating call holds the session -/
  | readWhileMutating
  /-- mutating while another mutating call holds the session -/
  | mutateWhileMutating
  /-- an engine name the registry does not know -/
  | backendNotFound (name : String)
  /-- no engine library at the configured place -/
  | libraryNotFound
  /-- an engine library that the loader refuses -/
  | libraryUnloadable (path reason : String)
  /-- an engine library without a symbol -/
  | symbolMissing (path symbol : String)
  /-- an integer of more than 4300 digits written out as text -/
  | longIntText
  /-- an item that unpacks to more values than the names it is unpacked to -/
  | tooManyToUnpack (expected : Nat)
  /-- an item that unpacks to fewer values than the names it is unpacked to -/
  | notEnoughToUnpack (expected got : Nat)
  /-- an item that cannot be iterated, unpacked to names -/
  | notUnpackable (typeName : String)
  /-- a list position given by a value that is no integer -/
  | indexType (typeName : String)
  /-- a list position beyond the 64-bit integers -/
  | indexTooLarge
  /-- a repetition count beyond the 64-bit integers -/
  | repeatTooLarge
  /-- a repetition count larger than memory holds -/
  | repeatExhausts
  /-- a list repeated by a value that is no integer -/
  | repeatType (typeName : String)
  /-- a document nested deeper than its reader goes, at a list or at an object -/
  | nestingTooDeep (list : Bool)
  /-- an environment entry with a zero character -/
  | nullCharacter
  /-- an environment variable name with `=` -/
  | illegalEnvName
  /-- an empty environment variable name -/
  | invalidArgument
  /-- an environment entry that is not text -/
  | envNotText (typeName : String)
  /-- Surrogate code points that UTF-8 does not encode: the first one, and the positions of
  the first and past the last of the run reported -/
  | surrogatesNotEncoded (code start stop : Nat)

/-- the text of a number as a message shows it -/
def Num.describe : Num → String
  | .int n => toString n
  | .real x => x.text

/-- the wording of a failure -/
def Cause.message : Cause → String
  | .expectedLiteral d => "Expected a literal, got " ++ d.describe
  | .zeroLiteral => "0 is the clause terminator and not a literal"
  | .variableNotPositive d => "Variable must be a positive integer, got " ++ d.describe
  | .conflictingValues v => "Conflicting values for variable " ++ toString v
  | .badSoftWeight d => "Soft clause weight must be a non-negative integer, got " ++ d.describe
  | .topWeightTooLarge top => "Top weight " ++ toString top ++ " does not fit into 64 bits"
  | .badWeight d => "Weight must be a non-negative integer, got " ++ d.describe
  | .weightTooLarge w => "Weight " ++ toString w ++ " does not fit into 64 bits"
  | .invalidCnf inner => "Invalid CNF structure: " ++ inner.message
  | .encodeFailed inner => "Failed to encode constraints: " ++ inner.message
  | .encoderRefused msg => msg
  | .wrongBound b => "Wrong bound: " ++ toString b
  | .invalidOptions inner => "Invalid preprocessor options: " ++ inner.message
  | .schema model count =>
    toString count ++ (if count = 1 then " validation error for " else " validation errors for ")
      ++ model
  | .notIterable t => "'" ++ t ++ "' object is not iterable"
  | .badOperand op t => "bad operand type for " ++ op ++ ": '" ++ t ++ "'"
  | .unsupportedOperands op a b =>
    "unsupported operand type(s) for " ++ op ++ ": '" ++ a ++ "' and '" ++ b ++ "'"
  | .concatenation a b => "can only concatenate " ++ a ++ " (not \"" ++ b ++ "\") to " ++ a
  | .unorderable op a b =>
    "'" ++ op ++ "' not supported between instances of '" ++ a ++ "' and '" ++ b ++ "'"
  | .notAConstraint =>
    "failed to extract enum ConstraintArg ('BoolLin | Formula')\n" ++
    "- variant BoolLin (BoolLin): TypeError: failed to extract field ConstraintArg::BoolLin.0, " ++
    "caused by TypeError: 'bool' object is not an instance of 'BoolLinCon'\n" ++
    "- variant Formula (Formula): TypeError: failed to extract field ConstraintArg::Formula.0, " ++
    "caused by TypeError: 'bool' object is not an instance of 'Formula'"
  | .unhashable t => "unhashable type: '" ++ t ++ "'"
  | .indexOutOfRange => "list index out of range"
  | .noAttribute t a => "'" ++ t ++ "' object has no attribute '" ++ a ++ "'"
  | .intText s =>
    "invalid literal for int() with base 10: " ++ String.ofList ((Text.quote s).toList.take 200)
  | .floatText s => "could not convert string to float: " ++ Text.quote s
  | .digitLimit n =>
    "Exceeds the limit (4300 digits) for integer string conversion: value has " ++ toString n ++
      " digits; use sys.set_int_max_str_digits() to increase the limit"
  | .intArgument t =>
    "int() argument must be a string, a bytes-like object or a real number, not '" ++ t ++ "'"
  | .floatArgument t => "float() argument must be a string or a real number, not '" ++ t ++ "'"
  | .notAnInteger t => "'" ++ t ++ "' object cannot be interpreted as an integer"
  | .noLength t => "object of type '" ++ t ++ "' has no len()"
  | .keywordsNotMapping f t => f ++ " argument after ** must be a mapping, not " ++ t
  | .signedOverflow => "signed integer is greater than maximum"
  | .literalOutOfRange above =>
    "number too " ++ (if above then "large" else "small") ++ " to fit in target type"
  | .infinityToInt => "cannot convert float infinity to integer"
  | .nanToInt => "cannot convert float NaN to integer"
  | .intTooLargeForFloat => "int too large to convert to float"
  | .separatorInGroup s => "Stage separator inside a group in '" ++ s ++ "'"
  | .nestedGroup s => "Nested technique group in '" ++ s ++ "'"
  | .unbalancedClose s => "Unbalanced ']' in '" ++ s ++ "'"
  | .unbalancedOpen s => "Unbalanced '[' in '" ++ s ++ "'"
  | .unknownOption name => "Unknown option '" ++ name ++ "'"
  | .alreadyFinalized => "Session already finalized"
  | .notFinalized => "Session not finalized"
  | .invalidHandle => "Invalid or released reference engine handle"
  | .reportedTop top =>
    "Engine reported top weight " ++ (match top with
      | .str t => t
      | d => d.describe)
  | .wcnfSingleObjective => "WCNF holds a single objective"
  | .objectivesReadBack k n =>
    toString k ++ " objectives read back, " ++ (match n with
      | .str t => t
      | d => d.describe) ++ " declared"
  | .offsetCount k n => "Got " ++ toString k ++ " offsets for " ++ toString n ++ " objectives"
  | .negativeTimeLimit t => "Time limit must be non-negative, got " ++ t.describe
  | .refusedVariable => "Engine refused to add a variable"
  | .refusedClause c => "Engine refused clause " ++ Lit.listName c
  | .refusedLabel l => "Engine refused label " ++ l.name
  | .refusedReset => "Engine refused to reset the removed weight"
  | .noLabel l => "No label " ++ l.name
  | .notSatisfiability n => "Session has " ++ toString n ++ " objectives"
  | .notSingleObjective n => "Session has " ++ toString n ++ " objectives, expected 1"
  | .sessionReleased => "Session has been released"
  | .closeWhileBusy => "Cannot close a session while another call is running"
  | .readWhileMutating => "Session is being mutated; reads must not overlap a mutating call"
  | .mutateWhileMutating => "Session is already in use by another mutating call"
  | .backendNotFound name => "Backend '" ++ name ++ "' not found."
  | .libraryNotFound =>
    "MaxPre library not found. Build libmaxpre as a shared library and point PREPRO_LIBRARY at it."
  | .libraryUnloadable path reason => "Failed to load " ++ path ++ ": " ++ reason
  | .symbolMissing path sym => path ++ " does not export " ++ sym
  | .longIntText =>
    "Exceeds the limit (4300 digits) for integer string conversion; " ++
      "use sys.set_int_max_str_digits() to increase the limit"
  | .tooManyToUnpack n => "too many values to unpack (expected " ++ toString n ++ ")"
  | .notEnoughToUnpack n k =>
    "not enough values to unpack (expected " ++ toString n ++ ", got " ++ toString k ++ ")"
  | .notUnpackable t => "cannot unpack non-iterable " ++ t ++ " object"
  | .indexType t => "list indices must be integers or slices, not " ++ t
  | .indexTooLarge | .repeatTooLarge => "cannot fit 'int' into an index-sized integer"
  | .repeatExhausts => ""
  | .repeatType t => "can't multiply sequence by non-int of type '" ++ t ++ "'"
  | .nestingTooDeep list =>
    "maximum recursion depth exceeded while decoding a JSON " ++
      (if list then "array" else "object") ++ " from a unicode string"
  | .nullCharacter => "embedded null byte"
  | .illegalEnvName => "illegal environment variable name"
  | .invalidArgument => "[Errno 22] Invalid argument"
  | .envNotText t => "str expected, not " ++ t
  | .surrogatesNotEncoded code start stop =>
    if stop = start + 1 then
      "'utf-8' codec can't encode character '\\u" ++ Text.hexDigits 4 code ++ "' in position " ++
        toString start ++ ": surrogates not allowed"
    else
      "'utf-8' codec can't encode characters in position " ++ toString start ++ "-" ++
        toString (stop - 1) ++ ": surrogates not allowed"

/-- the kind a cause is raised with -/
def Cause.kind : Cause → ErrorKind
  | .variableNotPositive _ | .zeroLiteral | .encoderRefused _ | .wrongBound _ | .intText _
  | .floatText _ | .digitLimit _ | .nanToInt | .longIntText | .tooManyToUnpack _
  | .notEnoughToUnpack _ _ | .nullCharacter | .illegalEnvName => .value
  | .schema _ _ => .schema
  | .notIterable _ | .badOperand _ _ | .unsupportedOperands _ _ _ | .unorderable _ _ _
  | .notAConstraint | .concatenation _ _
  | .unhashable _ | .intArgument _ | .floatArgument _ | .notAnInteger _
  | .keywordsNotMapping _ _ | .noLength _ | .notUnpackable _ | .indexType _ | .repeatType _
  | .envNotText _ => .type
  | .indexOutOfRange | .indexTooLarge => .index
  | .repeatTooLarge => .overflow
  | .repeatExhausts => .memory
  | .nestingTooDeep _ => .recursion
  | .surrogatesNotEncoded _ _ _ => .unicodeEncode
  | .invalidArgument => .system
  | .noAttribute _ _ => .attribute
  | .infinityToInt | .intTooLargeForFloat | .signedOverflow | .literalOutOfRange _ => .overflow
  | .alreadyFinalized | .notFinalized | .refusedVariable | .refusedClause _ | .refusedLabel _
  | .refusedReset => .rejected
  | .noLabel _ => .unknownLabel
  | .objectivesReadBack _ _ => .assertion
  | .invalidHandle | .reportedTop _ => .engineContract
  | .sessionReleased => .sessionClosed
  | .closeWhileBusy | .readWhileMutating | .mutateWhileMutating => .concurrentAccess
  | .backendNotFound _ | .libraryNotFound | .libraryUnloadable _ _ | .symbolMissing _ _ =>
    .backendUnavailable
  | _ => .validation

/-- a failure: its cause and the kind it is raised as -/
structure Failure where
  kind : ErrorKind
  cause : Cause

/-- Whether the message of a cause writes out an integer of more than 4300 digits, which the
language refuses to do while the failure is being raised. -/
def Cause.writesLongInt : Cause → Bool
  | .expectedLiteral d | .variableNotPositive d | .badSoftWeight d | .badWeight d
  | .negativeTimeLimit d | .reportedTop d | .objectivesReadBack _ d => d.hasLongInt
  | .topWeightTooLarge n | .weightTooLarge n | .wrongBound n => Datum.longInt n
  | .conflictingValues v => Datum.longInt v
  | .refusedClause c => c.any (fun l => Datum.longInt l.var)
  | .refusedLabel l | .noLabel l => Datum.longInt l.var
  | _ => false

/-- The failure of a cause, raised with the cause's own kind; a message that would write out
an integer of more than 4300 digits fails as that conversion does instead. -/
def Cause.fail (c : Cause) : Failure :=
  if c.writesLongInt then ⟨.value, .longIntText⟩ else ⟨c.kind, c⟩

/-- the wording of a failure -/
def Failure.message (f : Failure) : String := f.cause.message

/-- the same failure raised as a validation error -/
def Failure.asValidation (f : Failure) : Failure := { f with kind := .validation }

/-- a computation that may fail -/
abbrev Outcome (α : Type) := Except Failure α

/-- fails with a cause -/
def refuse {α : Type} (c : Cause) : Outcome α := .error c.fail

end MaxSatPrep
