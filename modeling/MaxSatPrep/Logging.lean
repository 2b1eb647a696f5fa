import MaxSatPrep.Error
/-!
Logger names. Every logger of the library lives under the package logger `prepro`: that name
and names already below it are kept, any other name is placed below it. A name that is not a
text has no prefix to test.
-/

namespace MaxSatPrep

/-- the name of the package logger -/
def packageLogger : String := "prepro"

/-- the logger name a module name is given -/
def loggerName (name : String) : String :=
  if name == packageLogger || name.startsWith (packageLogger ++ ".") then name
  else packageLogger ++ "." ++ name

/-- the logger name of a value given as a module name -/
def loggerNameOf (d : Datum) : Outcome String :=
  match d with
  | .str s => .ok (loggerName s)
  | other => refuse (.noAttribute other.typeName "startswith")

theorem loggerName_package : loggerName packageLogger = packageLogger := by decide

end MaxSatPrep
