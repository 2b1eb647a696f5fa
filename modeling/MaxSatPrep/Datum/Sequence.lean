import MaxSatPrep.Datum.Convert
/-!
Values used where the language wants a position in a list, a repetition count, a range bound or
a pair to unpack. A position is an integer (a boolean counts as 0 or 1), counted from the back
when negative; it must name an item, and it must fit into 64 bits. A repetition count is an
integer too: a count of zero or below repeats nothing, and one beyond 64 bits or beyond what
memory holds is refused. Unpacking an item into two names iterates it and needs exactly two
values.
-/

namespace MaxSatPrep

namespace Datum

/-- the least integer beyond the signed 64-bit integers -/
def wordBound : Int := Int.ofNat (Nat.pow 2 63)

/-- the most items a repetition builds before memory runs out -/
def repeatLimit : Int := Int.ofNat (Nat.pow 2 32)

/-- the integer a position or count is given by: an integer, or a boolean as 0 or 1 -/
def wholeOf? : Datum → Option Int
  | .bool b => some (if b then 1 else 0)
  | .int n => some n
  | _ => none

/-- The item a position names in a list of `n` items: a position below zero counts from the
back. -/
def position (i : Datum) (n : Nat) : Outcome Nat :=
  match wholeOf? i with
  | none => refuse (.indexType i.typeName)
  | some k =>
    if wordBound ≤ k || k < -wordBound then refuse .indexTooLarge
    else
      let p : Int := if k < 0 then n + k else k
      if 0 ≤ p && p < n then .ok p.toNat else refuse .indexOutOfRange

/-- the item of a list at a position -/
def itemAt {α : Type} (xs : List α) (i : Datum) : Outcome α := do
  let p ← position i xs.length
  match xs[p]? with
  | some x => pure x
  | none => refuse .indexOutOfRange

/-- the item of a list at a position below its length, and `past` at any other -/
def itemOr {α : Type} (xs : List α) (i : Datum) (past : α) : Outcome α := do
  if ← less i (.int xs.length) then itemAt xs i else pure past

/-- a list replaced at a position -/
def setAt {α : Type} (xs : List α) (i : Datum) (x : α) : Outcome (List α) := do
  let p ← position i xs.length
  pure (xs.set p x)

/-- `n` zeros, as a one-zero list repeated `n` times makes them -/
def zeros (n : Datum) : Outcome (List Datum) :=
  match wholeOf? n with
  | none => refuse (.repeatType n.typeName)
  | some k =>
    if wordBound ≤ k || k < -wordBound then refuse .repeatTooLarge
    else if repeatLimit < k then refuse .repeatExhausts
    else .ok (List.replicate k.toNat (.int 0))

/-- the integer a range runs to: an integer, or a boolean as 0 or 1 -/
def rangeBound (n : Datum) : Outcome Int :=
  match wholeOf? n with
  | some k => .ok k
  | none => refuse (.notAnInteger n.typeName)

/-- the two values an item is unpacked to -/
def unpackPair (d : Datum) : Outcome (Datum × Datum) :=
  match d.elements? with
  | none => refuse (.notUnpackable d.typeName)
  | some [a, b] => .ok (a, b)
  | some xs => if 2 < xs.length then refuse (.tooManyToUnpack 2)
    else refuse (.notEnoughToUnpack 2 xs.length)

/-- a value that can be a member of a set or a key of a mapping: lists and objects cannot -/
def hashable (d : Datum) : Outcome Datum :=
  match d with
  | .list _ | .obj _ => refuse (.unhashable d.typeName)
  | _ => .ok d

/-- whether a value is a member of a set given by its members -/
def memberOf (d : Datum) (xs : List Datum) : Bool := xs.any (memberEq d)

end Datum

end MaxSatPrep
