import MaxSatPrep.Error
import MaxSatPrep.Text.Blank
import MaxSatPrep.Datum.Convert
/-!
Technique plans. A technique string names techniques by single characters; a bracketed group
repeats until none of its techniques changes the formula, a character outside brackets is a
group of one run once, and blanks and `#` between groups are skipped. The scan refuses, at the
first place it meets one, `#` inside a group, a group inside a group, a `]` without group and
an unclosed group.

A plan can also be read from any iterable value: its items take the place of the characters.
An item is a text; a text of blanks only is skipped like a blank, and any other text that is
not `#`, `[` or `]` names a technique, however long. An item that is not a text has no blank
test and stops the scan. The messages show the value as text.
-/

namespace MaxSatPrep

/-- a group of a plan: its technique names and whether it repeats until nothing changes -/
structure Group where
  letters : List String
  repeats : Bool
  deriving DecidableEq

/-- a plan: groups run in order -/
abbrev Plan := List Group

namespace Plan

/-- whether an item is skipped as blank: a non-empty text of blanks -/
def blankItem (t : String) : Bool := !t.isEmpty && t.toList.all Text.isBlank

/-- The scan of the items of a technique value shown as `s`, with the finished groups (last
first) and the names of the open group (last first), if one is open. -/
def scan (s : String) : List Datum → List Group → Option (List String) → Outcome Plan
  | [], done, none => .ok done.reverse
  | [], _, some _ => refuse (.unbalancedOpen s)
  | .str c :: cs, done, open? =>
    if blankItem c || c == "#" then
      if open?.isSome && c == "#" then refuse (.separatorInGroup s) else scan s cs done open?
    else if c == "[" then
      match open? with
      | some _ => refuse (.nestedGroup s)
      | none => scan s cs done (some [])
    else if c == "]" then
      match open? with
      | none => refuse (.unbalancedClose s)
      | some ls => scan s cs (⟨ls.reverse, true⟩ :: done) none
    else
      match open? with
      | some ls => scan s cs done (some (c :: ls))
      | none => scan s cs (⟨[c], false⟩ :: done) none
  | other :: _, _, _ => refuse (.noAttribute other.typeName "isspace")

/-- the plan of a technique string: its code points are the items -/
def parse (s : String) : Outcome Plan := scan s (Datum.textItems s) [] none

/-- the plan of a technique value: its items, which must be iterable -/
def ofDatum (d : Datum) : Outcome Plan :=
  match d.elements? with
  | some items => scan d.toText items [] none
  | none => refuse (.notIterable d.typeName)

theorem parse_empty : parse "" = .ok [] := rfl

theorem ofDatum_str (s : String) : ofDatum (.str s) = parse s := rfl

end Plan

end MaxSatPrep
