/-!
Lines of a text as a reader of an output stream splits them. A line ends at a newline, a
return, a return followed by a newline, a line tabulation, a form feed, the file, group and
record separators, the next-line character, or the line and paragraph separators. A break at
the very end opens no further line, so text printed line by line splits back into its lines
when none of them holds a break.
-/

namespace MaxSatPrep

namespace Text

/-- whether a character ends a line -/
def isLineBreak (c : Char) : Bool :=
  let n := c.toNat
  (0x0a ≤ n && n ≤ 0x0d) || (0x1c ≤ n && n ≤ 0x1e) || n == 0x85 || n == 0x2028 || n == 0x2029

/-- the lines of the characters `cs` after a started line, whose characters are `cur`, last
first -/
def linesFrom : List Char → List Char → List String
  | [], cur => if cur.isEmpty then [] else [String.ofList cur.reverse]
  | '\r' :: '\n' :: rest, cur => String.ofList cur.reverse :: linesFrom rest []
  | c :: rest, cur =>
    if isLineBreak c then String.ofList cur.reverse :: linesFrom rest []
    else linesFrom rest (c :: cur)

/-- the lines of a text -/
def splitLines (s : String) : List String := linesFrom s.toList []

/-- the lines of texts printed one after the other, each ended by a newline -/
def printedLines (ls : List String) : List String :=
  splitLines (String.join (ls.map (· ++ "\n")))

theorem splitLines_empty : splitLines "" = [] := rfl

example : splitLines "o x\x0cy\x1d\ns\n" = ["o x", "y", "", "s"] := by decide

end Text

end MaxSatPrep
