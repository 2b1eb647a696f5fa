/-!
Blank characters. Two sets are in use: `isBlank`, the characters that a technique string skips
and that number texts may be surrounded by (Unicode white space together with the four ASCII
information separators), and `isWhiteSpace`, the Unicode `White_Space` property alone, which
bounds the numerals of lax document checks.
-/

namespace MaxSatPrep

namespace Text

/-- the Unicode `White_Space` characters -/
def isWhiteSpace (c : Char) : Bool :=
  let n := c.toNat
  (0x09 ≤ n && n ≤ 0x0d) || n == 0x20 || n == 0x85 || n == 0xa0 || n == 0x1680 ||
  (0x2000 ≤ n && n ≤ 0x200a) || n == 0x2028 || n == 0x2029 || n == 0x202f || n == 0x205f ||
  n == 0x3000

/-- blank characters: Unicode white space and the information separators U+001C to U+001F -/
def isBlank (c : Char) : Bool :=
  isWhiteSpace c || (0x1c ≤ c.toNat && c.toNat ≤ 0x1f)

/-- drops the characters of a class from both ends of a text -/
def trimWith (p : Char → Bool) (s : String) : String :=
  String.ofList ((((s.toList.dropWhile p).reverse).dropWhile p).reverse)

theorem isWhiteSpace_isBlank {c : Char} (h : isWhiteSpace c = true) : isBlank c = true := by
  simp [isBlank, h]

example : isBlank ' ' = true ∧ isBlank '　' = true ∧ isBlank '\x1c' = true ∧
    isWhiteSpace '\x1c' = false ∧ isBlank 'a' = false := by decide

end Text

end MaxSatPrep
