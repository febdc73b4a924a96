/-! # Blank characters

The characters that titles are trimmed of: the Unicode white space together with the four
information separators. Zero-width space, the byte order mark and the Mongolian vowel separator are
not blank, so they survive trimming. Numerals are trimmed of the same characters except the
information separators.
-/

namespace Limn.Text

/-- The Unicode white space, which is what may stand around a numeral. -/
def isNumeralBlank (c : Char) : Bool :=
  let n := c.toNat
  (0x09 ≤ n && n ≤ 0x0d) || n == 0x20 || n == 0x85 || n == 0xa0 || n == 0x1680 ||
    (0x2000 ≤ n && n ≤ 0x200a) || n == 0x2028 || n == 0x2029 || n == 0x202f || n == 0x205f ||
    n == 0x3000

/-- The characters removed from both ends of a title. -/
def isBlank (c : Char) : Bool :=
  isNumeralBlank c || (0x1c ≤ c.toNat && c.toNat ≤ 0x1f)

/-- Drop the members of a class at both ends of a list. -/
def trimWhile {α : Type} (p : α → Bool) (row : List α) : List α :=
  ((row.dropWhile p).reverse.dropWhile p).reverse

def trim (s : String) : String :=
  String.ofList (trimWhile isBlank s.toList)

/-- The characters of a numeral without those that may stand around it. -/
def trimNumeral (cs : List Char) : List Char :=
  trimWhile isNumeralBlank cs

end Limn.Text
