/-!
# Blank characters

Two notions of a blank meet here. A JSON text may be padded with four characters
(`isJsonBlank`); a stored text counts as padded when it starts or ends with any of the 25
characters of the Unicode property `White_Space` (`isBlank`).
-/

namespace SchemaStore.Text

/-- The characters of the Unicode property `White_Space`. -/
def isBlank (c : Char) : Bool :=
  let n := c.toNat
  (0x9 ≤ n && n ≤ 0xD) || n == 0x20 || n == 0x85 || n == 0xA0 || n == 0x1680 ||
    (0x2000 ≤ n && n ≤ 0x200A) || n == 0x2028 || n == 0x2029 || n == 0x202F || n == 0x205F ||
    n == 0x3000

/-- The blanks JSON allows between tokens: space, line feed, carriage return and tab. -/
def isJsonBlank (c : Char) : Bool := c == ' ' || c == '\n' || c == '\r' || c == '\t'

/-- Drop the JSON blanks in front. -/
def skipBlanks (cs : List Char) : List Char := cs.dropWhile isJsonBlank

/-- The text starts or ends with a blank. -/
def isPadded (cs : List Char) : Bool := cs.head?.any isBlank || cs.getLast?.any isBlank

end SchemaStore.Text
