/-!
# Blanks and fields

The characters that separate the fields of a text are those with the Unicode property
`White_Space`.  `fields` cuts a text at them; a field is never empty and holds no blank.
-/

namespace Lindenmayer.Text

/-- Whether a character has the Unicode property `White_Space`. -/
def isBlank (c : Char) : Bool :=
  let n := c.toNat
  (0x09 ≤ n && n ≤ 0x0D) || n == 0x20 || n == 0x85 || n == 0xA0 || n == 0x1680 ||
    (0x2000 ≤ n && n ≤ 0x200A) || n == 0x2028 || n == 0x2029 || n == 0x202F || n == 0x205F ||
    n == 0x3000

/-- The maximal runs of characters that are not blank, in order. -/
def fields (cs : List Char) : List (List Char) :=
  (cs.splitOnP isBlank).filter fun field => !field.isEmpty

end Lindenmayer.Text
