/-!
# Blanks

The white space of Unicode, and a text without the white space at its two ends.
-/

namespace MarkovDecision.Text

/-- White space: the blank, the controls that move the position, the separators of lines and
paragraphs, and the spaces of all widths. -/
def isBlank (c : Char) : Bool :=
  let n := c.toNat
  (9 ≤ n && n ≤ 13) || n == 0x20 || n == 0x85 || n == 0xa0 || n == 0x1680 ||
    (0x2000 ≤ n && n ≤ 0x200a) || n == 0x2028 || n == 0x2029 || n == 0x202f || n == 0x205f ||
    n == 0x3000

/-- The characters of a text without the white space at both ends. -/
def trimmed (cs : List Char) : List Char :=
  ((cs.dropWhile isBlank).reverse.dropWhile isBlank).reverse

end MarkovDecision.Text
