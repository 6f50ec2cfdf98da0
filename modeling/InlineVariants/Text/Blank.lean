import InlineVariants.Text.CodeRanges

/-!
# Blank characters

White space in the sense of the Unicode property, together with the four information separators
U+001C to U+001F. The zero-width space U+200B and the byte-order mark U+FEFF are not blank.
-/

namespace InlineVariants.Text

/-- The code points of the blank characters. -/
def blankRanges : CodeRanges :=
  [(0x9, 0xd), (0x1c, 0x20), (0x85, 0x85), (0xa0, 0xa0), (0x1680, 0x1680), (0x2000, 0x200a),
   (0x2028, 0x2029), (0x202f, 0x202f), (0x205f, 0x205f), (0x3000, 0x3000)]

/-- Whether a character is blank. -/
def isBlank (c : Char) : Bool := blankRanges.holds c.toNat

/-- The text without the blanks at its two ends. -/
def strip (cs : List Char) : List Char :=
  ((cs.dropWhile isBlank).reverse.dropWhile isBlank).reverse

end InlineVariants.Text
