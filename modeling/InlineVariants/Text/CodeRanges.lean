/-!
# Sets of characters as ranges of code points

A class of characters is given by a list of ranges `(low, high)`, both ends included, in ascending
order and without overlap. Membership walks the list and stops at the first range that begins above
the code point.
-/

namespace InlineVariants.Text

/-- Ranges of code points, both ends included, in ascending order. -/
abbrev CodeRanges := List (Nat × Nat)

/-- Whether a code point lies in one of the ranges. -/
def CodeRanges.holds : CodeRanges → Nat → Bool
  | [], _ => false
  | (low, high) :: rest, code =>
    if code < low then false
    else if code ≤ high then true
    else CodeRanges.holds rest code

end InlineVariants.Text
