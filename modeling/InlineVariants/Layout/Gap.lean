import InlineVariants.Text.Blank
import InlineVariants.Text.Slice

/-!
# Gaps in the source text

The text between two tokens is copied only if it is trivia: a sequence of blanks, line comments
and block comments. A line comment may end anywhere in its line, and a block comment ends at any
closing mark behind its opening, so several readings of one text are possible. The text is trivia
if one reading works, and all readings are followed at once, as the set of states they are in.
-/

namespace InlineVariants.Layout

/-- The states of the readings of a text that may be trivia. -/
structure Readings where
  /-- Some reading is outside of comments. -/
  outside : Bool := false
  /-- Some reading has met the first slash of a comment. -/
  slash : Bool := false
  /-- Some reading is in a line comment. -/
  line : Bool := false
  /-- Some reading is in a block comment. -/
  block : Bool := false
  /-- Some reading is in a block comment, behind a star. -/
  star : Bool := false
deriving DecidableEq, Repr, Inhabited

namespace Readings

/-- Before the first character every reading is outside of comments. -/
def initial : Readings := { outside := true }

/-- The states behind one more character. -/
def step (r : Readings) (c : Char) : Readings :=
  let free := r.outside || r.line
  { outside := (free && Text.isBlank c) || (r.star && c == '/')
    slash := free && c == '/'
    line := (r.slash && c == '/') || (r.line && c != '\n')
    block := (r.slash && c == '*') || r.block
    star := r.block && c == '*' }

/-- Whether some reading may end here. -/
def accepting (r : Readings) : Bool := r.outside || r.line

end Readings

/-- Whether a text is a sequence of blanks and comments. -/
def isTrivia (cs : List Char) : Bool := (cs.foldl Readings.step Readings.initial).accepting

/-- Whether a text holds two given characters next to each other. -/
def holdsPair (a b : Char) : List Char → Bool
  | c :: d :: cs => (c == a && d == b) || holdsPair a b (d :: cs)
  | _ => false

/-- Whether a gap has a line break and no sign of a comment, so that it may be folded. -/
def isFoldable (gap : List Char) : Bool :=
  gap.contains '\n' && !holdsPair '/' '/' gap && !holdsPair '/' '*' gap

/-- The source text between two offsets, if both are there, in order, and only trivia between. -/
def sourceGap (source : Option (List Char)) (stop start : Option Int) : Option (List Char) :=
  match source, stop, start with
  | some cs, some a, some b =>
    if b < a then none
    else
      let gap := Text.slice cs a b
      if isTrivia gap then some gap else none
  | _, _, _ => none

end InlineVariants.Layout
