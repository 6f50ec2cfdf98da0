/-!
# Positions in a text

A position is an offset together with its line and column. Lines and columns start at one, only a
line feed begins a new line, and every other character moves the column by one.
-/

namespace InlineVariants.Text

/-- A place between two characters of a text. -/
structure Position where
  offset : Nat
  line : Nat
  column : Nat
deriving DecidableEq, Repr, Inhabited

/-- The position in front of the first character. -/
def Position.first : Position := ⟨0, 1, 1⟩

/-- The position behind one more character. -/
def Position.next (p : Position) (c : Char) : Position :=
  if c = '\n' then ⟨p.offset + 1, p.line + 1, 1⟩ else ⟨p.offset + 1, p.line, p.column + 1⟩

/-- The position behind a stretch of text. -/
def Position.advance (p : Position) (cs : List Char) : Position := cs.foldl Position.next p

end InlineVariants.Text
