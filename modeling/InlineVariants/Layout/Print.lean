import InlineVariants.Layout.Gap
import InlineVariants.Layout.Spacing
import InlineVariants.Token.Tree

/-!
# Printing token trees

Two tokens that were neighbours in the source are separated by the source text between them, so
code that nobody touched comes out as it was. Everywhere else the spacing table decides. An
invisible group prints its contents in place of the source text that its span covers: the gap in
front of it is copied, its contents know no source neighbour in front of them, and behind it copying
goes on at the end of its span.
-/

namespace InlineVariants.Layout

/-- What the printer is told: the source text, if any, and whether gaps with a line break are
folded into conventional spacing. -/
structure Style where
  source : Option (List Char) := none
  fold : Bool := false
deriving Repr, Inhabited

/-- What the printer remembers between two tokens. -/
structure State where
  /-- The last token. -/
  last : Option Piece := none
  /-- The offset behind the last token, when it came from the source. -/
  stop : Option Int := none
  /-- Whether the gap in front of the next token is already there. -/
  gapDone : Bool := false
deriving Repr, Inhabited

/-- The text in front of a token. -/
def State.gap (style : Style) (st : State) (piece : Piece) (start : Option Int) : List Char :=
  if st.gapDone then []
  else match st.last with
    | none => []
    | some left =>
      match sourceGap style.source st.stop start with
      | none => spacing left piece
      | some gap => if style.fold && isFoldable gap then spacing left piece else gap

/-- Prints one token with the gap in front of it. -/
def emit (style : Style) (st : State) (piece : Piece) (start stop : Option Int) :
    List Char × State :=
  (st.gap style piece start ++ piece.text.toList, { last := some piece, stop := stop })

/-- The offsets in front of and behind an opening bracket; unknown unless the span is known. -/
def openEnds (s : Span) : Option Int × Option Int :=
  if s.known then (s.start, s.start.map (· + 1)) else (none, none)

/-- The offsets in front of and behind a closing bracket; unknown unless the span is known. -/
def closeEnds (s : Span) : Option Int × Option Int :=
  if s.known then (s.stop.map (· - 1), s.stop) else (none, none)

/-- The source gap in front of an invisible group, if there is one. -/
def invisibleGap (style : Style) (st : State) (s : Span) : Option (List Char) :=
  if s.known then sourceGap style.source st.stop s.start else none

mutual

/-- Prints a tree. -/
def tree (style : Style) : Tree → State → List Char × State
  | .ident text s, st => emit style st ⟨.ident, text⟩ s.start s.stop
  | .punct op s, st => emit style st ⟨.punct, op⟩ s.start s.stop
  | .literal _ text s, st => emit style st ⟨.literal, text⟩ s.start s.stop
  | .group .invisible stream s, st =>
    let gap := invisibleGap style st s
    let inner := trees style stream
      { st with stop := none, gapDone := gap.isSome || st.gapDone }
    (gap.getD [] ++ inner.1,
      { inner.2 with stop := if s.known then s.stop else inner.2.stop, gapDone := false })
  | .group d stream s, st =>
    let opened := emit style st ⟨.opening, d.opening⟩ (openEnds s).1 (openEnds s).2
    let inner := trees style stream opened.2
    let closed := emit style inner.2 ⟨.closing, d.closing⟩ (closeEnds s).1 (closeEnds s).2
    (opened.1 ++ (inner.1 ++ closed.1), closed.2)

/-- Prints a list of trees. -/
def trees (style : Style) : List Tree → State → List Char × State
  | [], st => ([], st)
  | t :: ts, st =>
    let first := tree style t st
    let rest := trees style ts first.2
    (first.1 ++ rest.1, rest.2)

end

end InlineVariants.Layout

namespace InlineVariants

/-- The text of a list of trees, with what the source says stands between neighbours. -/
def render (trees : List Tree) (source : Option (List Char) := none) (fold : Bool := false) :
    List Char :=
  (Layout.trees { source := source, fold := fold } trees {}).1

end InlineVariants
