/-!
# Spans

A span says where a token or a message stands: file, first line and column, line and column behind
the end, and the offsets of the covered text. Every part may be missing; a token that was made up
rather than read has no part at all. The numbers are integers because spans may also be handed in
from outside, and nothing is asked of those.

`Span.join` is the operation that matters: it covers both spans, and a span without offsets is
absorbed.
-/

namespace InlineVariants

/-- Where something stands in a source text; every part may be unknown. -/
structure Span where
  file : Option String := none
  line : Option Int := none
  column : Option Int := none
  endLine : Option Int := none
  endColumn : Option Int := none
  /-- Offset of the first character. -/
  start : Option Int := none
  /-- Offset behind the last character. -/
  stop : Option Int := none
deriving DecidableEq, Repr, Inhabited

namespace Span

/-- The span of something that stands in no source text. -/
def unknown : Span := {}

/-- A span is known when both its offsets are. -/
def known (s : Span) : Bool := s.start.isSome && s.stop.isSome

/-- The first file name that is there and not empty; else whatever the second one is. -/
def namedFile (first second : Option String) : Option String :=
  match first with
  | some name => if name = "" then second else some name
  | none => second

/-- The span that covers both; a span that is not known is absorbed. -/
def join (s t : Span) : Span :=
  match s.start, s.stop, t.start, t.stop with
  | some a, some b, some c, some d =>
    let first := if a ≤ c then s else t
    let last := if a ≤ c then t else s
    { file := namedFile first.file last.file
      line := first.line
      column := first.column
      endLine := last.endLine
      endColumn := last.endColumn
      start := first.start
      stop := some (max b d) }
  | some _, some _, _, _ => s
  | _, _, _, _ => t

/-- The join of all spans of a list, from the left. -/
def joinAll (spans : List Span) : Span := spans.foldl join unknown

/-- A number of a span, or a question mark when it is missing. -/
def numberText : Option Int → String
  | some n => toString n
  | none => "?"

/-- Line and column of the beginning, as `line:column`. -/
def short (s : Span) : String := numberText s.line ++ ":" ++ numberText s.column

/-- The span itself when it is known, else the other one. -/
def orElse (s other : Span) : Span := if s.known then s else other

end Span

end InlineVariants
