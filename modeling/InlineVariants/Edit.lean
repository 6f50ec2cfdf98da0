import InlineVariants.Token.Tree

/-!
# Edits of a text

An edit replaces the characters between two offsets. A list of edits is applied from right to left,
so that the offsets of the edits that are left stay valid.
-/

namespace InlineVariants

/-- A replacement of the characters from one offset up to another. -/
structure Edit where
  start : Nat
  stop : Nat
  replacement : List Char
deriving DecidableEq, Repr, Inhabited

/-- The offset where a span begins; zero when it is unknown. -/
def Span.startOffset (s : Span) : Nat := (s.start.getD 0).toNat

/-- The offset where a span ends; zero when it is unknown. -/
def Span.stopOffset (s : Span) : Nat := (s.stop.getD 0).toNat

namespace Edit

/-- The text after one edit. -/
def apply (text : List Char) (e : Edit) : List Char :=
  text.take e.start ++ e.replacement ++ text.drop e.stop

/-- The order of texts, by the codes of their characters. -/
def textLe : List Char → List Char → Bool
  | [], _ => true
  | _ :: _, [] => false
  | a :: as, b :: bs => if a = b then textLe as bs else decide (a.toNat < b.toNat)

/-- The order of edits: by beginning, then by end, then by replacement. -/
def le (a b : Edit) : Bool :=
  if a.start ≠ b.start then decide (a.start < b.start)
  else if a.stop ≠ b.stop then decide (a.stop < b.stop)
  else textLe a.replacement b.replacement

/-- The text after a list of edits, which are applied from right to left. -/
def applyAll (text : List Char) (edits : List Edit) : List Char :=
  (edits.mergeSort fun a b => b.le a).foldl apply text

end Edit

end InlineVariants
