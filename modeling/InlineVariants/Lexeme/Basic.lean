import InlineVariants.Text.Position
import InlineVariants.Token.Tree

/-!
# Lexemes

A lexeme is one token of the flat text: its class, its characters and its two ends. White space and
comments are no lexemes.
-/

namespace InlineVariants

/-- The classes of lexeme. -/
inductive LexemeClass where
  | name
  | lifetime
  | string
  | rawString
  | char
  | number
  | punct
  | opening (delimiter : Delimiter)
  | closing (delimiter : Delimiter)
deriving DecidableEq, Repr, Inhabited

/-- A token of the flat text. -/
structure Lexeme where
  cls : LexemeClass
  text : String
  start : Text.Position
  stop : Text.Position
deriving DecidableEq, Repr, Inhabited

/-- The span from one position to another. -/
def Span.between (file : Option String) (a b : Text.Position) : Span where
  file := file
  line := some a.line
  column := some a.column
  endLine := some b.line
  endColumn := some b.column
  start := some a.offset
  stop := some b.offset

/-- The span of a lexeme. -/
def Lexeme.span (file : Option String) (l : Lexeme) : Span := Span.between file l.start l.stop

end InlineVariants
