import InlineVariants.Lexeme.Scan
import InlineVariants.Text.Quoted

/-!
# From lexemes to trees

The lexemes of a text are folded into trees by matching brackets, one lexeme after the other. The
first fault in the order of the text is the one that is reported: a closing bracket that matches
nothing or the wrong thing, or the character where scanning got stuck. Only when there is neither is
a bracket that was never closed reported, and then the innermost one.
-/

namespace InlineVariants

/-- Why a text is no list of token trees. -/
inductive TokenFault where
  | unexpectedClosing (found : Delimiter)
  | mismatchedClosing (found expected : Delimiter) (opened : Text.Position)
  | unexpectedCharacter (c : Char)
  | unclosed (delimiter : Delimiter)
deriving DecidableEq, Repr, Inhabited

/-- The wording of a fault. -/
def TokenFault.message : TokenFault → String
  | unexpectedClosing found => "unexpected closing delimiter `" ++ found.closing ++ "`"
  | mismatchedClosing found expected opened =>
    "mismatched closing delimiter `" ++ found.closing ++ "`, expected `" ++ expected.closing ++
      "` (opened at " ++ toString opened.line ++ ":" ++ toString opened.column ++ ")"
  | unexpectedCharacter c => "unexpected character " ++ Text.quoted (String.singleton c)
  | unclosed delimiter => "unclosed delimiter `" ++ delimiter.opening ++ "`"

/-- A fault and where it stands. -/
structure TokenError where
  fault : TokenFault
  span : Span
deriving DecidableEq, Repr, Inhabited

/-- The wording of an error. -/
def TokenError.message (e : TokenError) : String := e.fault.message

namespace Lexeme

/-- The leaf of a lexeme that is no bracket. Keywords are identifiers here. -/
def leaf (file : Option String) (l : Lexeme) : Tree :=
  match l.cls with
  | .name => .ident l.text (l.span file)
  | .lifetime => .literal .lifetime l.text (l.span file)
  | .string => .literal .string l.text (l.span file)
  | .rawString => .literal .string l.text (l.span file)
  | .char => .literal .char l.text (l.span file)
  | .number => .literal .number l.text (l.span file)
  | _ => .punct l.text (l.span file)

end Lexeme

namespace Tree

/-- A group that is still open: its bracket, the lexeme that opened it, and the trees that stood in
front of it in the enclosing list, last one first. -/
structure OpenGroup where
  delimiter : Delimiter
  opener : Lexeme
  outer : List Tree
deriving Inhabited

/-- What is reported when all lexemes are used up. -/
def finish (file : Option String) (stuck : Option (Text.Position × Char))
    (groups : List OpenGroup) (current : List Tree) : Except TokenError (List Tree) :=
  match stuck, groups with
  | some (p, c), _ =>
    .error
      { fault := .unexpectedCharacter c
        span :=
          { file := file, line := some p.line, column := some p.column
            start := some p.offset, stop := some (p.offset + 1) } }
  | none, g :: _ => .error ⟨.unclosed g.delimiter, g.opener.span file⟩
  | none, [] => .ok current.reverse

/-- Folds lexemes into trees. The open groups are innermost first, the trees of the current list
last one first. -/
def build (file : Option String) (stuck : Option (Text.Position × Char)) :
    List OpenGroup → List Tree → List Lexeme → Except TokenError (List Tree)
  | groups, current, [] => finish file stuck groups current
  | groups, current, l :: ls =>
    match l.cls, groups with
    | .opening d, _ => build file stuck (⟨d, l, current⟩ :: groups) [] ls
    | .closing d, [] => .error ⟨.unexpectedClosing d, l.span file⟩
    | .closing d, g :: outerGroups =>
      if g.delimiter = d then
        let tree := group d current.reverse (Span.between file g.opener.start l.stop)
        build file stuck outerGroups (tree :: g.outer) ls
      else .error ⟨.mismatchedClosing d g.delimiter g.opener.start, l.span file⟩
    | _, _ => build file stuck groups (l.leaf file :: current) ls

end Tree

/-- Reads a source text as a list of token trees. -/
def tokenize (source : List Char) (file : Option String := none) :
    Except TokenError (List Tree) :=
  let scan := Lexeme.scan source
  Tree.build file scan.stuck [] [] scan.lexemes

end InlineVariants
