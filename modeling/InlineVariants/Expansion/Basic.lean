import InlineVariants.Expansion.Item

/-!
# Expanding a source text

All annotated items of a text, at every depth, are found in one pass over its trees, and their edits
are applied to the text. What belongs to an item is not searched for further items. A text that
cannot be read as trees is left as it is, with one diagnostic.
-/

namespace InlineVariants

/-- The name of the attribute that marks functions, unless another one is asked for. -/
def defaultTag : String := "err_as_you_go"

/-- What became of a source text. -/
structure Expansion where
  text : List Char
  diagnostics : List Diagnostic := []
  functions : List FunctionReport := []
  events : List ExpansionEvent := []
deriving Repr, Inhabited

mutual

/-- The annotated items inside a tree. -/
def itemsInTree (source : List Char) (tag : String) : Tree → List ItemOutcome
  | .group _ stream _ => itemsIn source tag 0 [] stream
  | .ident _ _ => []
  | .punct _ _ => []
  | .literal _ _ _ => []

/-- The annotated items in a list of trees, of which the first `skip` belong to an item that has
been found; the trees in front of the list are last one first. -/
def itemsIn (source : List Char) (tag : String) :
    (skip : Nat) → (behind : List Tree) → List Tree → List ItemOutcome
  | _, _, [] => []
  | skip + 1, behind, t :: rest => itemsIn source tag skip (t :: behind) rest
  | 0, behind, t :: rest =>
    match itemAt? source tag behind (t :: rest) with
    | some (outcome, width) => outcome :: itemsIn source tag (width - 1) (t :: behind) rest
    | none => itemsInTree source tag t ++ itemsIn source tag 0 (t :: behind) rest

end

namespace Expansion

/-- Whether no diagnostic is an error. -/
def ok (e : Expansion) : Bool := !Diagnostic.anyError e.diagnostics

/-- Applies what became of the items to the text. -/
def ofItems (source : List Char) (items : List ItemOutcome) : Expansion where
  text := Edit.applyAll source (items.map ItemOutcome.edit)
  diagnostics := items.flatMap ItemOutcome.diagnostics
  functions := items.filterMap ItemOutcome.function
  events := items.flatMap ItemOutcome.events

/-- The outcome for a text that cannot be read as trees. -/
def unreadable (source : List Char) (file : Option String) (e : TokenError) : Expansion where
  text := source
  diagnostics :=
    [{ message := e.message, code := some "E-LEX", phase := some "lex", span := e.span }]
  events := [.notTokens ((Span.namedFile file (some "<input>")).getD "<input>") e.message]

end Expansion

/-- Expands every function of a source text that is marked by the tag. -/
def expandSource (source : List Char) (file : Option String := none) (tag : String := defaultTag) :
    Expansion :=
  match tokenize source file with
  | .error e => .unreadable source file e
  | .ok trees => .ofItems source (itemsIn source tag 0 [] trees)

end InlineVariants
