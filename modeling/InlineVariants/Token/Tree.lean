import InlineVariants.Span

/-!
# Token trees

A source text is read as a tree: leaves are identifiers, punctuation and literals, and every
delimited region is a group that holds the trees between its delimiters. Nothing below the level of
tokens is understood unless somebody asks for it, so types and expressions travel as plain lists of
trees.

Invisible groups never come from source text. A replacement is wrapped in one, so that it takes a
single place in the tree whose span is the text it replaces.
-/

namespace InlineVariants

/-- The kinds of bracket around a group; an invisible group has none. -/
inductive Delimiter where
  | paren
  | brace
  | bracket
  | invisible
deriving DecidableEq, Repr, Inhabited

namespace Delimiter

/-- The opening bracket. -/
def opening : Delimiter → String
  | paren => "("
  | brace => "\x7b"
  | bracket => "["
  | invisible => ""

/-- The closing bracket. -/
def closing : Delimiter → String
  | paren => ")"
  | brace => "\x7d"
  | bracket => "]"
  | invisible => ""

end Delimiter

/-- The kinds of literal token. Lifetimes count as literals. -/
inductive LiteralKind where
  | string
  | char
  | number
  | lifetime
  | other
deriving DecidableEq, Repr, Inhabited

/-- A token tree. The span of a group covers its delimiters. -/
inductive Tree where
  | ident (text : String) (span : Span)
  | punct (op : String) (span : Span)
  | literal (kind : LiteralKind) (text : String) (span : Span)
  | group (delimiter : Delimiter) (stream : List Tree) (span : Span)
deriving Repr, Inhabited

/-- A name together with the place where it is written. -/
structure Name where
  text : String
  span : Span := Span.unknown
deriving DecidableEq, Repr, Inhabited

/-- The identifier token of a name. -/
def Name.tree (n : Name) : Tree := .ident n.text n.span

namespace Tree

/-- The span of a tree. -/
def span : Tree → Span
  | ident _ s => s
  | punct _ s => s
  | literal _ _ s => s
  | group _ _ s => s

/-- Whether a tree is any identifier token, keywords included. -/
def isIdent : Tree → Bool
  | ident _ _ => true
  | _ => false

/-- Whether a tree is the identifier token with the given text. -/
def isWord (text : String) : Tree → Bool
  | ident t _ => t == text
  | _ => false

/-- Whether a tree is the given punctuation. -/
def isPunct (op : String) : Tree → Bool
  | punct o _ => o == op
  | _ => false

/-- Whether a tree is a group with the given delimiter. -/
def isGroup (d : Delimiter) : Tree → Bool
  | group e _ _ => e == d
  | _ => false

/-- Punctuation that was made up and stands in no source text. -/
def mark (op : String) : Tree := punct op Span.unknown

/-- An identifier that was made up and stands in no source text. -/
def word (text : String) : Tree := ident text Span.unknown

end Tree

/-- The span that covers all trees of a list; unknown when none of them has a known span. -/
def streamSpan (trees : List Tree) : Span := Span.joinAll (trees.map Tree.span)

mutual

/-- How deep groups are nested in a tree. -/
def Tree.depth : Tree → Nat
  | .ident _ _ => 0
  | .punct _ _ => 0
  | .literal _ _ _ => 0
  | .group _ stream _ => depthOf stream + 1

/-- How deep groups are nested in a list of trees. -/
def depthOf : List Tree → Nat
  | [] => 0
  | t :: ts => max t.depth (depthOf ts)

end

end InlineVariants
