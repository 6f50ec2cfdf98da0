import InlineVariants.Token.Tree

/-!
# Simple paths and separated lists

A simple path is a sequence of identifiers with `::` between them and perhaps in front:
`a`, `a::b`, `::a::b`.
-/

namespace InlineVariants

/-- Whether the trees are any number of steps `:: name`. -/
def isPathTail : List Tree → Bool
  | [] => true
  | sep :: name :: rest => sep.isPunct "::" && name.isIdent && isPathTail rest
  | [_] => false

/-- Whether the trees are a name and then steps `:: name`. -/
def isRelativePath : List Tree → Bool
  | name :: rest => name.isIdent && isPathTail rest
  | [] => false

/-- Whether the trees are exactly a simple path. -/
def isPath : List Tree → Bool
  | first :: rest =>
    if first.isPunct "::" then isRelativePath rest else isRelativePath (first :: rest)
  | [] => false

/-- Joins lists of trees with a punctuation between them. -/
def separated (sep : String) : List (List Tree) → List Tree
  | [] => []
  | [item] => item
  | item :: rest => item ++ Tree.mark sep :: separated sep rest

/-- The trees of a path with the given segments. -/
def pathOf (segments : List String) : List Tree :=
  separated "::" (segments.map fun s => [Tree.word s])

/-- The trees of a path with the given segments and `::` in front. -/
def absolutePathOf (segments : List String) : List Tree := Tree.mark "::" :: pathOf segments

end InlineVariants
