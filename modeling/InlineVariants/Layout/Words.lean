import InlineVariants.Token.Tree

/-!
# The spaced form

The spaced form of a list of trees is its words with single spaces between them. It is a stable
input for reading the tokens once more: no two tokens can grow together. Invisible groups leave no
trace, and the two brackets of an empty group make up one word.
-/

namespace InlineVariants

/-- The word of a leaf; an empty text is no word. -/
def leafWords (text : String) : List String := if text = "" then [] else [text]

mutual

/-- The words of a tree. -/
def Tree.words : Tree → List String
  | .ident text _ => leafWords text
  | .punct op _ => leafWords op
  | .literal _ text _ => leafWords text
  | .group .invisible stream _ => streamWords stream
  | .group d stream _ =>
    match streamWords stream with
    | [] => [d.opening ++ d.closing]
    | ws => d.opening :: ws ++ [d.closing]

/-- The words of a list of trees. -/
def streamWords : List Tree → List String
  | [] => []
  | t :: ts => t.words ++ streamWords ts

end

/-- The trees as text with single spaces between all words. -/
def renderSpaced (trees : List Tree) : String := " ".intercalate (streamWords trees)

end InlineVariants
