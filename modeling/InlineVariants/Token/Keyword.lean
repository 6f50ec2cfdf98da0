import InlineVariants.Token.Tree

/-!
# Keywords and descriptions

Strict and reserved keywords are read as identifiers but may not name a variant or a field. The
description of a token is what messages say about a token that stands in the wrong place.
-/

namespace InlineVariants

/-- The words that may not be used as names. -/
def keywords : List String :=
  ["as", "async", "await", "break", "const", "continue", "crate", "dyn",
   "else", "enum", "extern", "false", "fn", "for", "if", "impl", "in",
   "let", "loop", "match", "mod", "move", "mut", "pub", "ref", "return",
   "self", "Self", "static", "struct", "super", "trait", "true", "type",
   "unsafe", "use", "where", "while", "abstract", "become", "box", "do",
   "final", "macro", "override", "priv", "typeof", "unsized", "virtual",
   "yield", "try", "_"]

/-- Whether a word is a keyword. -/
def isKeyword (text : String) : Bool := keywords.contains text

namespace Tree

/-- Whether a tree is an identifier that may be used as a name. -/
def isName : Tree → Bool
  | ident text _ => !isKeyword text
  | _ => false

/-- What messages say about a tree. -/
def describe : Tree → String
  | ident text _ => if isKeyword text then "keyword `" ++ text ++ "`" else "`" ++ text ++ "`"
  | punct op _ => "`" ++ op ++ "`"
  | literal _ text _ => "literal `" ++ text ++ "`"
  | group .invisible _ _ => "expression"
  | group d _ _ => "`" ++ d.opening ++ "`"

end Tree

/-- What messages say about the next tree, or about the end of the input. -/
def describeNext : Option Tree → String
  | some t => t.describe
  | none => "end of input"

end InlineVariants
