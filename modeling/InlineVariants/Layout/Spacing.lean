/-!
# Conventional spacing

Where no source text says what stands between two tokens, a table decides whether there is a space:
`a::b`, `f(x, y)`, `#[attr]`, and blanks inside braces but not inside other brackets.
-/

namespace InlineVariants.Layout

/-- What the spacing of a token depends on beside its text. -/
inductive Kind where
  | ident
  | punct
  | literal
  | opening
  | closing
deriving DecidableEq, Repr, Inhabited

/-- A token as the spacing table sees it. -/
structure Piece where
  kind : Kind
  text : String
deriving DecidableEq, Repr, Inhabited

/-- Punctuation that never has a space in front. -/
def tightBefore : List String := [",", ";", ":", ".", "?"]

/-- Punctuation that never has a space behind. -/
def tightAfter : List String := ["::", ".", "#", "$"]

/-- Whether a space stands between two neighbouring tokens. -/
def needsSpace (left right : Piece) : Bool :=
  if left.kind = .opening then left.text == "\x7b" && right.kind != .closing
  else if right.kind = .closing then right.text == "\x7d"
  else if left.kind = .punct && tightAfter.contains left.text then false
  else match right.kind with
    | .punct =>
      if tightBefore.contains right.text then false
      else if right.text = "::" then
        left.kind != .ident && left.kind != .closing && left.text != ">"
      else if right.text = "!" then left.kind != .ident
      else true
    | .opening =>
      if right.text = "\x7b" then true
      else if left.kind = .ident || left.kind = .closing then false
      else !(left.kind == .punct && ["!", "#", ">"].contains left.text)
    | _ => !(left.kind == .punct && ["!", "&"].contains left.text)

/-- The conventional text between two neighbouring tokens. -/
def spacing (left right : Piece) : List Char := if needsSpace left right then [' '] else []

end InlineVariants.Layout
