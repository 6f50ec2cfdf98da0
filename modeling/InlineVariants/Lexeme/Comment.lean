import InlineVariants.Text.Blank

/-!
# Stretches that are skipped

Each recogniser looks at the front of a text and tells how many characters belong to the stretch,
or that there is none. Line comments end in front of the line feed. Block comments nest, but at most
three deep: a fourth opening inside means that there is no comment at all.
-/

namespace InlineVariants.Lexeme

/-- How many blanks stand in front. -/
def blanks? (cs : List Char) : Option Nat :=
  match cs.takeWhile Text.isBlank with
  | [] => none
  | run => some run.length

/-- The length of a line comment in front. -/
def lineComment? : List Char → Option Nat
  | '/' :: '/' :: cs => some ((cs.takeWhile (· != '\n')).length + 2)
  | _ => none

/-- How many levels of block comment may be open at once. -/
def commentLevels : Nat := 3

/-- The length of the rest of a block comment of which some levels are open. -/
def blockRest? : (levels : Nat) → List Char → Option Nat
  | _, [] => none
  | levels, '/' :: '*' :: cs =>
    if levels < commentLevels then (blockRest? (levels + 1) cs).map (· + 2) else none
  | levels, '*' :: '/' :: cs =>
    if levels ≤ 1 then some 2 else (blockRest? (levels - 1) cs).map (· + 2)
  | levels, _ :: cs => (blockRest? levels cs).map (· + 1)

/-- The length of a block comment in front. -/
def blockComment? : List Char → Option Nat
  | '/' :: '*' :: cs => (blockRest? 1 cs).map (· + 2)
  | _ => none

/-- The length of a stretch in front that is skipped. -/
def trivia? (cs : List Char) : Option Nat :=
  blockComment? cs <|> lineComment? cs <|> blanks? cs

end InlineVariants.Lexeme
