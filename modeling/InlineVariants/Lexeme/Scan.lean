import InlineVariants.Lexeme.Basic
import InlineVariants.Lexeme.Comment
import InlineVariants.Lexeme.Literal

/-!
# From text to lexemes

At every position the recognisers are tried in a fixed order and the first that answers wins, not
the longest. Where none answers, scanning is stuck at that character.
-/

namespace InlineVariants

/-- The outcome of scanning: the lexemes, and the character where scanning got stuck, if it did. -/
structure Scan where
  lexemes : List Lexeme := []
  stuck : Option (Text.Position × Char) := none
deriving Repr, Inhabited

namespace Lexeme

open Text

/-- Punctuation of three characters. -/
def triples : List String := ["<<=", ">>=", "..=", "..."]

/-- Punctuation of two characters. -/
def pairs : List String :=
  ["::", "->", "=>", "==", "!=", "<=", ">=", "&&", "||", "+=", "-=", "*=", "/=", "%=", "^=", "&=",
   "|=", ".."]

/-- Punctuation of one character. -/
def singles : List Char :=
  ['.', ',', ';', ':', '#', '$', '?', '~', '@', '=', '<', '>', '!', '+', '-', '*', '/', '%', '^',
   '&', '|']

/-- The class of a bracket character. -/
def bracket? : Char → Option LexemeClass
  | '(' => some (.opening .paren)
  | ')' => some (.closing .paren)
  | '[' => some (.opening .bracket)
  | ']' => some (.closing .bracket)
  | '\x7b' => some (.opening .brace)
  | '\x7d' => some (.closing .brace)
  | _ => none

/-- Punctuation or a bracket in front, longer ones first. -/
def symbol? (cs : List Char) : Option (LexemeClass × Nat) :=
  if triples.contains (String.ofList (cs.take 3)) then some (.punct, 3)
  else if pairs.contains (String.ofList (cs.take 2)) then some (.punct, 2)
  else match cs with
    | c :: _ => if singles.contains c then some (.punct, 1) else (bracket? c).map (·, 1)
    | [] => none

/-- The class and length of the lexeme in front. -/
def token? (cs : List Char) : Option (LexemeClass × Nat) :=
  ((string? cs).map (LexemeClass.string, ·)) <|>
  ((rawString? cs).map (LexemeClass.rawString, ·)) <|>
  ((char? cs).map (LexemeClass.char, ·)) <|>
  ((lifetime? cs).map (LexemeClass.lifetime, ·)) <|>
  ((number? cs).map (LexemeClass.number, ·)) <|>
  ((name? cs).map (LexemeClass.name, ·)) <|>
  symbol? cs


/-- Scans a text from the given position on. A stretch of trivia is passed over. -/
def scanFrom (p : Position) (cs : List Char) : Scan :=
  match cs with
  | [] => {}
  | c :: rest =>
    match trivia? (c :: rest) with
    | some n => scanFrom (p.advance ((c :: rest).take n)) (rest.drop (n - 1))
    | none =>
      match token? (c :: rest) with
      | some (cls, n) =>
        let text := (c :: rest).take n
        let stop := p.advance text
        let more := scanFrom stop (rest.drop (n - 1))
        { more with lexemes := ⟨cls, String.ofList text, p, stop⟩ :: more.lexemes }
      | none => { stuck := some (p, c) }
termination_by cs.length
decreasing_by all_goals simp only [List.length_cons, List.length_drop]; omega

/-- Scans a whole text. -/
def scan (cs : List Char) : Scan := scanFrom Position.first cs

end Lexeme

end InlineVariants
