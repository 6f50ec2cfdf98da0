import InlineVariants.Text.Alphanumeric

/-!
# Names, numbers and quoted literals

Each recogniser looks at the front of a text and tells how many characters belong to the token, or
that there is none. No recogniser ever has to reconsider: at every character one continuation is
left.
-/

namespace InlineVariants.Lexeme

open Text

/-! ## Names and lifetimes -/

/-- The length of a plain name in front. -/
def plainName? : List Char → Option Nat
  | c :: cs => if isNameStart c then some ((cs.takeWhile isNameChar).length + 1) else none
  | [] => none

/-- The length of a name in front, which may be raw: `r#name`. -/
def name? : List Char → Option Nat
  | 'r' :: '#' :: cs => ((plainName? cs).map (· + 2)) <|> plainName? ('r' :: '#' :: cs)
  | cs => plainName? cs

/-- The length of a lifetime in front. -/
def lifetime? : List Char → Option Nat
  | '\x27' :: cs => (name? cs).map (· + 1)
  | _ => none

/-! ## Strings -/

/-- The length of the rest of a string, through its closing quote. A backslash takes the next
character with it. -/
def stringRest? : List Char → Option Nat
  | [] => none
  | ['\\'] => none
  | '\\' :: _ :: cs => (stringRest? cs).map (· + 2)
  | '\x22' :: _ => some 1
  | _ :: cs => (stringRest? cs).map (· + 1)

/-- The length of a string or byte string in front. -/
def string? : List Char → Option Nat
  | '\x22' :: cs => (stringRest? cs).map (· + 1)
  | 'b' :: '\x22' :: cs => (stringRest? cs).map (· + 2)
  | _ => none

/-- How many hashes a raw string may have at most. -/
def maxHashes : Nat := 3

/-- The length of the rest of a raw string, through its closing quote and hashes. -/
def rawRest? (hashes : Nat) : List Char → Option Nat
  | [] => none
  | c :: cs =>
    if c = '\x22' && cs.take hashes == List.replicate hashes '#' then some (hashes + 1)
    else (rawRest? hashes cs).map (· + 1)

/-- The length of what follows the `r` of a raw string: hashes, quote, text, quote, hashes. -/
def rawBody? (cs : List Char) : Option Nat :=
  let hashes := (cs.takeWhile (· == '#')).length
  match cs.drop hashes with
  | '\x22' :: rest =>
    if hashes ≤ maxHashes then (rawRest? hashes rest).map (· + (hashes + 1)) else none
  | _ => none

/-- The length of a raw string or raw byte string in front. -/
def rawString? : List Char → Option Nat
  | 'r' :: cs => (rawBody? cs).map (· + 1)
  | 'b' :: 'r' :: cs => (rawBody? cs).map (· + 2)
  | _ => none

/-! ## Characters -/

/-- Whether a character is an ASCII hexadecimal digit. -/
def isHexDigit (c : Char) : Bool :=
  ('0' ≤ c && c ≤ '9') || ('a' ≤ c && c ≤ 'f') || ('A' ≤ c && c ≤ 'F')

/-- Whether a character may follow a backslash as a complete escape. -/
def isSimpleEscape (c : Char) : Bool := ['n', 'r', 't', '0', '\x27', '\x22', '\\'].contains c

/-- The length of what follows the backslash of an escape. -/
def escape? : List Char → Option Nat
  | 'x' :: a :: b :: _ => if isHexDigit a && isHexDigit b then some 3 else none
  | 'u' :: '\x7b' :: cs =>
    let digits := (cs.takeWhile fun c => isHexDigit c || c == '_').length
    if 1 ≤ digits && digits ≤ 6 && (cs.drop digits).head? == some '\x7d' then some (digits + 3)
    else none
  | c :: _ => if isSimpleEscape c then some 1 else none
  | [] => none

/-- The length of the single character or escape of a character literal. -/
def charBody? : List Char → Option Nat
  | '\\' :: cs => (escape? cs).map (· + 1)
  | c :: _ => if c = '\x27' || c = '\r' || c = '\n' then none else some 1
  | [] => none

/-- The length of a character literal in front, without a `b`. -/
def plainChar? : List Char → Option Nat
  | '\x27' :: cs =>
    match charBody? cs with
    | some n => if (cs.drop n).head? == some '\x27' then some (n + 2) else none
    | none => none
  | _ => none

/-- The length of a character or byte literal in front. -/
def char? : List Char → Option Nat
  | 'b' :: cs => (plainChar? cs).map (· + 1)
  | cs => plainChar? cs

/-! ## Numbers -/

/-- Whether a character is an ASCII decimal digit. -/
def isDigit (c : Char) : Bool := '0' ≤ c && c ≤ '9'

/-- Whether a character is an ASCII decimal digit or an underscore. -/
def isDigitOrMark (c : Char) : Bool := isDigit c || c == '_'

/-- Whether a character may begin the suffix of a number. -/
def isSuffixStart (c : Char) : Bool :=
  ('a' ≤ c && c ≤ 'z') || ('A' ≤ c && c ≤ 'Z') || c == '_'

/-- The length of the suffix of a number; zero when there is none. -/
def suffixLength : List Char → Nat
  | c :: cs =>
    if isSuffixStart c then (cs.takeWhile fun d => isSuffixStart d || isDigit d).length + 1 else 0
  | [] => 0

/-- The digits that a base prefix allows. -/
def baseDigit? : Char → Option (Char → Bool)
  | 'x' => some fun c => isHexDigit c || c == '_'
  | 'o' => some fun c => ('0' ≤ c && c ≤ '7') || c == '_'
  | 'b' => some fun c => c == '0' || c == '1' || c == '_'
  | _ => none

/-- The length of a number with a base prefix, without suffix. -/
def basedNumber? : List Char → Option Nat
  | '0' :: b :: cs =>
    match baseDigit? b with
    | some isBaseDigit =>
      match cs.takeWhile isBaseDigit with
      | [] => none
      | digits => some (digits.length + 2)
    | none => none
  | _ => none

/-- The length of the digits of a fraction, the point included; zero when there is none. -/
def fractionLength : List Char → Nat
  | '.' :: d :: cs => if isDigit d then (cs.takeWhile isDigitOrMark).length + 2 else 0
  | _ => 0

/-- The length of the sign of an exponent; zero when there is none. -/
def signLength : List Char → Nat
  | '+' :: _ => 1
  | '-' :: _ => 1
  | _ => 0

/-- The length of an exponent; zero when there is none. -/
def exponentLength : List Char → Nat
  | c :: cs =>
    if c == 'e' || c == 'E' then
      let sign := signLength cs
      match (cs.drop sign).takeWhile isDigitOrMark with
      | [] => 0
      | digits => digits.length + sign + 1
    else 0
  | [] => 0

/-- The length of a decimal number with fraction and exponent, without suffix. -/
def decimalNumber? : List Char → Option Nat
  | c :: cs =>
    if isDigit c then
      let whole := (cs.takeWhile isDigitOrMark).length
      let afterWhole := cs.drop whole
      let fraction := fractionLength afterWhole
      some (whole + 1 + fraction + exponentLength (afterWhole.drop fraction))
    else none
  | [] => none

/-- The length of a number in front. -/
def number? (cs : List Char) : Option Nat :=
  (basedNumber? cs <|> decimalNumber? cs).map fun n => n + suffixLength (cs.drop n)

end InlineVariants.Lexeme
