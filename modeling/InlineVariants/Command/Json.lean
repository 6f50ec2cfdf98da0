import InlineVariants.Text.Quoted

/-!
# JSON on one line

Values are written with a space behind every comma and colon. Only printable ASCII characters are
written as they are; all others are escaped by their UTF-16 units.
-/

namespace InlineVariants.Command

/-- A JSON value. -/
inductive Json where
  | null
  | bool (b : Bool)
  | number (n : Int)
  | string (s : String)
  | array (items : List Json)
  | object (fields : List (String × Json))
deriving Repr, Inhabited

namespace Json

/-- An optional text. -/
def ofText? : Option String → Json
  | some s => .string s
  | none => .null

/-- An optional number. -/
def ofNumber? : Option Int → Json
  | some n => .number n
  | none => .null

/-- A UTF-16 unit as an escape. -/
def unit (n : Nat) : List Char := '\\' :: 'u' :: Text.hexDigits 4 n

/-- A character inside quotes. -/
def escape (c : Char) : List Char :=
  if c = '\x22' || c = '\\' then ['\\', c]
  else if c = '\n' then ['\\', 'n']
  else if c = '\r' then ['\\', 'r']
  else if c = '\t' then ['\\', 't']
  else if c = '\x08' then ['\\', 'b']
  else if c = '\x0c' then ['\\', 'f']
  else if ' ' ≤ c && c ≤ '~' then [c]
  else if c.toNat < 0x10000 then unit c.toNat
  else
    let n := c.toNat - 0x10000
    unit (0xd800 + n / 0x400) ++ unit (0xdc00 + n % 0x400)

/-- A text in quotes. -/
def quote (s : String) : List Char := '\x22' :: s.toList.flatMap escape ++ ['\x22']

mutual

/-- A value as text. -/
def text : Json → List Char
  | null => "null".toList
  | bool true => "true".toList
  | bool false => "false".toList
  | number n => (toString n).toList
  | string s => quote s
  | array items => '[' :: itemsText items ++ [']']
  | object fields => '\x7b' :: fieldsText fields ++ ['\x7d']

/-- The items of an array with commas between them. -/
def itemsText : List Json → List Char
  | [] => []
  | [item] => item.text
  | item :: items => item.text ++ ',' :: ' ' :: itemsText items

/-- The fields of an object with commas between them. -/
def fieldsText : List (String × Json) → List Char
  | [] => []
  | [(key, value)] => quote key ++ ':' :: ' ' :: value.text
  | (key, value) :: fields =>
    quote key ++ ':' :: ' ' :: value.text ++ ',' :: ' ' :: fieldsText fields

end

end Json

end InlineVariants.Command
