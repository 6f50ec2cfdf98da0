import InlineVariants.Variant.Cursor
import InlineVariants.Variant.Runs

/-!
# Reading variant definitions

The contents of a marker are attributes, a name, perhaps a group of fields, and perhaps a
discriminant:

    attribute* name ( "(" unnamed ")" | "{" named "}" )? ( "=" value )?

Braces select named fields and parentheses unnamed ones. A visibility in front of the name is
accepted and dropped. An entry that is malformed fails the whole list, and the error covers the
entry up to the next comma.
-/

namespace InlineVariants

namespace Reader

/-! ## Fields -/

/-- Takes the trees of a type. -/
def typeTrees : Reader (List Tree) := fun c =>
  let run := typeRun 0 c.ahead
  .ok run.1 (c.pass run.1 run.2)

/-- Takes the trees of a value. -/
def valueTrees : Reader (List Tree) := fun c =>
  let run := valueRun {} c.ahead
  .ok run.1 (c.pass run.1 run.2)

/-- Reads `type = value` of the entry that began at an index. -/
def typeAndValue (start : Nat) (label : FieldLabel) : Reader (List Tree × List Tree) := do
  let entry (c : Cursor) : Span := c.spanToSeparator start
  let type ← typeTrees
  if type.isEmpty then refuse (fun c => .expectedType label c.found) entry
  if (← eat? "=").isNone then refuse (fun c => .expectedValue label c.found) entry
  if let .error e := TypeExpr.ofTrees type then refuse (fun _ => .invalidType e.fault) entry
  let value ← valueTrees
  if value.isEmpty then refuse (fun _ => .expectedExpression label) entry
  return (type, value)

/-- Reads a named entry. -/
def namedEntry : Reader NamedField := do
  let start := (← get).pos
  let attributes ← attributes
  let name ← anchoredFrom start do
    let name ← name "field name"
    let _ ← expect ":" ("after field name `" ++ name.text ++ "`")
    return name
  let (type, value) ← typeAndValue start (.named name.text)
  return { attributes, name, type, value, span := (← get).spanSince start }

/-- Reads an unnamed entry, given its index. -/
def unnamedEntry (index : Nat) : Reader UnnamedField := do
  let start := (← get).pos
  let attributes ← attributes
  let (type, value) ← typeAndValue start (.position index)
  return { attributes, type, value, span := (← get).spanSince start }

/-- Takes the comma behind an entry and tells whether another entry follows. -/
def another : Reader Bool := do
  if (← get).atEnd then return false
  let _ ← expect "," "between fields"
  return !(← get).atEnd

/-- Reads entries with commas between them, at most a given number of them. -/
def entries (entry : Nat → Reader α) : (limit index : Nat) → Reader (List α)
  | 0, _ => return []
  | limit + 1, index => do
    if (← get).atEnd then return []
    let first ← entry index
    if ← another then return first :: (← entries entry limit (index + 1))
    return [first]

/-- Reads all entries of a level; there are at most as many as trees. -/
def allEntries (entry : Nat → Reader α) : Reader (List α) := do
  entries entry (← get).ahead.length 0

/-- Reads named fields. -/
def namedFields : Reader Fields := do return .named (← allEntries fun _ => namedEntry)

/-- Reads unnamed fields. -/
def unnamedFields : Reader Fields := do return .unnamed (← allEntries unnamedEntry)

/-! ## Variants -/

/-- Passes over a visibility: `pub`, or `pub` with a parenthesized restriction when a name follows
it. -/
def visibility : Reader Unit := fun c =>
  match c.ahead with
  | .ident "pub" span :: .group .paren inner parens :: .ident name nameSpan :: rest =>
    .ok () (c.pass [.ident "pub" span, .group .paren inner parens] (.ident name nameSpan :: rest))
  | .ident "pub" span :: rest => .ok () (c.pass [.ident "pub" span] rest)
  | _ => .ok () c

/-- Reads the fields of a variant, if a group for them comes next. -/
def fieldGroup : Reader Fields := fun c =>
  match c.ahead with
  | .group .brace inner span :: rest => inside .brace inner span rest namedFields c
  | .group .paren inner span :: rest => inside .paren inner span rest unnamedFields c
  | _ => .ok .unit c

/-- Reads the discriminant of a variant, if there is one. -/
def discriminant (name : String) : Reader (Option (List Tree)) := do
  match ← eat? "=" with
  | none => return none
  | some span =>
    let value ← valueTrees
    if value.isEmpty then refuse (fun _ => .expectedDiscriminant name) fun _ => span
    return some value

/-- Reads a variant definition that takes up the whole level. -/
def variant : Reader Variant := do
  let attributes ← attributes
  visibility
  let name ← name "variant name"
  let fields ← fieldGroup
  let discriminant ← discriminant name.text
  unless (← get).atEnd do refuse (fun c => .trailing c.found name.text) Cursor.here
  return { name, attributes, fields, discriminant, span := streamSpan (← get).stream }

end Reader

/-! ## Outcomes -/

/-- What became of reading a level: the value or the error, and the trees as they are now. -/
structure Outcome (α : Type) where
  result : Except GrammarError α
  stream : List Tree

/-- Runs a reader over the trees of a level. -/
def Reader.over (reader : Reader α) (stream : List Tree) (region : Span) : Outcome α :=
  match reader { ahead := stream, region := region } with
  | .ok a c => ⟨.ok a, c.stream⟩
  | .error e c => ⟨.error e, c.stream⟩

/-- Reads the contents of a marker. The span is that of the marker's group; when it is unknown,
errors at the end of the input point at the contents. -/
def Variant.parse (stream : List Tree) (span : Span := Span.unknown) : Outcome Variant :=
  Reader.variant.over stream (span.orElse (streamSpan stream))

/-- Reads a text as the contents of a marker. -/
def Variant.parseSource (text : List Char) (file : Option String := none) :
    Except GrammarError Variant :=
  match tokenize text file with
  | .ok stream => (Variant.parse stream).result
  | .error e => .error ⟨.notTokens e.fault, e.span⟩

end InlineVariants
