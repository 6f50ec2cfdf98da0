import InlineVariants.Text.Slice
import InlineVariants.Token.Build
import InlineVariants.Token.Keyword
import InlineVariants.TypeExpr.Parser
import InlineVariants.Variant.Basic

/-!
# A cursor over one level of trees

The grammar of markers is read with a cursor that sees a group as a single tree. A reader gives back
the cursor also when it fails, because what it has passed may have been changed on the way: a glued
`>=` stays split.
-/

namespace InlineVariants

/-! ## Faults -/

/-- How messages call a field. -/
inductive FieldLabel where
  | named (name : String)
  | position (index : Nat)
deriving DecidableEq, Repr, Inhabited

/-- The text of a label. -/
def FieldLabel.text : FieldLabel → String
  | named name => "field `" ++ name ++ "`"
  | position index => "field " ++ toString index

/-- Why the contents of a marker are refused; `found` describes the token that was met instead. -/
inductive GrammarFault where
  | expectedPunct (op context found : String)
  | expectedName (what found : String)
  | expectedBracket (found : String)
  | expectedType (label : FieldLabel) (found : String)
  | expectedValue (label : FieldLabel) (found : String)
  | expectedExpression (label : FieldLabel)
  | invalidType (fault : TypeFault)
  | expectedDiscriminant (name : String)
  | trailing (found name : String)
  | notTokens (fault : TokenFault)
deriving DecidableEq, Repr, Inhabited

/-- The wording of a fault. -/
def GrammarFault.message : GrammarFault → String
  | expectedPunct op context found =>
    "expected `" ++ op ++ "`" ++ (if context = "" then "" else " " ++ context) ++
      ", found " ++ found
  | expectedName what found => "expected " ++ what ++ ", found " ++ found
  | expectedBracket found => "expected `[` after `#`, found " ++ found
  | expectedType label found => "expected type for " ++ label.text ++ ", found " ++ found
  | expectedValue label found =>
    "expected `=` and a value after the type of " ++ label.text ++ ", found " ++ found
  | expectedExpression label => "expected expression after `=` for " ++ label.text
  | invalidType fault => "expected type: " ++ fault.message
  | expectedDiscriminant name =>
    "expected discriminant expression after `=` in `" ++ name ++ "`"
  | trailing found name => "unexpected token " ++ found ++ " after variant `" ++ name ++ "`"
  | notTokens fault => fault.message

/-- A fault and where it stands. -/
structure GrammarError where
  fault : GrammarFault
  span : Span
deriving DecidableEq, Repr, Inhabited

/-- The wording of an error. -/
def GrammarError.message (e : GrammarError) : String := e.fault.message

/-! ## The cursor -/

/-- A place in a list of trees. -/
structure Cursor where
  /-- The trees in front of the place, last one first. -/
  passed : List Tree := []
  /-- The trees behind the place. -/
  ahead : List Tree
  /-- The span of the enclosing region; errors at the end of the input point here. -/
  region : Span := Span.unknown
deriving Repr, Inhabited

namespace Cursor

/-- All trees of the level. -/
def stream (c : Cursor) : List Tree := c.passed.reverse ++ c.ahead

/-- How many trees have been passed. -/
def pos (c : Cursor) : Nat := c.passed.length

/-- The next tree. -/
def peek? (c : Cursor) : Option Tree := c.ahead.head?

/-- The tree at a distance from the place; the next tree is at distance zero. -/
def peekAt? (c : Cursor) (distance : Int) : Option Tree :=
  if distance < 0 then c.passed[(-distance - 1).toNat]? else c.ahead[distance.toNat]?

/-- Whether no tree is left. -/
def atEnd (c : Cursor) : Bool := c.ahead.isEmpty

/-- The description of the next tree. -/
def found (c : Cursor) : String := describeNext c.peek?

/-- The span of the next tree, or of the region when there is none or it has none. -/
def here (c : Cursor) : Span :=
  match c.ahead with
  | t :: _ => t.span.orElse c.region
  | [] => c.region

/-- The place behind some trees that were taken from the front. -/
def pass (c : Cursor) (taken rest : List Tree) : Cursor :=
  { c with passed := taken.reverse ++ c.passed, ahead := rest }

/-- The span of the trees from an index up to the place. -/
def spanSince (c : Cursor) (start : Int) : Span := streamSpan (Text.slice c.stream start c.pos)

/-- The span of the trees from an index up to the next separator or the end, or of the region when
those trees have none. -/
def spanToSeparator (c : Cursor) (start : Int) (sep : String := ",") : Span :=
  let stop := c.pos + (c.ahead.takeWhile fun t => !t.isPunct sep).length
  (streamSpan (Text.slice c.stream start stop)).orElse c.region

end Cursor

/-! ## Readers -/

/-- A reader of trees. It gives back the cursor also when it fails. -/
abbrev Reader (α : Type) := EStateM GrammarError Cursor α

namespace Reader

/-- Fails with a fault at a span that depends on the cursor. -/
def refuse (fault : Cursor → GrammarFault) (anchor : Cursor → Span) : Reader α :=
  fun c => .error ⟨fault c, anchor c⟩ c

/-- Moves the error of a reader: it covers the trees from an index up to the next separator. -/
def anchoredFrom (start : Nat) (reader : Reader α) : Reader α := fun c =>
  match reader c with
  | .ok a c' => .ok a c'
  | .error e c' => .error { e with span := c'.spanToSeparator start } c'

/-- Takes the next tree. -/
def next? : Reader (Option Tree) := fun c =>
  match c.ahead with
  | t :: rest => .ok (some t) (c.pass [t] rest)
  | [] => .ok none c

/-- Takes all trees that are left. -/
def rest : Reader (List Tree) := fun c => .ok c.ahead (c.pass c.ahead [])

/-- Takes the given punctuation, if it comes next, and tells where it stands. -/
def eat? (op : String) : Reader (Option Span) := fun c =>
  match c.ahead with
  | t :: rest => if t.isPunct op then .ok (some t.span) (c.pass [t] rest) else .ok none c
  | [] => .ok none c

/-- Takes the given punctuation, which has to come next. -/
def expect (op context : String) : Reader Span := do
  match ← eat? op with
  | some span => return span
  | none => refuse (fun c => .expectedPunct op context c.found) Cursor.here

/-- Takes an identifier that is no keyword, which has to come next. -/
def name (what : String) : Reader Name := fun c =>
  match c.ahead with
  | .ident text span :: rest =>
    if isKeyword text then refuse (fun c => .expectedName what c.found) Cursor.here c
    else .ok ⟨text, span⟩ (c.pass [.ident text span] rest)
  | _ => refuse (fun c => .expectedName what c.found) Cursor.here c

/-- Reads the trees of a group with a cursor of its own, and puts the group back as that cursor
leaves it. -/
def inside (d : Delimiter) (inner : List Tree) (span : Span) (rest : List Tree)
    (reader : Reader α) : Reader α := fun c =>
  match reader { ahead := inner, region := span } with
  | .ok a c' => .ok a (c.pass [.group d c'.stream span] rest)
  | .error e c' => .error e (c.pass [.group d c'.stream span] rest)

/-- Reads attributes from the trees ahead. -/
def attributesFrom (region : Span) :
    (passed ahead : List Tree) → EStateM.Result GrammarError Cursor (List Attribute)
  | passed, .punct "#" pound :: .group .bracket inner brackets :: ahead =>
    match attributesFrom region
        (.group .bracket inner brackets :: .punct "#" pound :: passed) ahead with
    | .ok attributes c => .ok (⟨pound, inner, brackets⟩ :: attributes) c
    | .error e c => .error e c
  | passed, .punct "#" pound :: ahead =>
    refuse (fun c => .expectedBracket c.found) Cursor.here
      ⟨.punct "#" pound :: passed, ahead, region⟩
  | passed, ahead => .ok [] ⟨passed, ahead, region⟩

/-- Reads any number of outer attributes `#[...]`. -/
def attributes : Reader (List Attribute) := fun c => attributesFrom c.region c.passed c.ahead

end Reader

end InlineVariants
