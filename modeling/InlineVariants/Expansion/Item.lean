import InlineVariants.Edit
import InlineVariants.ErrorType
import InlineVariants.Expansion.Enum
import InlineVariants.Function
import InlineVariants.Marker

/-!
# Annotated items

An item is annotated by an attribute with a given name, its tag. When the item is a function, its
options can be read and its return type names an error type, it is expanded: the enum is put in
front, the attribute is dropped, and the markers of the body are replaced. Otherwise the attribute
is dropped, the item is left as it is, and the reason is reported. Either way there is one edit.
-/

namespace InlineVariants

/-- What happened to one annotated function. -/
structure FunctionReport where
  name : String
  errorType : Option String := none
  variants : List String := []
  expanded : Bool := false
deriving DecidableEq, Repr, Inhabited

/-- What happened on the way, for those who want to watch. -/
inductive ExpansionEvent where
  | notTokens (file message : String)
  | options (function : String) (options : Options)
  | errorType (function name : String)
  | marker (event : MarkerEvent)
  | summary (function : String) (variants rejected : Nat)
deriving Repr, Inhabited

/-- What became of one annotated item. -/
structure ItemOutcome where
  edit : Edit
  diagnostics : List Diagnostic := []
  function : Option FunctionReport := none
  events : List ExpansionEvent := []
deriving Repr, Inhabited

/-! ## Finding the attribute -/

/-- What the brackets of an attribute say about a tag. -/
inductive TagMatch where
  /-- They hold another attribute. -/
  | other
  /-- They hold the tag and nothing else. -/
  | bare
  /-- They hold the tag with arguments. -/
  | withArguments (arguments : List Tree) (span : Span)
  /-- They hold the tag with a group that is not parenthesized. -/
  | malformed (span : Span)
deriving Repr, Inhabited

/-- Whether the trees are a simple path that ends in a tag. -/
def isTagPath (tag : String) (path : List Tree) : Bool :=
  isPath path && path.getLast?.any (·.isWord tag)

/-- Reads the brackets of an attribute: `[tag]`, `[tag(...)]` or `[path::tag(...)]`. -/
def TagMatch.ofBrackets (tag : String) (inner : List Tree) : TagMatch :=
  match inner.getLast? with
  | some (.group d arguments span) =>
    if !isTagPath tag inner.dropLast then .other
    else if d = .paren then .withArguments arguments span
    else .malformed span
  | _ => if isTagPath tag inner then .bare else .other

/-- An annotated item in its list of trees. -/
structure Item where
  /-- The offset of the first outer attribute in front of the tag's own. -/
  start : Nat
  /-- The span of the `#` of the tag's attribute. -/
  pound : Span
  /-- The span of the brackets of the tag's attribute. -/
  brackets : Span
  /-- The trees behind the tag's attribute. -/
  rest : List Tree
deriving Repr, Inhabited

namespace Item

/-- The offset of the first of the attributes that end in front of a place, by the trees in front of
it, last one first. -/
def leadingStart : List Tree → Nat → Nat
  | brackets :: pound :: before, start =>
    if pound.isPunct "#" && brackets.isGroup .bracket then
      leadingStart before pound.span.startOffset
    else start
  | _, start => start

/-- The offset behind the tag's attribute: where the next tree begins, or where the attribute
ends. -/
def tagStop (item : Item) : Nat :=
  match item.rest with
  | t :: _ => t.span.startOffset
  | [] => item.brackets.stopOffset

/-- The edit that drops the tag's attribute and leaves the item as it is. -/
def dropTag (item : Item) : Edit := ⟨item.pound.startOffset, item.tagStop, []⟩

/-- The outcome of an item that is not expanded. -/
def refused (item : Item) (code phase message : String) (span : Span) : ItemOutcome where
  edit := item.dropTag
  diagnostics := [{ message, code := some code, phase := some phase, span }]

/-- The outcome of an item whose options are refused. -/
def badOptions (item : Item) (e : OptionsError) : ItemOutcome :=
  item.refused "E-CONFIG" "config" e.message e.span

/-- The message for a function whose error type is not known. -/
def noErrorType (header : FunctionHeader) : String :=
  if (header.returned.getD []).isEmpty then
    "function `" ++ header.name.text ++
      "` has no return type; expected `Result<T, ErrorName>`"
  else
    "cannot determine the error type of `" ++ header.name.text ++
      "`: expected a return type of the form `Result<T, ErrorName>`"

/-- The blanks in front of an offset in its line; none when something else stands there. -/
def lineIndent (source : List Char) (offset : Nat) : List Char :=
  let line := ((source.take offset).reverse.takeWhile (· != '\n')).reverse
  if line.all Text.isBlank then line else []

/-- The function without the tag's attribute and with its new body. -/
def functionText (item : Item) (source : List Char) (header : FunctionHeader) (body : List Tree) :
    List Char :=
  Text.slice source item.start item.pound.startOffset ++
    Text.slice source item.tagStop header.bodySpan.startOffset ++
    render [.group .brace body header.bodySpan] (some source)

/-- The outcome of an item that is expanded. -/
def expanded (item : Item) (source : List Char) (header : FunctionHeader) (options : Options)
    (enum : String) : ItemOutcome :=
  let name := header.name.text
  let (collected, body) := Walker.walk { enum } {} header.body
  let indent := lineIndent source item.start
  let outline : EnumOutline :=
    { name := enum, options, visibility := header.visibility
      declarations := collected.declarations }
  { edit :=
      { start := item.start
        stop := header.bodySpan.stopOffset
        replacement := outline.text source indent ++ '\n' :: '\n' :: indent ++
          item.functionText source header body }
    diagnostics := collected.diagnostics
    function := some
      { name, errorType := some enum, variants := collected.declarations.map Declaration.name
        expanded := true }
    events :=
      [.options name options, .errorType name enum] ++ collected.events.map .marker ++
        [.summary name collected.declarations.length collected.diagnostics.length] }

/-- Expands a function, or says why not. -/
def expandFunction (item : Item) (source : List Char) (header : FunctionHeader)
    (arguments : List Tree) (argumentsSpan : Span) : ItemOutcome :=
  let name := header.name.text
  match Options.parse arguments argumentsSpan with
  | .error e => { item.badOptions e with function := some { name } }
  | .ok options =>
    match errorType? header.returned with
    | none =>
      { item.refused "E-RESULT-TYPE" "resolve" (noErrorType header)
          ((streamSpan (header.returned.getD [])).orElse header.name.span) with
        function := some { name }
        events := [.options name options] }
    | some enum => item.expanded source header options enum.text

/-- How many trees an item takes up: through its body or its `;`, or all of them. -/
def length : List Tree → Nat
  | [] => 0
  | t :: rest => if t.isGroup .brace || t.isPunct ";" then 1 else length rest + 1

/-- Expands an item, or says why not, and tells how many of the trees behind the tag's attribute
belong to it. -/
def expand (item : Item) (source : List Char) (tag : String) (arguments : List Tree)
    (argumentsSpan : Span) : ItemOutcome × Nat :=
  match FunctionHeader.parse tag item.rest with
  | .error e => (item.refused "E-ITEM" "item" e.fault.message e.span, length item.rest)
  | .ok header =>
    (item.expandFunction source header arguments argumentsSpan,
      item.rest.length - header.rest.length)

end Item

/-- Looks for an annotated item in front of the trees ahead; the trees behind the place are last one
first. Gives its outcome and how many trees it takes up, the tag's attribute included. -/
def itemAt? (source : List Char) (tag : String) (behind : List Tree) :
    List Tree → Option (ItemOutcome × Nat)
  | .punct op pound :: .group .bracket inner brackets :: rest =>
    if op != "#" then none
    else
      let item : Item :=
        { start := Item.leadingStart behind pound.startOffset, pound, brackets, rest }
      match TagMatch.ofBrackets tag inner with
      | .other => none
      | .malformed span =>
        some (item.badOptions ⟨.notParen tag, span⟩, Item.length rest + 2)
      | .bare =>
        let found := item.expand source tag [] Span.unknown
        some (found.1, found.2 + 2)
      | .withArguments arguments span =>
        let found := item.expand source tag arguments span
        some (found.1, found.2 + 2)
  | _ => none

end InlineVariants
