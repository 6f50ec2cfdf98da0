import InlineVariants.Diagnostic
import InlineVariants.Variant.Parser
import InlineVariants.Variant.Projection

/-!
# Markers

A marker `err!(...)` is a name, a `!` and a group. A walk over a list of trees finds the markers at
every depth, reads each as a variant definition, collects its declaration and puts its construction
in its place, in one invisible group whose span is that of the marker. The values of a marker may
hold further markers; their declarations come behind that of the marker around them.

A marker that is no variant definition is reported and replaced by an inert text of its contents, so
one bad marker never hides another. Invisible groups are not searched: what a walk has put in place
is left alone by the next one.

The walk threads what has been collected so far, and every answer depends on it only in that new
entries are added behind the old ones.
-/

namespace InlineVariants

/-- The name of the marker. -/
def markerName : String := "err"

/-- What happened to one marker. -/
inductive MarkerEvent where
  | accepted (span : Span) (enum variant : String)
  | rejected (span : Span) (message : String)
deriving DecidableEq, Repr, Inhabited

/-- The wording of an event. -/
def MarkerEvent.message : MarkerEvent → String
  | accepted span enum variant =>
    "marker at " ++ span.short ++ " -> " ++ enum ++ "::" ++ variant
  | rejected span message => "marker at " ++ span.short ++ " rejected: " ++ message

/-- What walks have collected. -/
structure Collected where
  declarations : List Declaration := []
  diagnostics : List Diagnostic := []
  events : List MarkerEvent := []
deriving Repr, Inhabited

namespace Collected

/-- Adds a diagnostic. -/
def report (c : Collected) (d : Diagnostic) : Collected :=
  { c with diagnostics := c.diagnostics ++ [d] }

/-- Adds an event. -/
def note (c : Collected) (e : MarkerEvent) : Collected := { c with events := c.events ++ [e] }

/-- Puts a declaration at an index. -/
def declare (c : Collected) (index : Nat) (d : Declaration) : Collected :=
  { c with declarations := c.declarations.insertIdx index d }

end Collected

/-- A walk over trees, with what has been collected before and after. -/
abbrev Walk (α : Type) := Collected → α → Collected × α

/-- Walks the members of a list one after the other. -/
def Walk.each (walk : Walk α) : Walk (List α)
  | c, [] => (c, [])
  | c, a :: as =>
    let first := walk c a
    let rest := Walk.each walk first.1 as
    (rest.1, first.2 :: rest.2)

namespace Variant

/-- Walks the values of the fields. -/
def walkFields (walk : Walk (List Tree)) : Walk Fields
  | c, .unit => (c, .unit)
  | c, .named fs =>
    let r := Walk.each (fun c f =>
      let v := walk c f.value
      (v.1, { f with value := v.2 })) c fs
    (r.1, .named r.2)
  | c, .unnamed fs =>
    let r := Walk.each (fun c f =>
      let v := walk c f.value
      (v.1, { f with value := v.2 })) c fs
    (r.1, .unnamed r.2)

/-- Walks the discriminant. -/
def walkDiscriminant (walk : Walk (List Tree)) : Walk (Option (List Tree))
  | c, none => (c, none)
  | c, some trees =>
    let r := walk c trees
    (r.1, some r.2)

/-- Walks the values of the fields and then the discriminant. -/
def walkPayloads (walk : Walk (List Tree)) : Walk Variant := fun c v =>
  let fields := walkFields walk c v.fields
  let discriminant := walkDiscriminant walk fields.1 v.discriminant
  (discriminant.1, { v with fields := fields.2, discriminant := discriminant.2 })

end Variant

/-- What a walk looks for and what it builds. -/
structure Walker where
  /-- The name of the error type, which stands in front of every construction. -/
  enum : String
  marker : String := markerName
deriving Repr, Inhabited

namespace Walker

/-- The replacement of an accepted marker. -/
def constructionGroup (w : Walker) (v : Variant) (span : Span) : Tree :=
  .group .invisible
    (absolutePathOf ["core", "convert", "identity"] ++
      [.group .paren (v.construction [Tree.word w.enum]) Span.unknown])
    span

/-- The replacement of a rejected marker. -/
def inertGroup (contents : List Tree) (span : Span) : Tree :=
  .group .invisible
    (absolutePathOf ["core", "stringify"] ++
      [Tree.mark "!", .group .paren contents Span.unknown])
    span

/-- The diagnostic of a rejected marker. -/
def rejection (e : GrammarError) (span : Span) : Diagnostic where
  message := e.message
  code := some "E-MARKER-GRAMMAR"
  phase := some "marker"
  span := e.span.orElse span

/-- Reads a marker and gives its replacement. The first span is that of the marker's name, the
second that of its group; `inner` walks the values. -/
def expand (w : Walker) (inner : Walk (List Tree)) (c : Collected) (nameSpan : Span)
    (contents : List Tree) (groupSpan : Span) : Collected × Tree :=
  let span := nameSpan.join groupSpan
  let outcome := Variant.parse contents groupSpan
  match outcome.result with
  | .error e =>
    ((c.report (rejection e span)).note (.rejected span e.message), inertGroup outcome.stream span)
  | .ok v =>
    let walked := v.walkPayloads inner c
    let declared := walked.1.declare c.declarations.length walked.2.declaration
    (declared.note (.accepted span w.enum v.name.text), w.constructionGroup walked.2 span)

/-- Whether a tree in front of a marker's name makes it the name of something else. -/
def isQualifier (t : Tree) : Bool := t.isPunct "::" || t.isPunct "."

/-- Walks one level; `inner` walks what is inside groups and values. The tree in front of the place,
as it is after the walk, tells whether a name is qualified. -/
def walkLevel (w : Walker) (inner : Walk (List Tree)) (before : Option Tree) : Walk (List Tree)
  | c, [] => (c, [])
  | c, .ident text span :: .punct op opSpan :: .group d contents groupSpan :: rest =>
    if text = w.marker && op = "!" && d != .invisible && !before.any isQualifier then
      let replaced := w.expand inner c span contents groupSpan
      let more := walkLevel w inner (some replaced.2) replaced.1 rest
      (more.1, replaced.2 :: more.2)
    else
      let more := walkLevel w inner (some (.ident text span)) c
        (.punct op opSpan :: .group d contents groupSpan :: rest)
      (more.1, .ident text span :: more.2)
  | c, .group d contents span :: rest =>
    let walked := if d = .invisible then (c, contents) else inner c contents
    let more := walkLevel w inner (some (.group d walked.2 span)) walked.1 rest
    (more.1, .group d walked.2 span :: more.2)
  | c, t :: rest =>
    let more := walkLevel w inner (some t) c rest
    (more.1, t :: more.2)

/-- Walks trees whose groups are nested at most to a depth. -/
def walkWithin (w : Walker) : Nat → Walk (List Tree)
  | 0 => fun c trees => (c, trees)
  | depth + 1 => w.walkLevel (w.walkWithin depth) none

/-- Replaces all markers in a list of trees. -/
def walk (w : Walker) : Walk (List Tree) := fun c trees => w.walkWithin (depthOf trees) c trees

end Walker

/-- Replaces all markers in a list of trees, starting with nothing collected. -/
def expandMarkers (trees : List Tree) (enum : String) (marker : String := markerName) :
    Collected × List Tree :=
  Walker.walk { enum := enum, marker := marker } {} trees

end InlineVariants
