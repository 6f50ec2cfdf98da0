import InlineVariants.Span

/-!
# Diagnostics

A diagnostic is a message anchored at a span, with the phase that found it, a code, a severity and
notes. Only the severity `error` makes a run fail.
-/

namespace InlineVariants

/-- A report about the source text. -/
structure Diagnostic where
  message : String
  code : Option String := none
  phase : Option String := none
  severity : String := "error"
  span : Span := Span.unknown
  notes : List String := []
deriving DecidableEq, Repr, Inhabited

namespace Diagnostic

/-- Whether the diagnostic is an error. -/
def isError (d : Diagnostic) : Bool := d.severity == "error"

/-- The file a diagnostic is shown under: its own, else the fallback, else a placeholder.
An empty name counts as missing. -/
def shownFile (d : Diagnostic) (fallback : Option String) : String :=
  match Span.namedFile d.span.file fallback with
  | some name => if name = "" then "<unknown>" else name
  | none => "<unknown>"

/-- One line of text: `file:line:column: severity: message`. -/
def render (d : Diagnostic) (fallback : Option String) : String :=
  d.shownFile fallback ++ ":" ++ d.span.short ++ ": " ++ d.severity ++ ": " ++ d.message

/-- Whether some diagnostic of a list is an error. -/
def anyError (ds : List Diagnostic) : Bool := ds.any isError

end Diagnostic

end InlineVariants
