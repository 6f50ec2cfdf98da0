import InlineVariants.Command.Arguments
import InlineVariants.Command.FileTree
import InlineVariants.Command.Json
import InlineVariants.Command.Log

/-!
# Running the command

All sources are read and expanded before anything is written. When some source cannot be read or
some expansion reports an error, the run fails: nothing is written and no expanded text is printed.
Otherwise the expanded texts go to the output file or to standard output, unless the run only
checks. Diagnostics are printed as lines, or as one JSON object together with a report on every
function.

A run breaks off without a report when a path that it is about to use can be the path of nothing,
and when it is about to write to a file that has no name. How files are read is a parameter: a file
that is there may still be refused, for want of permission or any other reason.
-/

namespace InlineVariants.Command

/-- A way to read files. -/
abbrev ReadFile := Path → Except FileFault (List UInt8)

/-- What became of one source: its expansion, or why it cannot be read. -/
structure SourceOutcome where
  path : Path
  result : Except Diagnostic Expansion

/-- The diagnostic of a source that cannot be read. -/
def unreadable (path : Path) (reason : String) : Diagnostic where
  message := "cannot read source: " ++ reason
  code := some "E-IO"
  phase := some "io"
  span := { file := some path.text }

/-- The text of a source file: UTF-8 with line breaks of any kind. -/
def readText (readFile : ReadFile) (path : Path) : Except Diagnostic (List Char) :=
  match readFile path with
  | .error fault => .error (unreadable path (FileError.message ⟨fault, path⟩))
  | .ok bytes =>
    match Text.Utf8.decode bytes with
    | .error e => .error (unreadable path e.message)
    | .ok cs => .ok (Text.unifyNewlines cs)

/-- Reads and expands one source. -/
def expandFile (readFile : ReadFile) (tag : String) (path : Path) : SourceOutcome where
  path := path
  result := (readText readFile path).map (expandSource · (some path.text) tag)

namespace SourceOutcome

/-- The diagnostics of a source. -/
def diagnostics (s : SourceOutcome) : List Diagnostic :=
  match s.result with
  | .error d => [d]
  | .ok e => e.diagnostics

/-- The expansion of a source, if it could be read. -/
def expansion? (s : SourceOutcome) : Option Expansion := s.result.toOption

/-- The diagnostics of a source as lines. -/
def lines (s : SourceOutcome) : List Char :=
  s.diagnostics.flatMap fun d => (d.render (some s.path.text)).toList ++ ['\n']

/-- A diagnostic of a source as JSON. -/
def diagnosticJson (s : SourceOutcome) (d : Diagnostic) : Json :=
  .object
    [("phase", .ofText? d.phase),
     ("code", .ofText? d.code),
     ("message", .string d.message),
     ("severity", .string d.severity),
     ("file", .ofText? (Span.namedFile d.span.file (some s.path.text))),
     ("line", .ofNumber? d.span.line),
     ("column", .ofNumber? d.span.column),
     ("notes", .array (d.notes.map .string))]

/-- A report on a function of a source as JSON. -/
def functionJson (s : SourceOutcome) (f : FunctionReport) : Json :=
  .object
    [("file", .string s.path.text),
     ("name", .string f.name),
     ("error_type", .ofText? f.errorType),
     ("variants", .array (f.variants.map .string)),
     ("expanded", .bool f.expanded)]

end SourceOutcome

/-- Why there is no report. -/
inductive Interruption where
  /-- The command line leads to no run. -/
  | stopped (stop : Stop)
  /-- A path holds the character NUL. -/
  | nul
  /-- The output file has no name. -/
  | unnamedOutput
deriving DecidableEq, Repr, Inhabited

/-- What a run comes to. -/
structure Report where
  exitCode : Nat
  stdout : List Char
  stderr : List Char
  /-- The file to write and its text. -/
  output : Option (Path × List Char) := none
deriving Repr, Inhabited

/-- Whether some source fails the run. -/
def anyFailed (outcomes : List SourceOutcome) : Bool :=
  outcomes.any fun s => Diagnostic.anyError s.diagnostics

/-- The expanded texts one after the other. -/
def expandedText (outcomes : List SourceOutcome) : List Char :=
  (outcomes.filterMap SourceOutcome.expansion?).flatMap Expansion.text

/-- The JSON object of a run. -/
def reportJson (exitCode : Nat) (outcomes : List SourceOutcome) : Json :=
  .object
    [("exit_code", .number exitCode),
     ("diagnostics", .array (outcomes.flatMap fun s => s.diagnostics.map s.diagnosticJson)),
     ("functions", .array (outcomes.flatMap fun s =>
       ((s.expansion?.map Expansion.functions).getD []).map s.functionJson))]

/-- The log of a run. -/
def logText (outcomes : List SourceOutcome) : List Char :=
  (outcomes.filterMap SourceOutcome.expansion?).flatMap fun e =>
    e.events.flatMap fun event => (logLine event).toList

/-- The path of the output file, if there is to be one. -/
def Output.path? : Output → Except Interruption (Option Path)
  | .standard => .ok none
  | .file name =>
    let path := Path.ofText name
    if path.holdsNul then .error .nul else .ok (some path)
  | .unnamed => .error .unnamedOutput

/-- Whether a run writes or prints the expanded texts. -/
def writes (a : Arguments) (outcomes : List SourceOutcome) : Bool :=
  !anyFailed outcomes && !a.check

/-- The report of a run whose sources have been expanded and whose output file is known. -/
def report (a : Arguments) (showLog : Bool) (outcomes : List SourceOutcome)
    (output : Option Path) : Report :=
  let exitCode := if anyFailed outcomes then 1 else 0
  let text := expandedText outcomes
  { exitCode
    stdout :=
      (if writes a outcomes && output.isNone && !a.json then text else []) ++
        (if a.json then (reportJson exitCode outcomes).text ++ ['\n'] else [])
    stderr :=
      (if showLog then logText outcomes else []) ++
        (if a.json then [] else outcomes.flatMap SourceOutcome.lines)
    output := output.map fun path => (path, text) }

/-- Runs with arguments that have been read. The output file matters only when the run writes. -/
def runWith (a : Arguments) (showLog : Bool) (readFile : ReadFile) :
    Except Interruption Report := do
  let paths := a.sources.map Path.ofText
  if paths.any Path.holdsNul then throw .nul
  let outcomes := paths.map (expandFile readFile a.tag)
  let output ← if writes a outcomes then a.output.path? else .ok none
  return report a showLog outcomes output

/-- Runs a command line with a way to read files and the word that asks for the log. -/
def run (words : List String) (log : Option String) (readFile : ReadFile)
    (dashes : AttachedDashes := .dropped) : Except Interruption Report :=
  match Arguments.parse words dashes with
  | .error stop => .error (.stopped stop)
  | .ok a => runWith a (logShows log) readFile

/-! ## Runs in a file tree -/

/-- What a run in a file tree comes to. -/
inductive RunOutcome where
  /-- There is no report. -/
  | interrupted (reason : Interruption)
  /-- The run is complete; the tree is as it leaves it. -/
  | completed (report : Report) (tree : FileTree)
  /-- The output file cannot be written. -/
  | refused (error : FileError)
deriving Repr, Inhabited

/-- Runs a command line in a file tree. Unless files are read in another way, all that are there can
be read. -/
def runIn (tree : FileTree) (words : List String) (log : Option String)
    (readFile : ReadFile := tree.read) (dashes : AttachedDashes := .dropped) : RunOutcome :=
  match run words log readFile dashes with
  | .error reason => .interrupted reason
  | .ok report =>
    match report.output with
    | none => .completed report tree
    | some (path, text) =>
      match tree.write path (Text.Utf8.encode text) with
      | .ok tree' => .completed report tree'
      | .error e => .refused e

end InlineVariants.Command
