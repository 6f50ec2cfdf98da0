import InlineVariants.Expansion.Basic
import InlineVariants.Text.Quoted

/-!
# The log

The log tells what happens on the way, one line for each event. It is asked for by the name of a
level. All events are of the level `DEBUG`, so they show at that level and when no level is set;
a word that names no level asks for them too, and an empty one does not.

The options of a function are logged as a record, with all the trees they hold and the spans of these.
-/

namespace InlineVariants.Command

/-- A letter in upper case, as far as it can make up the name of a level. -/
def upperLetter (c : Char) : Char :=
  if c = 'ı' then 'I' else if c = 'ſ' then 'S' else c.toUpper

/-- The levels at which events do not show. -/
def quietLevels : List String := ["INFO", "WARN", "WARNING", "ERROR", "CRITICAL", "FATAL"]

/-- Whether events show when the log is asked for by a word. -/
def logShows : Option String → Bool
  | none => false
  | some word =>
    word != "" && !quietLevels.contains (String.ofList (word.toList.map upperLetter))

/-! ## Values in the log -/

/-- A record with its fields by name. -/
def recordText (name : String) (fields : List (String × String)) : String :=
  name ++ "(" ++ ", ".intercalate (fields.map fun field => field.1 ++ "=" ++ field.2) ++ ")"

/-- A list. -/
def listText (items : List String) : String := "[" ++ ", ".intercalate items ++ "]"

/-- A value that may be missing. -/
def optionalText {α : Type} (text : α → String) (value : Option α) : String :=
  (value.map text).getD "None"

/-- A span. -/
def spanText (s : Span) : String :=
  recordText "Span"
    [("file", optionalText Text.quoted s.file), ("line", optionalText toString s.line),
     ("column", optionalText toString s.column), ("end_line", optionalText toString s.endLine),
     ("end_column", optionalText toString s.endColumn), ("start", optionalText toString s.start),
     ("end", optionalText toString s.stop)]

/-- The name of a kind of literal. -/
def literalKindText : LiteralKind → String
  | .string => "string"
  | .char => "char"
  | .number => "number"
  | .lifetime => "lifetime"
  | .other => "other"

/-- The name of a kind of bracket. -/
def delimiterName : Delimiter → String
  | .paren => "PAREN"
  | .brace => "BRACE"
  | .bracket => "BRACKET"
  | .invisible => "NONE"

/-- A kind of bracket: its name and the pair of brackets. -/
def delimiterText (d : Delimiter) : String :=
  "<Delimiter." ++ delimiterName d ++ ": (" ++ Text.quoted d.opening ++ ", " ++
    Text.quoted d.closing ++ ")>"

mutual

/-- A tree. -/
def treeText : Tree → String
  | .ident text s => recordText "Ident" [("text", Text.quoted text), ("span", spanText s)]
  | .punct op s => recordText "Punct" [("op", Text.quoted op), ("span", spanText s)]
  | .literal kind text s =>
    recordText "Literal"
      [("text", Text.quoted text), ("kind", Text.quoted (literalKindText kind)),
       ("span", spanText s)]
  | .group d stream s =>
    recordText "Group"
      [("delimiter", delimiterText d), ("stream", listText (treeTexts stream)),
       ("span", spanText s)]

/-- The trees of a list, one by one. -/
def treeTexts : List Tree → List String
  | [] => []
  | t :: ts => treeText t :: treeTexts ts

end

/-- A list of trees. -/
def treesText (trees : List Tree) : String := listText (treeTexts trees)

/-- The options of a function. -/
def optionsText (o : Options) : String :=
  recordText "Config"
    [("derives", optionalText (fun ds => listText (ds.map treesText)) o.derives),
     ("attributes", optionalText (fun l => listText (l.map fun a =>
       recordText "Attribute" [("tokens", treesText a.trees)])) o.attributes),
     ("visibility", optionalText treesText o.visibility)]

/-! ## Lines of the log -/

/-- The wording of an event. -/
def eventText : ExpansionEvent → String
  | .notTokens file message => file ++ ": tokenize failed: " ++ message
  | .options function options => function ++ ": config " ++ optionsText options
  | .errorType function name => function ++ ": error type " ++ name
  | .marker event => event.message
  | .summary function variants rejected =>
    function ++ ": " ++ toString variants ++ " variant(s), " ++ toString rejected ++
      " rejected marker(s)"

/-- The part of the program that an event comes from. -/
def eventSource : ExpansionEvent → String
  | .marker _ => "errgo.walker"
  | _ => "errgo.expand"

/-- The line of an event. -/
def logLine (event : ExpansionEvent) : String :=
  eventSource event ++ ": DEBUG: " ++ eventText event ++ "\n"

end InlineVariants.Command
