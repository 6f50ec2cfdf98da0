import InlineVariants.Expansion.Basic
import InlineVariants.Text.DecimalDigit

/-!
# Arguments of the command line

Options may stand anywhere. A long option may be cut to any beginning that no other option shares,
and may have its value behind a `=`; a short option may have its value glued on. Sources stand in
one run: a second run behind an option is refused. Behind `--` every word is a source. When an
option is given several times the last one counts.

The word `--` on its own is never the value of an option. Readers of command lines differ in what
they make of it as part of the option's own word, as in `-o--`: some drop it, and the option stays
given without a value, and some keep it. So this is a parameter of the reader (`AttachedDashes`).
-/

namespace InlineVariants.Command

/-- The options. -/
inductive Flag where
  | help
  | output
  | tag
  | check
  | json
deriving DecidableEq, Repr, Inhabited

namespace Flag

/-- The long names of the options. -/
def longNames : List (String × Flag) :=
  [("--help", help), ("--output", output), ("--attribute", tag), ("--check", check),
   ("--json", json)]

/-- The short names of the options. -/
def shortNames : List (String × Flag) := [("-h", help), ("-o", output)]

/-- The option with exactly the given name. -/
def ofName? (name : String) : Option Flag := (longNames ++ shortNames).lookup name

/-- Whether an option has a value. -/
def takesValue : Flag → Bool
  | output => true
  | tag => true
  | _ => false

end Flag

/-- Why a command line leads to no run. -/
inductive Stop where
  /-- Help was asked for. -/
  | help
  /-- The arguments are refused. -/
  | usage
deriving DecidableEq, Repr, Inhabited

/-- The exit code of a command line that leads to no run. -/
def Stop.exitCode : Stop → Nat
  | help => 0
  | usage => 2

/-- A value that is part of the option's own word. -/
structure Attached where
  /-- Whether the option is given by its short name. -/
  short : Bool
  text : String
deriving DecidableEq, Repr, Inhabited

/-- A word of the command line. -/
inductive Word where
  | value (text : String)
  | separator
  | option (flag : Flag) (attached : Option Attached)
  | unknown
deriving DecidableEq, Repr, Inhabited

/-! ## Classifying words -/

/-- A word cut at its first `=`. -/
def cutAtEquals (word : String) : String × Option String :=
  let name := word.toList.takeWhile (· != '=')
  match word.toList.drop name.length with
  | _ :: value => (String.ofList name, some (String.ofList value))
  | [] => (String.ofList name, none)

/-- Whether a text is made of decimal digits only, and of at least one. -/
def isDigits (cs : List Char) : Bool := !cs.isEmpty && cs.all Text.isDecimalDigit

/-- Whether a word looks like a negative number, which is no option. A line feed at its end does not
matter. -/
def isNegativeNumber (word : String) : Bool :=
  match word.toList with
  | '-' :: digits =>
    let digits := if digits.getLast? = some '\n' then digits.dropLast else digits
    let fraction := digits.dropWhile Text.isDecimalDigit
    isDigits digits || (fraction.head? == some '.' && isDigits (fraction.drop 1))
  | _ => false

/-- A word that begins with a dash and is not exactly the name of an option. -/
def classifyInexact (word : String) : Except Stop Word :=
  let (name, value) := cutAtEquals word
  let attached := value.map (⟨!word.startsWith "--", ·⟩)
  match value, Flag.ofName? name with
  | some _, some flag => .ok (.option flag attached)
  | _, _ =>
    let other : Word :=
      if isNegativeNumber word || word.contains ' ' then .value word else .unknown
    if word.startsWith "--" then
      match Flag.longNames.filter fun entry => entry.1.startsWith name with
      | [] => .ok other
      | [(_, flag)] => .ok (.option flag attached)
      | _ => .error .usage
    else
      match Flag.shortNames.lookup (String.ofList (word.toList.take 2)) with
      | some flag => .ok (.option flag (some ⟨true, String.ofList (word.toList.drop 2)⟩))
      | none => .ok other

/-- Classifies a word that is not behind `--`. -/
def classify (word : String) : Except Stop Word :=
  if word = "--" then .ok .separator
  else if !word.startsWith "-" || word = "-" then .ok (.value word)
  else match Flag.ofName? word with
    | some flag => .ok (.option flag none)
    | none => classifyInexact word

/-- Classifies all words; behind `--` every word is a value. -/
def classifyAll : List String → Except Stop (List Word)
  | [] => .ok []
  | word :: words => do
    let first ← classify word
    if first = .separator then return .separator :: words.map .value
    return first :: (← classifyAll words)

/-! ## Reading arguments -/

/-- Where the reader is with respect to the run of sources. -/
inductive Run where
  | before
  | within
  | behind
deriving DecidableEq, Repr, Inhabited

/-- The run behind an option. -/
def Run.close : Run → Run
  | before => before
  | _ => behind

/-- Where the expanded text goes. -/
inductive Output where
  /-- No file is asked for. -/
  | standard
  | file (name : String)
  /-- A file is asked for without a name. -/
  | unnamed
deriving DecidableEq, Repr, Inhabited

/-- What becomes of `--` as the value in an option's own word. -/
inductive AttachedDashes where
  /-- It is dropped, and the option stays given without a value. -/
  | dropped
  /-- It is a value like any other. -/
  | kept
deriving DecidableEq, Repr, Inhabited

/-- The output that the value of its option asks for. -/
def Output.ofValue (dashes : AttachedDashes) (text : String) : Output :=
  if text = "--" && dashes = .dropped then unnamed else file text

/-- What has been read. -/
structure Arguments where
  sources : List String := []
  output : Output := .standard
  /-- The name of the attribute that marks functions; `--` marks none, as no attribute has that
  name. -/
  tag : String := defaultTag
  check : Bool := false
  json : Bool := false
deriving DecidableEq, Repr, Inhabited

namespace Arguments

/-- Sets an option to a value. -/
def setValue (a : Arguments) (dashes : AttachedDashes) (flag : Flag) (text : String) : Arguments :=
  match flag with
  | .output => { a with output := .ofValue dashes text }
  | .tag => { a with tag := text }
  | _ => a

/-- Turns an option on. -/
def turnOn (a : Arguments) (flag : Flag) : Arguments :=
  match flag with
  | .check => { a with check := true }
  | .json => { a with json := true }
  | _ => a

/-- What the letters behind `-h` come to, which are short options themselves: help, unless one of
them is no option or lacks its value. -/
def helpCluster (valueFollows : Bool) : List Char → Stop
  | [] => .help
  | 'h' :: rest => helpCluster valueFollows rest
  | ['o'] => if valueFollows then .help else .usage
  | 'o' :: _ => .help
  | _ => .usage

/-- What an option without a value comes to when it is given one. Behind the short name the value is
taken for further short options, unless it is empty. -/
def unwantedValue (flag : Flag) (attached : Attached) (valueFollows : Bool) : Stop :=
  if flag = .help && attached.short && attached.text != "" then
    helpCluster valueFollows attached.text.toList
  else .usage

/-- Whether a value comes next. -/
def valueFollows : List Word → Bool
  | .value _ :: _ => true
  | _ => false

/-- Reads words on top of what has been read. A word that has no place is remembered as `extra`,
because help that is asked for behind it still counts. -/
def read (dashes : AttachedDashes) (a : Arguments) (run : Run) (extra : Bool) :
    List Word → Except Stop Arguments
  | [] => if extra || a.sources.isEmpty then .error .usage else .ok a
  | .value text :: words =>
    if run = .behind then read dashes a run true words
    else read dashes { a with sources := a.sources ++ [text] } .within extra words
  | .separator :: words => read dashes a run (extra || run == .behind) words
  | .unknown :: words => read dashes a run.close true words
  | .option flag none :: words =>
    if flag = .help then .error .help
    else if flag.takesValue then
      match words with
      | .value text :: more => read dashes (a.setValue dashes flag text) run.close extra more
      | _ => .error .usage
    else read dashes (a.turnOn flag) run.close extra words
  | .option flag (some attached) :: words =>
    if flag.takesValue then read dashes (a.setValue dashes flag attached.text) run.close extra words
    else .error (unwantedValue flag attached (valueFollows words))

/-- Reads a command line. An output file asks for exactly one source. -/
def parse (words : List String) (dashes : AttachedDashes := .dropped) : Except Stop Arguments := do
  let a ← read dashes {} .before false (← classifyAll words)
  if a.output != .standard && a.sources.length != 1 then .error .usage else .ok a

end Arguments

end InlineVariants.Command
