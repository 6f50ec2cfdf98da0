import InlineVariants.Token.Path
import InlineVariants.Variant.Cursor

/-!
# Options of the attribute

The attribute that marks a function may say how the enum is declared:

    derive(Debug, Clone), attributes(#[non_exhaustive]), visibility(pub(crate))

Every option may be left out and may be given once; an option and its aliases are the same option.
-/

namespace InlineVariants

/-- What an option may set. -/
inductive OptionKey where
  | derive
  | attributes
  | visibility
deriving DecidableEq, Repr, Inhabited

namespace OptionKey

/-- The option that a word names, by its name or an alias. -/
def ofWord? : String → Option OptionKey
  | "derive" => some derive
  | "attributes" => some attributes
  | "attrs" => some attributes
  | "attr" => some attributes
  | "visibility" => some visibility
  | "vis" => some visibility
  | _ => none

/-- The name of an option. -/
def text : OptionKey → String
  | derive => "derive"
  | attributes => "attributes"
  | visibility => "visibility"

end OptionKey

/-- Why the arguments of the attribute are refused. -/
inductive OptionsFault where
  | expectedKey (found : String)
  | unknownKey (word : String)
  | repeated (key : OptionKey)
  | expectedParen (word found : String)
  | expectedComma (found : String)
  | emptyDerive
  | expectedTrait (found : String)
  | expectedBracket (found : String)
  | expectedAttribute (found : String)
  | emptyAttributes
  | expectedVisibility (found : String)
  | visibilityRest (found : String)
  | restriction
  /-- The attribute's own arguments are not in parentheses. -/
  | notParen (name : String)
deriving DecidableEq, Repr, Inhabited

/-- The wording of a fault. -/
def OptionsFault.message : OptionsFault → String
  | expectedKey found => "expected option name, found " ++ found
  | unknownKey word =>
    "unexpected argument `" ++ word ++ "`, expected `derive`, `attributes` or `visibility`"
  | repeated key => "`" ++ key.text ++ "` specified more than once"
  | expectedParen word found => "expected `(` after `" ++ word ++ "`, found " ++ found
  | expectedComma found => "expected `,` between options, found " ++ found
  | emptyDerive => "`derive` needs at least one trait path"
  | expectedTrait found => "expected trait path in `derive`, found " ++ found
  | expectedBracket found => "expected `[` after `#`, found " ++ found
  | expectedAttribute found => "expected `#[...]` attribute, found " ++ found
  | emptyAttributes => "`attributes` needs at least one attribute"
  | expectedVisibility found => "expected visibility, found " ++ found
  | visibilityRest found => "unexpected " ++ found ++ " in visibility"
  | restriction => "expected `crate`, `self`, `super` or `in path` in `pub(...)`"
  | notParen name => "expected `(` after `" ++ name ++ "`"

/-- A fault and where it stands. -/
structure OptionsError where
  fault : OptionsFault
  span : Span
deriving DecidableEq, Repr, Inhabited

/-- The wording of an error. -/
def OptionsError.message (e : OptionsError) : String := e.fault.message

/-- The options that were given. An empty visibility is one that was given: a private enum. -/
structure Options where
  derives : Option (List (List Tree)) := none
  attributes : Option (List Attribute) := none
  visibility : Option (List Tree) := none
deriving Repr, Inhabited

namespace Options

/-! ## Single options -/

/-- The stretches between commas; there is one more than commas. -/
def commaRuns : List Tree → List (List Tree)
  | [] => [[]]
  | t :: ts =>
    if t.isPunct "," then [] :: commaRuns ts
    else match commaRuns ts with
      | run :: runs => (t :: run) :: runs
      | [] => [[t]]

/-- The entries between commas; one comma behind the last entry is allowed. -/
def commaEntries (trees : List Tree) : List (List Tree) :=
  let runs := commaRuns trees
  match runs.getLast? with
  | some [] => runs.dropLast
  | _ => runs

/-- Reads the traits to derive. -/
def parseDerive (inner : List Tree) (span : Span) : Except OptionsError (List (List Tree)) :=
  let entries := commaEntries inner
  if entries.isEmpty then .error ⟨.emptyDerive, span⟩
  else match entries.find? fun entry => !isPath entry with
    | none => .ok entries
    | some entry =>
      .error ⟨.expectedTrait (describeNext entry.head?),
        if entry.isEmpty then span else streamSpan entry⟩

/-- Reads attributes, each perhaps with a comma behind it. -/
def attributeList (span : Span) : List Tree → Except OptionsError (List Attribute)
  | [] => .ok []
  | .punct "#" pound :: .group .bracket inner brackets :: .punct "," _ :: rest =>
    (attributeList span rest).map (⟨pound, inner, brackets⟩ :: ·)
  | .punct "#" pound :: .group .bracket inner brackets :: rest =>
    (attributeList span rest).map (⟨pound, inner, brackets⟩ :: ·)
  | .punct "#" _ :: rest =>
    let c : Cursor := { ahead := rest, region := span }
    .error ⟨.expectedBracket c.found, c.here⟩
  | trees =>
    let c : Cursor := { ahead := trees, region := span }
    .error ⟨.expectedAttribute c.found, c.here⟩

/-- Reads the attributes of the enum; there has to be one. -/
def parseAttributes (inner : List Tree) (span : Span) : Except OptionsError (List Attribute) := do
  let found ← attributeList span inner
  if found.isEmpty then .error ⟨.emptyAttributes, span⟩ else .ok found

/-- Whether the trees restrict a visibility: `crate`, `self`, `super` or `in path`. -/
def isRestriction : List Tree → Bool
  | [] => false
  | [t] => t.isWord "crate" || t.isWord "self" || t.isWord "super"
  | t :: path => t.isWord "in" && isPath path

/-- Reads a visibility: nothing, `pub`, or `pub` with a restriction. -/
def parseVisibility : List Tree → Except OptionsError (List Tree)
  | [] => .ok []
  | first :: rest =>
    if first.isWord "pub" then
      match rest with
      | [] => .ok [first]
      | [.group .paren inner span] =>
        if isRestriction inner then .ok [first, .group .paren inner span]
        else .error ⟨.restriction, span⟩
      | [extra] => .error ⟨.visibilityRest extra.describe, extra.span⟩
      | _ :: extra :: _ => .error ⟨.visibilityRest extra.describe, extra.span⟩
    else .error ⟨.expectedVisibility first.describe, first.span⟩

/-! ## All options -/

/-- Whether an option has been given. -/
def has (o : Options) : OptionKey → Bool
  | .derive => o.derives.isSome
  | .attributes => o.attributes.isSome
  | .visibility => o.visibility.isSome

/-- Reads the value of an option from its group and sets it. -/
def set (o : Options) (key : OptionKey) (inner : List Tree) (span : Span) :
    Except OptionsError Options :=
  match key with
  | .derive => (parseDerive inner span).map fun v => { o with derives := some v }
  | .attributes => (parseAttributes inner span).map fun v => { o with attributes := some v }
  | .visibility => (parseVisibility inner).map fun v => { o with visibility := some v }

/-- Reads options on top of those that have been given. -/
def parseOnto (region : Span) (o : Options) : List Tree → Except OptionsError Options
  | [] => .ok o
  | .ident word wordSpan :: rest =>
    match OptionKey.ofWord? word with
    | none => .error ⟨.unknownKey word, wordSpan⟩
    | some key =>
      if o.has key then .error ⟨.repeated key, wordSpan⟩
      else match rest with
        | .group .paren inner span :: more =>
          match o.set key inner span with
          | .error e => .error e
          | .ok o' =>
            match more with
            | [] => .ok o'
            | comma :: more' =>
              if comma.isPunct "," then parseOnto region o' more'
              else .error ⟨.expectedComma comma.describe, comma.span.orElse region⟩
        | _ =>
          let c : Cursor := { ahead := rest, region := region }
          .error ⟨.expectedParen word c.found, c.here⟩
  | t :: _ => .error ⟨.expectedKey t.describe, t.span.orElse region⟩

/-- Reads the arguments of the attribute. The span is that of their group. -/
def parse (trees : List Tree) (region : Span := Span.unknown) : Except OptionsError Options :=
  parseOnto region {} trees

end Options

end InlineVariants
