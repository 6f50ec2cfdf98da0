import InlineVariants.Layout.Print
import InlineVariants.Options
import InlineVariants.Variant.Projection

/-!
# The text of the enum

The enum of a function stands in front of it with the same indentation. Each variant has a line of
its own, and so has each of its attributes; an enum without variants is a single line.
-/

namespace InlineVariants

/-- What the enum of a function is made of. -/
structure EnumOutline where
  name : String
  options : Options
  /-- The visibility of the function, which the enum takes over unless an option says otherwise. -/
  visibility : List Tree
  declarations : List Declaration
deriving Repr, Inhabited

namespace EnumOutline

/-- The trees on one line. -/
def oneLine (source : List Char) (trees : List Tree) : List Char := render trees (some source) true

/-- The line that derives traits, if there are any. -/
def deriveLine (source : List Char) : Option (List (List Tree)) → List (List Char)
  | some (first :: rest) =>
    ["#[derive(".toList ++
      List.intercalate ", ".toList ((first :: rest).map (oneLine source)) ++ ")]".toList]
  | _ => []

/-- The visibility of the enum with the space behind it. -/
def visibilityText (e : EnumOutline) (source : List Char) : List Char :=
  match e.options.visibility.getD e.visibility with
  | [] => []
  | trees => oneLine source trees ++ [' ']

/-- The indentation of a variant. -/
def variantIndent : List Char := "    ".toList

/-- The lines of one variant. -/
def variantLines (source : List Char) (d : Declaration) : List (List Char) :=
  d.attributes.map (fun a => variantIndent ++ oneLine source a.trees) ++
    [variantIndent ++ d.renderVariant (some source) ++ [',']]

/-- The lines from the head of the enum on. -/
def bodyLines (e : EnumOutline) (source : List Char) : List (List Char) :=
  let head := e.visibilityText source ++ "enum ".toList ++ e.name.toList
  match e.declarations with
  | [] => [head ++ " \x7b\x7d".toList]
  | declarations =>
    (head ++ " \x7b".toList) :: declarations.flatMap (variantLines source) ++ ["\x7d".toList]

/-- All lines of the enum. -/
def lines (e : EnumOutline) (source : List Char) : List (List Char) :=
  deriveLine source e.options.derives ++
    (e.options.attributes.getD []).map (fun a => oneLine source a.trees) ++ e.bodyLines source

/-- The text of the enum; every line but the first is indented. -/
def text (e : EnumOutline) (source indent : List Char) : List Char :=
  List.intercalate ('\n' :: indent) (e.lines source)

end EnumOutline

end InlineVariants
