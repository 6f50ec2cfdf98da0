import InlineVariants.Layout.Print
import InlineVariants.Token.Path
import InlineVariants.Variant.Basic

/-!
# Declaration and construction

A variant definition has two sides. Its declaration keeps attributes and types and goes into the
enum; its construction keeps the values and goes where the marker stood:

    NotEnough { got: usize }          ShaveError::NotEnough { got: n }

Names, types and values are the marker's own trees, so their spans survive. Separators and brackets
are made up.
-/

namespace InlineVariants

/-- A variant as it is declared in the enum. -/
structure Declaration where
  name : String
  attributes : List Attribute
  /-- Name, fields and discriminant. -/
  trees : List Tree
deriving Repr, Inhabited

namespace Declaration

/-- The trees of a declaration, attributes first. -/
def allTrees (d : Declaration) : List Tree := d.attributes.flatMap Attribute.trees ++ d.trees

/-- The declaration on one line, with its attributes. -/
def render (d : Declaration) (source : Option (List Char)) : List Char :=
  InlineVariants.render d.allTrees source true

/-- The declaration on one line, without its attributes. -/
def renderVariant (d : Declaration) (source : Option (List Char)) : List Char :=
  InlineVariants.render d.trees source true

end Declaration

/-- A group that was made up, with entries and commas between them. -/
def listGroup (d : Delimiter) (entries : List (List Tree)) : Tree :=
  .group d (separated "," entries) Span.unknown

namespace NamedField

/-- The entry of a field in the declaration. -/
def declared (f : NamedField) : List Tree :=
  f.attributes.flatMap Attribute.trees ++ f.name.tree :: Tree.mark ":" :: f.type

/-- The entry of a field in the construction. -/
def constructed (f : NamedField) : List Tree := f.name.tree :: Tree.mark ":" :: f.value

end NamedField

/-- The entry of a field in the declaration. -/
def UnnamedField.declared (f : UnnamedField) : List Tree :=
  f.attributes.flatMap Attribute.trees ++ f.type

namespace Fields

/-- The fields in the declaration. -/
def declared : Fields → List Tree
  | unit => []
  | named fs => [listGroup .brace (fs.map NamedField.declared)]
  | unnamed fs => [listGroup .paren (fs.map UnnamedField.declared)]

/-- The fields in the construction. -/
def constructed : Fields → List Tree
  | unit => []
  | named fs => [listGroup .brace (fs.map NamedField.constructed)]
  | unnamed fs => [listGroup .paren (fs.map UnnamedField.value)]

end Fields

namespace Variant

/-- The discriminant in the declaration. -/
def declaredDiscriminant (v : Variant) : List Tree :=
  match v.discriminant with
  | some value => Tree.mark "=" :: value
  | none => []

/-- The declaration of a variant. -/
def declaration (v : Variant) : Declaration where
  name := v.name.text
  attributes := v.attributes
  trees := v.name.tree :: v.fields.declared ++ v.declaredDiscriminant

/-- The construction of a variant, behind a path; an empty path leaves the bare variant. -/
def construction (v : Variant) (path : List Tree) : List Tree :=
  (if path.isEmpty then [] else path ++ [Tree.mark "::"]) ++ v.name.tree :: v.fields.constructed

end Variant

end InlineVariants
