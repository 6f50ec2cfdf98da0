import InlineVariants.Token.Tree

/-!
# Variant definitions

A marker such as `err!(NotEnough { got: usize = n, needed: usize = m })` defines a variant of the
error enum and says, in the same breath, with which values to build it. Types, values and attributes
are not understood: they are the trees that the marker was written with.
-/

namespace InlineVariants

/-- An outer attribute `#[...]`. -/
structure Attribute where
  /-- Where the `#` stands. -/
  pound : Span
  /-- The trees between the brackets. -/
  inner : List Tree
  /-- Where the brackets stand. -/
  brackets : Span
deriving Repr, Inhabited

/-- The two trees of an attribute. -/
def Attribute.trees (a : Attribute) : List Tree :=
  [.punct "#" a.pound, .group .bracket a.inner a.brackets]

/-- The span of an attribute. -/
def Attribute.span (a : Attribute) : Span := streamSpan a.trees

/-- A field `name: type = value`. -/
structure NamedField where
  attributes : List Attribute
  name : Name
  type : List Tree
  value : List Tree
  span : Span
deriving Repr, Inhabited

/-- A field `type = value`. -/
structure UnnamedField where
  attributes : List Attribute
  type : List Tree
  value : List Tree
  span : Span
deriving Repr, Inhabited

/-- The fields of a variant. -/
inductive Fields where
  | unit
  | named (fields : List NamedField)
  | unnamed (fields : List UnnamedField)
deriving Repr, Inhabited

/-- A variant definition. -/
structure Variant where
  name : Name
  attributes : List Attribute
  fields : Fields
  discriminant : Option (List Tree)
  span : Span
deriving Repr, Inhabited

/-- The values of the fields in order. -/
def Fields.values : Fields → List (List Tree)
  | unit => []
  | named fs => fs.map NamedField.value
  | unnamed fs => fs.map UnnamedField.value

end InlineVariants
