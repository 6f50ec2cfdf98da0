/-!
# Type expressions

Only path types are kept in detail: their segments and generic arguments tell which error type a
return type names. Every other form of type is kept as its kind and the types directly inside.
-/

namespace InlineVariants

/-- The forms of a type that is no path. -/
inductive TypeForm where
  | reference
  | pointer
  | tuple
  | array
  | never
  | impl
  | dyn
  | function
deriving DecidableEq, Repr, Inhabited

mutual

/-- A type. -/
inductive TypeExpr where
  /-- A path, perhaps behind a qualified self type `<T as Trait>`, perhaps with `::` in front. -/
  | path (self : Option TypeExpr) (absolute : Bool) (segments : List PathSegment)
  /-- Any other type and the types directly inside it, in the order they are written. -/
  | compound (form : TypeForm) (parts : List TypeExpr)

/-- One segment of a path. -/
inductive PathSegment where
  /-- A bare name. -/
  | plain (name : String)
  /-- A name with arguments in angle brackets, perhaps none. -/
  | generic (name : String) (args : List GenericArg)
  /-- A name with parenthesized arguments, as in `Fn(A) -> B`; they are not kept. -/
  | callable (name : String)

/-- An argument in angle brackets. -/
inductive GenericArg where
  | type (ty : TypeExpr)
  | lifetime (name : String)
  /-- A binding of an associated type, `Item = u8`. -/
  | binding (name : String) (ty : TypeExpr)
  | const (text : String)

end

instance : Inhabited TypeExpr := ⟨.compound .never []⟩

/-- The name of a segment. -/
def PathSegment.name : PathSegment → String
  | plain name => name
  | generic name _ => name
  | callable name => name

end InlineVariants
