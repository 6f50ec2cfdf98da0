import InlineVariants.Token.Keyword
import InlineVariants.TypeExpr.Parser

/-!
# The error type of a function

The markers of a function build values of the error type that its return type names: in
`Result<(), ShaveError>` it is `ShaveError`. Only a bare name will do, because it becomes the name
of the generated enum and stands in front of every construction.
-/

namespace InlineVariants

/-- The name of the result type that is looked for. -/
def resultName : String := "Result"

namespace TypeExpr

/-- The name of a type that is a single bare segment. -/
def bareName? : TypeExpr → Option String
  | path none false [.plain name] => some name
  | _ => none

/-- Whether a name may be the name of the generated enum: no keyword, and not raw. -/
def isEnumName (name : String) : Bool := !isKeyword name && !name.startsWith "r#"

/-- The name of the error type of `Result<T, E>`, if the type has that form under the given name of
the result type. -/
def errorName? (ty : TypeExpr) (result : String := resultName) : Option String :=
  match ty with
  | path none _ segments =>
    match segments.getLast? with
    | some (.generic name [_, .type error]) =>
      if name = result then error.bareName?.filter isEnumName else none
    | _ => none
  | _ => none

end TypeExpr

mutual

/-- The span of the last identifier with the given text in a tree. -/
def Tree.lastSpanOf? (text : String) : Tree → Option Span
  | .ident t s => if t = text then some s else none
  | .group _ stream _ => lastSpanOf? text stream
  | .punct _ _ => none
  | .literal _ _ _ => none

/-- The span of the last identifier with the given text in a list of trees. -/
def lastSpanOf? (text : String) : List Tree → Option Span
  | [] => none
  | t :: ts => lastSpanOf? text ts <|> t.lastSpanOf? text

end

/-- The error type that the tokens behind `->` name, with the place where they name it. There is
none when the tokens are missing, are no type, or name no bare error type. -/
def errorType? (returned : Option (List Tree)) (result : String := resultName) : Option Name :=
  match returned with
  | none => none
  | some trees =>
    match TypeExpr.ofTrees trees with
    | .error _ => none
    | .ok ty => (ty.errorName? result).map fun name =>
        ⟨name, (lastSpanOf? name trees).getD Span.unknown⟩

end InlineVariants
