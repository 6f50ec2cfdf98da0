import InlineVariants.Token.Tree

/-!
# Function headers

Of a function only its outline is read:

    attribute* visibility? qualifier* "fn" name generics? "(...)" ("->" type)? where? "{...}"

The return type ends at the body, at `where` or at `;`, outside of angle brackets. A where clause
ends at the first brace group or `;`.
-/

namespace InlineVariants

/-- Why an item is no function with a body. -/
inductive ItemFault where
  | notFunction (tag : String)
  | missingName
  | missingParameters (name : String)
  | missingBody (name : String)
deriving DecidableEq, Repr, Inhabited

/-- The wording of a fault. -/
def ItemFault.message : ItemFault → String
  | notFunction tag => "`#[" ++ tag ++ "]` can only be applied to functions"
  | missingName => "expected function name after `fn`"
  | missingParameters name => "expected parameter list of `" ++ name ++ "`"
  | missingBody name => "function `" ++ name ++ "` has no body"

/-- A fault and where it stands. -/
structure ItemError where
  fault : ItemFault
  span : Span
deriving DecidableEq, Repr, Inhabited

/-- The outline of a function. -/
structure FunctionHeader where
  name : Name
  visibility : List Tree
  /-- The trees behind `->`, if there is one. -/
  returned : Option (List Tree)
  body : List Tree
  bodySpan : Span
  /-- The trees behind the body. -/
  rest : List Tree
deriving Repr, Inhabited

namespace FunctionHeader

/-- The trees behind any outer attributes. -/
def afterAttributes : List Tree → List Tree
  | pound :: brackets :: rest =>
    if pound.isPunct "#" && brackets.isGroup .bracket then afterAttributes rest
    else pound :: brackets :: rest
  | trees => trees

/-- A visibility in front, `pub` or `pub` and a parenthesized group, and the trees behind it. -/
def visibilityRun : List Tree → List Tree × List Tree
  | first :: rest =>
    if first.isWord "pub" then
      match rest with
      | second :: more =>
        if second.isGroup .paren then ([first, second], more) else ([first], second :: more)
      | [] => ([first], [])
    else ([], first :: rest)
  | [] => ([], [])

/-- The words that may stand in front of `fn` alone. -/
def qualifiers : List String := ["const", "async", "unsafe", "default"]

/-- Whether a tree is a qualifier. -/
def isQualifier : Tree → Bool
  | .ident text _ => qualifiers.contains text
  | _ => false

/-- Whether a tree is a literal. -/
def isLiteral : Tree → Bool
  | .literal _ _ _ => true
  | _ => false

/-- The trees behind any qualifiers; `extern` may have a literal behind it. -/
def afterQualifiers : List Tree → List Tree
  | [] => []
  | first :: rest =>
    if isQualifier first then afterQualifiers rest
    else if first.isWord "extern" then
      match rest with
      | second :: more =>
        if isLiteral second then afterQualifiers more else afterQualifiers (second :: more)
      | [] => []
    else first :: rest

/-- The trees behind the bracket that closes the last of `depth` open angle brackets. -/
def afterAngles (depth : Nat) : List Tree → List Tree
  | [] => []
  | t :: rest =>
    if t.isPunct "<" then afterAngles (depth + 1) rest
    else if t.isPunct ">" then
      if depth ≤ 1 then rest else afterAngles (depth - 1) rest
    else afterAngles depth rest

/-- The trees behind generics, if there are any. -/
def afterGenerics (trees : List Tree) : List Tree :=
  if trees.head?.any (·.isPunct "<") then afterAngles 0 trees else trees

/-- Whether a tree ends a return type that has no angle bracket open. -/
def endsReturn (t : Tree) : Bool := t.isGroup .brace || t.isWord "where" || t.isPunct ";"

/-- A return type in front, where `depth` more angle brackets were opened than closed, and the trees
behind it. -/
def returnRun (depth : Int) : List Tree → List Tree × List Tree
  | [] => ([], [])
  | t :: rest =>
    if depth = 0 && endsReturn t then ([], t :: rest)
    else
      let depth' := if t.isPunct "<" then depth + 1 else if t.isPunct ">" then depth - 1 else depth
      let run := returnRun depth' rest
      (t :: run.1, run.2)

/-- The return type, if there is an arrow, and the trees behind it. -/
def returnType : List Tree → Option (List Tree) × List Tree
  | arrow :: rest =>
    if arrow.isPunct "->" then
      let run := returnRun 0 rest
      (some run.1, run.2)
    else (none, arrow :: rest)
  | [] => (none, [])

/-- The trees behind a where clause, if there is one. -/
def afterWhere (trees : List Tree) : List Tree :=
  if trees.head?.any (·.isWord "where") then
    trees.dropWhile fun t => !(t.isGroup .brace || t.isPunct ";")
  else trees

/-- Reads what follows the name of a function. -/
def parseRest (name : Name) (visibility trees : List Tree) : Except ItemError FunctionHeader :=
  match afterGenerics trees with
  | .group .paren _ _ :: afterParameters =>
    let (returned, afterReturn) := returnType afterParameters
    match afterWhere afterReturn with
    | .group .brace body bodySpan :: rest =>
      .ok { name, visibility, returned, body, bodySpan, rest }
    | _ => .error ⟨.missingBody name.text, name.span⟩
  | _ => .error ⟨.missingParameters name.text, name.span⟩

/-- Reads the outline of the function in front of a list of trees. The tag is the name of the
attribute that asked for a function. -/
def parse (tag : String) (trees : List Tree) : Except ItemError FunctionHeader :=
  let item := afterAttributes trees
  let itemSpan := (item.head?.map Tree.span).getD Span.unknown
  let (visibility, afterVisibility) := visibilityRun item
  match afterQualifiers afterVisibility with
  | keyword :: afterKeyword =>
    if keyword.isWord "fn" then
      match afterKeyword with
      | .ident text span :: afterName => parseRest ⟨text, span⟩ visibility afterName
      | _ => .error ⟨.missingName, itemSpan⟩
    else .error ⟨.notFunction tag, itemSpan⟩
  | [] => .error ⟨.notFunction tag, itemSpan⟩

end FunctionHeader

end InlineVariants
