import InlineVariants.Layout.Words
import InlineVariants.Lexeme.Scan
import InlineVariants.TypeExpr.Basic

/-!
# Reading type expressions

Types are read from lexemes by descent with one lexeme of foresight (two for a binding). A reader
either yields a value and the lexemes behind it, or gives back the lexemes from the first one that
no type can continue with. `+`, `::`, `<` and `->` always belong to the innermost type that can take
them, so `&dyn A + B` is a reference to `dyn A + B`.

Every nested type stands behind at least one lexeme of the type around it, so nesting is bounded by
the number of lexemes.
-/

namespace InlineVariants

namespace TypeExpr

/-- A reader of lexemes; it fails with the lexemes that do not fit. -/
abbrev Reader (α : Type) := StateT (List Lexeme) (Except (List Lexeme)) α

/-! ## Lexemes by their role -/

/-- The names that have a role of their own in types and name nothing. -/
def reserved : List String :=
  ["as", "const", "dyn", "extern", "fn", "for", "impl", "mut", "unsafe"]

/-- Whether a lexeme is a name that is not reserved. -/
def isFreeName (l : Lexeme) : Bool := l.cls == .name && !reserved.contains l.text

/-- Whether a lexeme is the given reserved name. -/
def isReserved (word : String) (l : Lexeme) : Bool := l.cls == .name && l.text == word

/-- Whether a lexeme is the given punctuation. -/
def isMark (op : String) (l : Lexeme) : Bool := l.cls == .punct && l.text == op

/-- Whether a lexeme has the given class. -/
def isOf (cls : LexemeClass) (l : Lexeme) : Bool := l.cls == cls

/-- Whether a lexeme begins a path. -/
def isPathStart (l : Lexeme) : Bool := isFreeName l || isMark "::" l || isMark "<" l

/-- Whether a lexeme may stand in the length of an array. -/
def isLengthPart (l : Lexeme) : Bool :=
  isFreeName l || isOf .number l || ["::", "+", "-", "*", "/"].any fun op => isMark op l

/-! ## Small readers -/

/-- Fails at the current lexeme. -/
def refuse : Reader α := fun ls => .error ls

/-- Whether the next lexeme passes a test. -/
def nextIs (test : Lexeme → Bool) : Reader Bool := fun ls => .ok (ls.head?.any test, ls)

/-- Takes the next lexeme if it passes a test. -/
def accept? (test : Lexeme → Bool) : Reader (Option Lexeme)
  | l :: ls => if test l then .ok (some l, ls) else .ok (none, l :: ls)
  | [] => .ok (none, [])

/-- Takes the next lexeme if it passes a test, and tells whether it did. -/
def accept (test : Lexeme → Bool) : Reader Bool := do return (← accept? test).isSome

/-- Takes the next lexeme, which has to pass a test. -/
def expect (test : Lexeme → Bool) : Reader Lexeme
  | l :: ls => if test l then .ok (l, ls) else .error (l :: ls)
  | [] => .error []

/-- Runs a reader with a bound on its rounds: the number of lexemes that are left. -/
def bounded (reader : Nat → Reader α) : Reader α := fun ls => reader ls.length ls

/-- The rest of a list behind an item: commas between items and perhaps one behind the last. -/
def listTail (close : Lexeme → Bool) (item : Reader α) : Nat → Reader (List α)
  | 0 => refuse
  | n + 1 => do
    if ← accept close then return []
    let _ ← expect (isMark ",")
    if ← accept close then return []
    let a ← item
    return a :: (← listTail close item n)

/-- A list with at least one item, through its closing lexeme. -/
def nonemptyList (close : Lexeme → Bool) (item : Reader α) : Reader (List α) := do
  let a ← item
  return a :: (← bounded (listTail close item))

/-- A list of items, through its closing lexeme. -/
def list (close : Lexeme → Bool) (item : Reader α) : Reader (List α) := do
  if ← accept close then return []
  nonemptyList close item

/-- Any number of further items, each behind a separator. -/
def chainTail (sep : Lexeme → Bool) (item : Reader α) : Nat → Reader (List α)
  | 0 => return []
  | n + 1 => do
    if ← accept sep then
      let a ← item
      return a :: (← chainTail sep item n)
    return []

/-- One or more items with a separator between them. -/
def chain (sep : Lexeme → Bool) (item : Reader α) : Reader (List α) := do
  let a ← item
  return a :: (← bounded (chainTail sep item))

/-! ## Parts of a type, over a reader for the types inside -/

/-- The texts of a balanced run through the bracket that closes the last open one. -/
def balanced : List Delimiter → List Lexeme → Except (List Lexeme) (List String × List Lexeme)
  | _, [] => .error []
  | stack, l :: ls =>
    match l.cls, stack with
    | .opening d, _ => (balanced (d :: stack) ls).map fun r => (l.text :: r.1, r.2)
    | .closing d, e :: outer =>
      if d != e then .error (l :: ls)
      else if outer.isEmpty then .ok ([l.text], ls)
      else (balanced outer ls).map fun r => (l.text :: r.1, r.2)
    | .closing _, [] => .error (l :: ls)
    | _, _ => (balanced stack ls).map fun r => (l.text :: r.1, r.2)

/-- A path where only a path may stand. -/
def pathOnly (ty : Reader TypeExpr) : Reader TypeExpr := do
  if ← nextIs isPathStart then ty else refuse

/-- Types in parentheses, behind the opening one. -/
def typeList (ty : Reader TypeExpr) : Reader (List TypeExpr) := list (isOf (.closing .paren)) ty

/-- The type behind `->`, if there is one. -/
def returned (ty : Reader TypeExpr) : Reader (List TypeExpr) := do
  if ← accept (isMark "->") then return [← ty]
  return []

/-- Whether a binding `name = type` comes next. -/
def nextIsBinding : Reader Bool
  | l :: m :: ls => .ok (isFreeName l && isMark "=" m, l :: m :: ls)
  | ls => .ok (false, ls)

/-- A generic argument. -/
def genericArg (ty : Reader TypeExpr) : Reader GenericArg := do
  if let some l ← accept? (isOf .lifetime) then return .lifetime l.text
  if let some l ← accept? (fun l => isOf .number l || isOf .string l || isOf .char l) then
    return .const l.text
  if let some l ← accept? (isMark "-") then
    return .const (l.text ++ (← expect (isOf .number)).text)
  if let some l ← accept? (isOf (.opening .brace)) then
    return .const (" ".intercalate (l.text :: (← balanced [.brace])))
  if ← nextIsBinding then
    let l ← expect isFreeName
    let _ ← expect (isMark "=")
    return .binding l.text (← ty)
  return .type (← ty)

/-- A segment of a path. -/
def segment (ty : Reader TypeExpr) : Reader PathSegment := do
  let l ← expect isFreeName
  if ← accept (isMark "<") then
    return .generic l.text (← list (isMark ">") (genericArg ty))
  if ← accept (isOf (.opening .paren)) then
    let _ ← typeList ty
    let _ ← returned ty
    return .callable l.text
  return .plain l.text

/-- The self type of a qualified path, behind its `<`; the trait is not kept. -/
def selfType (ty : Reader TypeExpr) : Reader TypeExpr := do
  let self ← ty
  if ← accept (isReserved "as") then
    let _ ← pathOnly ty
  let _ ← expect (isMark ">")
  return self

/-- A path type. -/
def pathType (ty : Reader TypeExpr) : Reader TypeExpr := do
  if ← accept (isMark "<") then
    let self ← selfType ty
    let _ ← expect (isMark "::")
    return .path (some self) false (← chain (isMark "::") (segment ty))
  let absolute ← accept (isMark "::")
  return .path none absolute (← chain (isMark "::") (segment ty))

/-- The binder `for<'a, 'b>`, behind its `for`. -/
def binder : Reader Unit := do
  let _ ← expect (isMark "<")
  let _ ← nonemptyList (isMark ">") (expect (isOf .lifetime))

/-- A bound; a lifetime bound holds no type. -/
def bound (ty : Reader TypeExpr) : Reader (List TypeExpr) := do
  if ← accept (isOf .lifetime) then return []
  if ← accept (isMark "?") then return [← pathOnly ty]
  if ← accept (isReserved "for") then
    binder
    return [← pathOnly ty]
  return [← pathOnly ty]

/-- Bounds with `+` between them. -/
def bounds (ty : Reader TypeExpr) : Reader (List TypeExpr) := do
  return (← chain (isMark "+") (bound ty)).flatten

/-- The length of an array, which is not kept. -/
def arrayLength : Reader Unit := do
  let _ ← expect isLengthPart
  modify (·.dropWhile isLengthPart)

/-- A function pointer type. -/
def functionType (ty : Reader TypeExpr) : Reader TypeExpr := do
  if ← accept (isReserved "for") then
    binder
  let _ ← accept (isReserved "unsafe")
  if ← accept (isReserved "extern") then
    let _ ← accept (isOf .string)
  let _ ← expect (isReserved "fn")
  let _ ← expect (isOf (.opening .paren))
  let params ← typeList ty
  return .compound .function (params ++ (← returned ty))

/-- A type, over a reader for the types inside it. -/
def typeOver (ty : Reader TypeExpr) : Reader TypeExpr := do
  if ← nextIs isPathStart then return ← pathType ty
  if ← accept (fun l => isMark "&" l || isMark "&&" l) then
    let _ ← accept (isOf .lifetime)
    let _ ← accept (isReserved "mut")
    return .compound .reference [← ty]
  if ← accept (isMark "*") then
    let _ ← expect (fun l => isReserved "const" l || isReserved "mut" l)
    return .compound .pointer [← ty]
  if ← accept (isOf (.opening .paren)) then return .compound .tuple (← typeList ty)
  if ← accept (isOf (.opening .bracket)) then
    let element ← ty
    if ← accept (isMark ";") then
      arrayLength
    let _ ← expect (isOf (.closing .bracket))
    return .compound .array [element]
  if ← accept (isMark "!") then return .compound .never []
  if ← accept (isReserved "impl") then return .compound .impl (← bounds ty)
  if ← accept (isReserved "dyn") then return .compound .dyn (← bounds ty)
  functionType ty

/-- A type with a bound on its nesting. -/
def typeWithin : Nat → Reader TypeExpr
  | 0 => refuse
  | n + 1 => typeOver (typeWithin n)

end TypeExpr

/-! ## Types from text and from trees -/

/-- Why something is no type. -/
inductive TypeFault where
  /-- There is nothing at all. -/
  | missing
  /-- A token, or the end, does not fit. -/
  | unexpectedToken (text : String)
  /-- A character that belongs to no token stands where a token has to be. -/
  | unexpectedCharacters (text : String)
deriving DecidableEq, Repr, Inhabited

/-- The wording of a fault. -/
def TypeFault.message : TypeFault → String
  | missing => "expected type"
  | unexpectedToken text => "invalid type `" ++ text ++ "`: UnexpectedToken"
  | unexpectedCharacters text => "invalid type `" ++ text ++ "`: UnexpectedCharacters"

/-- A fault and where it stands. -/
structure TypeError where
  fault : TypeFault
  span : Span
deriving DecidableEq, Repr, Inhabited

namespace TypeExpr

/-- Reads a text as a type. -/
def parse (text : List Char) : Except TypeFault TypeExpr :=
  let scan := Lexeme.scan text
  let shown := String.ofList (Text.strip text)
  let atEnd := if scan.stuck.isSome then TypeFault.unexpectedCharacters shown
    else TypeFault.unexpectedToken shown
  match bounded typeWithin scan.lexemes with
  | .ok (ty, []) => if scan.stuck.isSome then .error atEnd else .ok ty
  | .error [] => .error atEnd
  | _ => .error (.unexpectedToken shown)

/-- Reads a list of trees as a type. -/
def ofTrees (trees : List Tree) : Except TypeError TypeExpr :=
  if trees.isEmpty then .error ⟨.missing, streamSpan trees⟩
  else (parse (renderSpaced trees).toList).mapError (⟨·, streamSpan trees⟩)

end TypeExpr

end InlineVariants
