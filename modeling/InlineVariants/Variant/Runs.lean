import InlineVariants.Token.Tree

/-!
# Where types and values end

A type runs up to the first `=` or `,` outside of angle brackets. A value runs up to the next `,`
that stands neither between turbofish brackets (`f::<A, B>()`) nor between the bars of closure
parameters (`|a, b| a + b`).

The lexer glues a `=` to the angle brackets in front of it. When a `>=` or `>>=` closes exactly the
brackets that are open, it is split into its characters, and each piece keeps its own span.
-/

namespace InlineVariants

/-! ## Types -/

/-- How many angle brackets a glued token closes. -/
def gluedAngles? (op : String) : Option Nat :=
  if op = ">=" then some 1 else if op = ">>=" then some 2 else none

/-- The span of one character of a token. -/
def Span.charAt (s : Span) (i : Nat) : Span :=
  match s.start, s.stop with
  | some a, some _ =>
    { file := s.file
      line := s.line
      column := s.column.map (· + i)
      endLine := s.line
      endColumn := s.column.map (· + i + 1)
      start := some (a + i)
      stop := some (a + i + 1) }
  | _, _ => Span.unknown

/-- The `>` pieces of a glued token that closes `n` brackets. -/
def anglePieces (span : Span) (n : Nat) : List Tree :=
  (List.range n).map fun i => .punct ">" (span.charAt i)

/-- The `=` piece of a glued token that closes `n` brackets. -/
def equalsPiece (span : Span) (n : Nat) : Tree := .punct "=" (span.charAt n)

/-- The number of open angle brackets behind a punctuation. -/
def angleDepth (depth : Nat) (op : String) : Nat :=
  if op = "<" then depth + 1 else if op = ">" then depth - 1 else depth

/-- Takes the trees of a type from the front, where `depth` angle brackets are open. Gives the type
and the trees behind it, with a glued token split between the two. -/
def typeRun (depth : Nat) : List Tree → List Tree × List Tree
  | [] => ([], [])
  | .punct op span :: rest =>
    if depth = 0 && (op = "=" || op = ",") then ([], .punct op span :: rest)
    else if gluedAngles? op = some depth then
      (anglePieces span depth, equalsPiece span depth :: rest)
    else
      let run := typeRun (angleDepth depth op) rest
      (.punct op span :: run.1, run.2)
  | t :: rest =>
    let run := typeRun depth rest
    (t :: run.1, run.2)

/-! ## Values -/

/-- Whether a `|` opens closure parameters, by the trees taken so far, last one first: at the
beginning, behind `move`, behind a unary operator and behind `&mut`. -/
def closureMayStart : List Tree → Bool
  | [] => true
  | last :: before =>
    last.isWord "move" || (last.isWord "mut" && before.head?.any (·.isPunct "&")) ||
      last.isPunct "&" || last.isPunct "&&" || last.isPunct "*"

/-- What the end of a value depends on. -/
structure ValueState where
  /-- The trees taken so far, last one first. -/
  taken : List Tree := []
  /-- How many turbofish brackets are open. -/
  angles : Nat := 0
  /-- Whether the bars of closure parameters are open. -/
  bars : Bool := false
deriving Inhabited

namespace ValueState

/-- Whether a tree ends the value. -/
def isEnd (st : ValueState) (t : Tree) : Bool := t.isPunct "," && st.angles == 0 && !st.bars

/-- The state behind one more tree. -/
def push (st : ValueState) (t : Tree) : ValueState :=
  let st' := { st with taken := t :: st.taken }
  match t with
  | .punct op _ =>
    if op = "|" then
      if st.bars then { st' with bars := false }
      else { st' with bars := closureMayStart st.taken }
    else if op = "<" then
      if st.angles ≠ 0 || st.taken.head?.any (·.isPunct "::") then
        { st' with angles := st.angles + 1 }
      else st'
    else if op = ">" then { st' with angles := st.angles - 1 }
    else st'
  | _ => st'

end ValueState

/-- Takes the trees of a value from the front. Gives the value and the trees behind it. -/
def valueRun (st : ValueState) : List Tree → List Tree × List Tree
  | [] => ([], [])
  | t :: rest =>
    if st.isEnd t then ([], t :: rest)
    else
      let run := valueRun (st.push t) rest
      (t :: run.1, run.2)

end InlineVariants
