import InlineVariants.Proofs.Copying

/-!
# What is printed, piece by piece

The printer appends gaps and tokens. Here it says which of the two each stretch is, so that one can
speak of the tokens of a printed text and of what stands between them. The chunks of a list of trees
spell out what is printed (`textOf_treesChunks`), and only the gap in front of the first token depends
on the state (`treesChunks_eq_front`).
-/

namespace InlineVariants.Layout

/-- A stretch of printed text: what stands in front of a token, or a token. -/
inductive Chunk where
  | gap (text : List Char)
  | token (piece : Piece)
deriving DecidableEq, Repr

/-- The text of a chunk. -/
def Chunk.text : Chunk → List Char
  | .gap text => text
  | .token piece => piece.text.toList

/-- The text of several chunks. -/
def textOf (chunks : List Chunk) : List Char := chunks.flatMap Chunk.text

@[simp] theorem textOf_nil : textOf [] = [] := rfl

@[simp] theorem textOf_gap (gap : List Char) (chunks : List Chunk) :
    textOf (.gap gap :: chunks) = gap ++ textOf chunks := rfl

@[simp] theorem textOf_token (piece : Piece) (chunks : List Chunk) :
    textOf (.token piece :: chunks) = piece.text.toList ++ textOf chunks := rfl

@[simp] theorem textOf_append (as bs : List Chunk) : textOf (as ++ bs) = textOf as ++ textOf bs :=
  List.flatMap_append

/-- The chunk of a gap; an empty gap is none. -/
def gapChunk (gap : List Char) : List Chunk := if gap = [] then [] else [.gap gap]

@[simp] theorem gapChunk_nil : gapChunk [] = [] := rfl

@[simp] theorem textOf_gapChunk (gap : List Char) : textOf (gapChunk gap) = gap := by
  unfold gapChunk
  split <;> simp_all

/-- The chunks of one token with the gap in front of it. -/
def emitChunks (style : Style) (st : State) (piece : Piece) (start : Option Int) : List Chunk :=
  gapChunk (st.gap style piece start) ++ [.token piece]

mutual

/-- The chunks of a tree. -/
def treeChunks (style : Style) : Tree → State → List Chunk
  | .ident text s, st => emitChunks style st ⟨.ident, text⟩ s.start
  | .punct op s, st => emitChunks style st ⟨.punct, op⟩ s.start
  | .literal _ text s, st => emitChunks style st ⟨.literal, text⟩ s.start
  | .group .invisible stream s, st =>
    let gap := invisibleGap style st s
    gapChunk (gap.getD []) ++
      treesChunks style stream { st with stop := none, gapDone := gap.isSome || st.gapDone }
  | .group d stream s, st =>
    let opened := emit style st ⟨.opening, d.opening⟩ (openEnds s).1 (openEnds s).2
    let inner := trees style stream opened.2
    emitChunks style st ⟨.opening, d.opening⟩ (openEnds s).1 ++
      (treesChunks style stream opened.2 ++
        emitChunks style inner.2 ⟨.closing, d.closing⟩ (closeEnds s).1)

/-- The chunks of a list of trees. -/
def treesChunks (style : Style) : List Tree → State → List Chunk
  | [], _ => []
  | t :: ts, st => treeChunks style t st ++ treesChunks style ts (tree style t st).2

end

mutual

theorem textOf_treeChunks (style : Style) : ∀ (t : Tree) (st : State),
    textOf (treeChunks style t st) = (tree style t st).1
  | .ident .., _ | .punct .., _ | .literal .., _ => by simp [treeChunks, tree, emitChunks, emit]
  | .group .invisible ts s, st => by
    simp [treeChunks, tree, textOf_treesChunks style ts]
  | .group .paren ts s, st | .group .brace ts s, st | .group .bracket ts s, st => by
    simp [treeChunks, tree, emitChunks, emit, textOf_treesChunks style ts]

/-- The chunks spell out what is printed. -/
theorem textOf_treesChunks (style : Style) : ∀ (ts : List Tree) (st : State),
    textOf (treesChunks style ts st) = (trees style ts st).1
  | [], _ => rfl
  | t :: ts, st => by
    simp [treesChunks, trees, textOf_treeChunks style t, textOf_treesChunks style ts]

end

theorem treesChunks_append (style : Style) (st : State) (ts us : List Tree) :
    treesChunks style (ts ++ us) st =
      treesChunks style ts st ++ treesChunks style us (trees style ts st).2 := by
  induction ts generalizing st with
  | nil => rfl
  | cons t ts ih => simp [treesChunks, trees, ih]

/-! ## Only the front depends on the state -/

theorem treeChunks_eq_gap (style : Style) (st : State) {t : Tree} (h : isVisible t = true) :
    treeChunks style t st =
      gapChunk (st.gap style (firstPiece t) (firstStart t)) ++ treeChunks style t {} := by
  match t with
  | .ident .. | .punct .. | .literal .. => simp [treeChunks, emitChunks, firstPiece, firstStart, Tree.span]
  | .group .invisible .. => cases h
  | .group .paren .. | .group .brace .. | .group .bracket .. =>
    simp [treeChunks, emitChunks, emit, firstPiece, firstStart]

theorem treeChunks_eq_front (style : Style) (st : State) {t : Tree} (h : isSolid t = true) :
    treeChunks style t st = gapChunk (front style st t) ++ treeChunks style t {} := by
  match t with
  | .ident .. | .punct .. | .literal .. => exact treeChunks_eq_gap style st rfl
  | .group .paren .. | .group .brace .. | .group .bracket .. => exact treeChunks_eq_gap style st rfl
  | .group .invisible [] _ => cases h
  | .group .invisible (t :: ts) s =>
    have hn : invisibleGap style {} s = none := by
      unfold invisibleGap sourceGap; cases style.source <;> simp
    simp only [treeChunks, front, hn, treesChunks, Option.isSome_none, Option.getD_none,
      Bool.false_or, gapChunk_nil, List.nil_append]
    rw [tree_eq_gap style { st with stop := none, gapDone := _ } h, tree_eq_gap style _ h,
      treeChunks_eq_gap style { st with stop := none, gapDone := _ } h, treeChunks_eq_gap style _ h]
    cases hg : invisibleGap style st s with
    | none => simp [State.gap]
    | some gap => simp [State.gap]

theorem treesChunks_eq_front (style : Style) (st : State) {t : Tree} (ts : List Tree)
    (h : isSolid t = true) :
    treesChunks style (t :: ts) st =
      gapChunk (front style st t) ++ treesChunks style (t :: ts) {} := by
  rw [treesChunks, tree_eq_front style st h, treeChunks_eq_front style st h, treesChunks]
  simp

end InlineVariants.Layout
