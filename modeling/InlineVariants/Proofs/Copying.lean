import InlineVariants.Layout.Print
import InlineVariants.Proofs.Reading

/-!
# Printing copies the source

The printer carries a state from token to token, but what a tree prints depends on the state only
through the text in front of its first token (`tree_eq_front`). When the printer stands behind a
token of the source (`State.At`), the gap in front of the next one is copied, so trees that lie in
the source come out as the text they cover.

Main statement: printing undoes reading (`render_tokenize`).
-/

namespace InlineVariants

open Text Lexeme

namespace Layout

/-! ## Only the front depends on the state -/

/-- The token that a tree begins with, as the spacing table sees it. -/
def firstPiece : Tree → Piece
  | .ident text _ => ⟨.ident, text⟩
  | .punct op _ => ⟨.punct, op⟩
  | .literal _ text _ => ⟨.literal, text⟩
  | .group d _ _ => ⟨.opening, d.opening⟩

/-- The offset of the token that a tree begins with. -/
def firstStart : Tree → Option Int
  | .group _ _ s => (openEnds s).1
  | t => t.span.start

/-- Whether a tree begins with a token of its own. -/
def isVisible : Tree → Bool
  | .group d _ _ => d != .invisible
  | _ => true

/-- What the printer puts in front of a tree. An invisible group leaves it to the source gap in
front of its span, or else to its first child. -/
def front (style : Style) (st : State) : Tree → List Char
  | .group .invisible (t :: _) s =>
    (invisibleGap style st s).getD ({ st with stop := none }.gap style (firstPiece t) (firstStart t))
  | t => st.gap style (firstPiece t) (firstStart t)

/-- Whether a tree is visible, or an invisible group around something that is. -/
def isSolid : Tree → Bool
  | .group .invisible (t :: _) _ => isVisible t
  | .group .invisible [] _ => false
  | _ => true

@[simp] theorem State.gap_initial (style : Style) (piece : Piece) (start : Option Int) :
    ({} : State).gap style piece start = [] := rfl

theorem tree_eq_gap (style : Style) (st : State) {t : Tree} (h : isVisible t = true) :
    tree style t st =
      (st.gap style (firstPiece t) (firstStart t) ++ (tree style t {}).1, (tree style t {}).2) := by
  match t with
  | .ident .. | .punct .. | .literal .. => rfl
  | .group .invisible .. => cases h
  | .group .paren .. | .group .brace .. | .group .bracket .. => simp [tree, emit, firstPiece, firstStart]

theorem trees_cons (style : Style) (st : State) (t : Tree) (ts : List Tree) :
    trees style (t :: ts) st =
      ((tree style t st).1 ++ (trees style ts (tree style t st).2).1,
        (trees style ts (tree style t st).2).2) := rfl

theorem trees_append (style : Style) (st : State) (ts us : List Tree) :
    trees style (ts ++ us) st =
      ((trees style ts st).1 ++ (trees style us (trees style ts st).2).1,
        (trees style us (trees style ts st).2).2) := by
  induction ts generalizing st with
  | nil => rfl
  | cons t ts ih => rw [List.cons_append, trees_cons, ih, trees_cons]; simp

/-- What a solid tree prints depends on the state only in front of its first token. -/
theorem tree_eq_front (style : Style) (st : State) {t : Tree} (h : isSolid t = true) :
    tree style t st = (front style st t ++ (tree style t {}).1, (tree style t {}).2) := by
  match t with
  | .ident .. | .punct .. | .literal .. => rfl
  | .group .paren .. | .group .brace .. | .group .bracket .. => exact tree_eq_gap style st rfl
  | .group .invisible [] _ => cases h
  | .group .invisible (t :: ts) s =>
    have hn : invisibleGap style {} s = none := by
      unfold invisibleGap sourceGap; cases style.source <;> simp
    simp only [tree, front, hn, trees_cons, Option.isSome_none, Option.getD_none, Bool.false_or,
      List.nil_append]
    rw [tree_eq_gap style { st with stop := none, gapDone := _ } h, tree_eq_gap style _ h]
    cases hg : invisibleGap style st s with
    | none => simp [State.gap]
    | some gap => simp [State.gap]

theorem trees_eq_front (style : Style) (st : State) {t : Tree} (ts : List Tree)
    (h : isSolid t = true) :
    trees style (t :: ts) st =
      (front style st t ++ (trees style (t :: ts) {}).1, (trees style (t :: ts) {}).2) := by
  rw [trees_cons, tree_eq_front style st h, trees_cons]; simp

/-! ## Standing in the source -/

/-- The style that copies the gaps of a source text. -/
def copying (s : List Char) : Style := { source := some s }

/-- The printer stands behind a token that ends at `p` in the source. -/
structure State.At (st : State) (p : Position) : Prop where
  last : st.last.isSome = true
  stop : st.stop = some (p.offset : Int)
  gapDone : st.gapDone = false

theorem sourceGap_copying {s gap cs : List Char} {p : Position}
    (hp : s.drop p.offset = gap ++ cs) (hg : Gap gap) :
    sourceGap (some s) (some (p.offset : Int)) (some ((p.advance gap).offset : Int)) =
      some gap := by
  have hslice : slice s p.offset (p.advance gap).offset = gap := by
    rw [slice_natCast, hp, Position.advance_offset, Nat.add_sub_cancel_left, List.take_left]
  have hle : ¬ ((p.advance gap).offset : Int) < p.offset := by
    rw [Position.advance_offset]; omega
  simp only [sourceGap, hle, if_false, hslice, isTrivia_of_gap hg, if_true]

/-- The gap in front of the next token of the source is copied. -/
theorem State.At.gap_eq {s gap cs : List Char} {p : Position} {st : State} (hst : st.At p)
    (hp : s.drop p.offset = gap ++ cs) (hg : Gap gap) (piece : Piece) :
    st.gap (copying s) piece (some ((p.advance gap).offset : Int)) = gap := by
  obtain ⟨left, hl⟩ := Option.isSome_iff_exists.1 hst.last
  simp only [State.gap, hst.gapDone, hl, hst.stop, copying, sourceGap_copying hp hg]
  simp

theorem tree_leaf (style : Style) (st : State) (file : Option String) (l : Lexeme) :
    ∃ kind, tree style (l.leaf file) st =
      emit style st ⟨kind, l.text⟩ (some (l.start.offset : Int)) (some (l.stop.offset : Int)) := by
  unfold Lexeme.leaf
  cases l.cls <;> exact ⟨_, rfl⟩

section

variable {s : List Char} {p q : Position} {st : State} (file : Option String)

/-- A leaf is printed behind the gap in front of it. -/
theorem tree_leaf_at (cls : LexemeClass) {gap text rest : List Char} (hst : st.At p)
    (hp : s.drop p.offset = gap ++ (text ++ rest)) (hg : Gap gap) :
    (tree (copying s) (Lexeme.leaf file
        ⟨cls, String.ofList text, p.advance gap, (p.advance gap).advance text⟩) st).1 =
      gap ++ text ∧
    (tree (copying s) (Lexeme.leaf file
        ⟨cls, String.ofList text, p.advance gap, (p.advance gap).advance text⟩) st).2.At
      ((p.advance gap).advance text) := by
  obtain ⟨kind, he⟩ := tree_leaf (copying s) st file
    ⟨cls, String.ofList text, p.advance gap, (p.advance gap).advance text⟩
  rw [he, emit, hst.gap_eq hp hg]
  exact ⟨by simp, rfl, rfl, rfl⟩

/-- The brackets of a group of the source are its first and its last character. -/
theorem ends_between {d : Delimiter} (hd : d ≠ .invisible) (a b : Position) :
    openEnds (Span.between file a (b.advance d.closing.toList)) =
        (some (a.offset : Int), some ((a.advance d.opening.toList).offset : Int)) ∧
      closeEnds (Span.between file a (b.advance d.closing.toList)) =
        (some (b.offset : Int), some ((b.advance d.closing.toList).offset : Int)) := by
  have h1 : d.opening.toList.length = 1 := by cases d <;> first | rfl | exact absurd rfl hd
  have h2 : d.closing.toList.length = 1 := by cases d <;> first | rfl | exact absurd rfl hd
  simp [openEnds, closeEnds, Span.between, Span.known, h1, h2]

/-- Behind a group the printer stands at the group's end, whatever its children have become. -/
theorem tree_group_stop (style : Style) (st : State) (us : List Tree) {d : Delimiter}
    (hd : d ≠ .invisible) (a b : Position) :
    (tree style (.group d us (Span.between file a (b.advance d.closing.toList))) st).2.At
      (b.advance d.closing.toList) := by
  have hstop := congrArg Prod.snd (ends_between file hd a b).2
  cases d <;> first | exact ⟨rfl, hstop, rfl⟩ | exact absurd rfl hd

/-- A group is printed between its brackets, whatever its children have become, if only the printer
comes out where the children ended. -/
theorem tree_group_at {gap opening inner gap' closing rest body : List Char} {d : Delimiter}
    {us : List Tree} (hst : st.At p)
    (hp : s.drop p.offset = gap ++ (opening ++ inner)) (hg : Gap gap)
    (ho : IsToken (.opening d) opening inner)
    (hq : s.drop q.offset = gap' ++ (closing ++ rest)) (hg' : Gap gap')
    (hc : IsToken (.closing d) closing rest)
    (hin : ∀ st, st.At ((p.advance gap).advance opening) →
      (trees (copying s) us st).1 = body ∧ (trees (copying s) us st).2.At q) :
    (tree (copying s) (.group d us
        (Span.between file (p.advance gap) ((q.advance gap').advance closing))) st).1 =
      gap ++ (opening ++ (body ++ (gap' ++ closing))) ∧
    (tree (copying s) (.group d us
        (Span.between file (p.advance gap) ((q.advance gap').advance closing))) st).2.At
      ((q.advance gap').advance closing) := by
  obtain ⟨rfl, hd⟩ := ho.opening
  obtain ⟨rfl, -⟩ := hc.closing
  obtain ⟨hopen, hclose⟩ := ends_between file hd (p.advance gap) (q.advance gap')
  set sp := Span.between file (p.advance gap) ((q.advance gap').advance d.closing.toList)
  have htree : tree (copying s) (.group d us sp) st =
      let opened := emit (copying s) st ⟨.opening, d.opening⟩ (openEnds sp).1 (openEnds sp).2
      let inner := trees (copying s) us opened.2
      let closed :=
        emit (copying s) inner.2 ⟨.closing, d.closing⟩ (closeEnds sp).1 (closeEnds sp).2
      (opened.1 ++ (inner.1 ++ closed.1), closed.2) := by
    cases d <;> first | rfl | exact absurd rfl hd
  rw [htree, hopen, hclose]
  simp only [emit, hst.gap_eq hp hg]
  obtain ⟨hb, hat⟩ := hin ⟨some ⟨.opening, d.opening⟩,
    some (((p.advance gap).advance d.opening.toList).offset : Int), false⟩ ⟨rfl, rfl, rfl⟩
  rw [hb, hat.gap_eq hq hg']
  exact ⟨by simp, rfl, rfl, rfl⟩

/-- Trees that lie in the source come out as the text they cover. -/
theorem trees_copy {file : Option String} {cs rest : List Char} {ts : List Tree}
    (h : Reads file p cs ts q rest)
    (hp : s.drop p.offset = cs) (hst : st.At p) :
    cs = (trees (copying s) ts st).1 ++ rest ∧ (trees (copying s) ts st).2.At q := by
  induction h generalizing st with
  | nil => exact ⟨rfl, hst⟩
  | @leaf p q gap text mid rest cls t ts hg ht _ he hr ih =>
    obtain ⟨h1, h2⟩ := tree_leaf_at file cls hst hp hg
    have hmid := Position.drop_advance (Position.drop_advance hp)
    obtain ⟨ih1, ih2⟩ := ih hmid (he ▸ h2)
    rw [trees_cons, ← he] at *
    rw [h1]
    exact ⟨by simpa using ih1, ih2⟩
  | @group p q r gap opening inner gap' closing mid rest d children ts hg ho hr hg' hc hr' ih ih' =>
    have hinner := Position.drop_advance (Position.drop_advance hp)
    have hq : s.drop q.offset = gap' ++ (closing ++ mid) := hr.drop_stop hinner
    have hmid := Position.drop_advance (Position.drop_advance hq)
    obtain ⟨taken, htaken, -⟩ := hr.exists_append
    have hin : ∀ st, st.At ((p.advance gap).advance opening) →
        (trees (copying s) children st).1 = taken ∧ (trees (copying s) children st).2.At q :=
      fun st hst => by
        obtain ⟨h1, h2⟩ := ih hinner hst
        exact ⟨List.append_cancel_right (h1.symm.trans htaken), h2⟩
    obtain ⟨h1, h2⟩ := tree_group_at file hst hp hg ho hq hg' hc hin
    obtain ⟨ih1, ih2⟩ := ih' hmid h2
    rw [trees_cons, h1, htaken]
    exact ⟨by simpa using ih1, ih2⟩

end

theorem isVisible_of_reads {file : Option String} {p q : Position} {cs rest : List Char} {t : Tree}
    {ts : List Tree} (h : Reads file p cs (t :: ts) q rest) :
    isVisible t = true ∧ firstStart t = t.span.start := by
  cases h with
  | @leaf _ _ _ _ _ _ cls _ _ _ _ _ he _ =>
    rw [he]; unfold Lexeme.leaf; cases cls <;> exact ⟨rfl, rfl⟩
  | group _ ho _ _ _ _ => exact ⟨by simpa [isVisible] using ho.opening.2, rfl⟩

theorem front_of_isVisible (style : Style) (st : State) {t : Tree} (h : isVisible t = true) :
    isSolid t = true ∧ front style st t = st.gap style (firstPiece t) (firstStart t) := by
  match t with
  | .ident .. | .punct .. | .literal .. => exact ⟨rfl, rfl⟩
  | .group .invisible .. => cases h
  | .group .paren .. | .group .brace .. | .group .bracket .. => exact ⟨rfl, rfl⟩

/-- Trees that lie in the source, printed on their own, come out as the text they cover, without the
gap in front of them. -/
theorem trees_initial_copy {file : Option String} {s cs rest : List Char} {p q : Position}
    {t : Tree} {ts : List Tree} (h : Reads file p cs (t :: ts) q rest)
    (hp : s.drop p.offset = cs) :
    ∃ gap, Gap gap ∧ t.span.start = some ((p.advance gap).offset : Int) ∧
      cs = gap ++ ((trees (copying s) (t :: ts) {}).1 ++ rest) := by
  obtain ⟨gap, cs', rfl, hg, hstart, -⟩ := h.head_start
  obtain ⟨hv, hfs⟩ := isVisible_of_reads h
  -- standing in front of the gap, the printer would copy it first
  have hat : State.At ⟨some default, some (p.offset : Int), false⟩ p := ⟨rfl, rfl, rfl⟩
  obtain ⟨hsolid, hfront⟩ := front_of_isVisible (copying s) ⟨some default, some p.offset, false⟩ hv
  have hcopy := (trees_copy h hp hat).1
  rw [trees_eq_front _ _ _ hsolid, hfront, hfs, hstart, hat.gap_eq hp hg, List.append_assoc] at hcopy
  exact ⟨gap, hg, hstart, hcopy⟩

end Layout

/-! ## Printing undoes reading -/

/-- The trees of a text print as the text from the first to behind the last token. What is left out
at the two ends is blanks and comments, and whatever the scanner passes over, the printer takes for
trivia. -/
theorem render_tokenize {s : List Char} {file : Option String} {trees : List Tree}
    {first last : Tree} (h : tokenize s file = .ok trees) (hfirst : trees.head? = some first)
    (hlast : trees.getLast? = some last) :
    (∃ a b : Nat, first.span.start = some (a : Int) ∧ last.span.stop = some (b : Int) ∧
      a ≤ b ∧ b ≤ s.length ∧ render trees (some s) = slice s a b ∧
      Lexeme.scan (s.take a) = {} ∧ Lexeme.scan (s.drop b) = {}) ∧
    ∀ gap, Lexeme.scan gap = {} → Layout.isTrivia gap = true := by
  refine ⟨?_, fun gap => Layout.isTrivia_of_scan_eq_empty⟩
  obtain ⟨q, rest, hr, hrest⟩ := tokenize_reads h
  obtain ⟨ts, rfl⟩ := List.head?_eq_some_iff.1 hfirst
  obtain ⟨gap, hg, hstart, hs⟩ := Layout.trees_initial_copy hr rfl
  obtain ⟨taken, hs', rfl⟩ := hr.exists_append
  have hstop := hr.last_stop hlast
  obtain ⟨body, hbody⟩ : ∃ body, render (first :: ts) (some s) = body := ⟨_, rfl⟩
  rw [show (Layout.trees (Layout.copying s) (first :: ts) {}).1 = body from hbody] at hs
  obtain rfl : gap ++ body = taken := by
    rw [← List.append_assoc] at hs
    exact List.append_cancel_right (hs.symm.trans hs')
  rw [Position.advance_offset, show Position.first.offset = 0 from rfl, Nat.zero_add] at hstart hstop
  refine ⟨_, _, hstart, hstop, ?_, ?_, ?_, ?_, ?_⟩
  · rw [List.length_append]; omega
  · have := congrArg List.length hs'
    rw [List.length_append] at this; omega
  · rw [slice_natCast, hbody, hs]
    simp
  · rw [hs, List.take_left]
    exact Lexeme.scan_eq_empty_iff.2 ⟨gap, [], by simp, hg, .inl rfl⟩
  · rw [hs', List.drop_left]
    exact hrest

/-- The comment in the middle nests and holds a quote and a bracket; the one at the end is open. -/
theorem render_tokenize_nested_comment :
    let s := "( a /* /* \" */ ) */ ) // b".toList
    ∃ trees first last,
      tokenize s = .ok trees ∧ trees.head? = some first ∧ trees.getLast? = some last ∧
      ∃ a b : Nat, first.span.start = some (a : Int) ∧ last.span.stop = some (b : Int) ∧
        a ≤ b ∧ b ≤ s.length ∧ render trees (some s) = slice s a b ∧
        Lexeme.scan (s.take a) = {} ∧ Lexeme.scan (s.drop b) = {} := by
  have h : tokenize "( a /* /* \" */ ) */ ) // b".toList = .ok [.group .paren
      [.ident "a" ⟨none, some 1, some 3, some 1, some 4, some 2, some 3⟩]
      ⟨none, some 1, some 1, some 1, some 22, some 0, some 21⟩] := by cbv
  exact ⟨_, _, _, h, rfl, rfl, (render_tokenize h rfl rfl).1⟩

end InlineVariants
