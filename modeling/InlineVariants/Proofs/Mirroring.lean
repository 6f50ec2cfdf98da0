import InlineVariants.Proofs.Relexing
import InlineVariants.Proofs.Rewriting

/-!
# Printed trees mirror the source

`Carries` says that the chunks of some trees mirror a stretch of the source (`Mirrors`), and that
their words spell the trees with the invisible groups dissolved, up to tokens that were split. Such
stretches are put together: leaves and groups of the source, and the marks, brackets and names that
are put in.

Main statement: the trees of the source are carried, also when tokens in them were split
(`Layout.carries_splits`).
-/

namespace InlineVariants

open Text Lexeme Layout

/-! ## Invisible groups dissolved -/

mutual

/-- A tree in which every invisible group is replaced by its children. -/
def Tree.dissolved : Tree → List Tree
  | .group .invisible stream _ => dissolvedOf stream
  | .group d stream span => [.group d (dissolvedOf stream) span]
  | t => [t]

/-- Trees in which every invisible group is replaced by its children. -/
def dissolvedOf : List Tree → List Tree
  | [] => []
  | t :: ts => t.dissolved ++ dissolvedOf ts

end

theorem dissolvedOf_append (ts us : List Tree) :
    dissolvedOf (ts ++ us) = dissolvedOf ts ++ dissolvedOf us := by
  induction ts with
  | nil => rfl
  | cons t ts ih => simp [dissolvedOf, ih]

theorem Tree.dissolved_group {d : Delimiter} (hd : d ≠ .invisible) (ts : List Tree) (span : Span) :
    (Tree.group d ts span).dissolved = [.group d (dissolvedOf ts) span] := by
  cases d <;> first | rfl | exact absurd rfl hd

/-! ## Chunks that carry trees -/

/-- The chunks begin with something inert. -/
def BeginsInert (chunks : List Chunk) : Prop := textOf chunks ≠ [] ∧ Inert (textOf chunks)

namespace BeginsInert

theorem append {chunks : List Chunk} (h : BeginsInert chunks) (more : List Chunk) :
    Inert (textOf (chunks ++ more)) := by
  obtain ⟨c, rest, hc⟩ := List.exists_cons_of_ne_nil h.1
  intro c' rest' he
  rw [textOf_append, hc] at he
  exact (List.cons.inj he).1 ▸ h.2 c rest hc

theorem mark {op : String} {cls : LexemeClass} (hop : (op, cls) ∈ madeMarks) (kind : Kind)
    (chunks : List Chunk) : BeginsInert (.token ⟨kind, op⟩ :: chunks) := by
  have hne : ∀ m ∈ madeMarks, m.1.toList ≠ [] := by decide
  exact ⟨by simpa using fun h => absurd h (by simpa using hne _ hop), (inert_mark hop _).1⟩

theorem loose {gap : List Char} {chunks : List Chunk} (hg : Loose gap) (h : BeginsInert chunks) :
    BeginsInert (gapChunk gap ++ chunks) := by
  rcases hg with rfl | rfl
  · exact h
  · refine ⟨by simp, ?_⟩
    rintro c rest ⟨⟩
    decide

end BeginsInert

/-- The chunks are printed from the old text up to its rest, and their words spell the trees. -/
def Carries (old rest : List Char) (chunks : List Chunk) (us : List Tree) : Prop :=
  ∃ words vs, Splits vs (dissolvedOf us) ∧ Spells words vs ∧
    ∀ more moreWords, Mirrors rest more moreWords →
      Mirrors old (chunks ++ more) (words ++ moreWords)

namespace Carries

variable {old mid rest : List Char} {chunks chunks' : List Chunk} {us us' : List Tree}

theorem nil : Carries old old [] [] := ⟨[], [], .nil, .nil, fun _ _ h => h⟩

theorem append (h : Carries old mid chunks us) (h' : Carries mid rest chunks' us') :
    Carries old rest (chunks ++ chunks') (us ++ us') := by
  obtain ⟨words, vs, hs, hw, hm⟩ := h
  obtain ⟨words', vs', hs', hw', hm'⟩ := h'
  refine ⟨words ++ words', vs ++ vs', ?_, hw.append hw', fun more moreWords hmore => ?_⟩
  · rw [dissolvedOf_append]
    exact hs.append hs'
  · rw [List.append_assoc, List.append_assoc]
    exact hm _ _ (hm' _ _ hmore)

theorem gap_append {gap : List Char} (hg : Gap gap) (h : Carries old rest chunks us) :
    Carries (gap ++ old) rest (gapChunk gap ++ chunks) us := by
  obtain ⟨words, vs, hs, hw, hm⟩ := h
  refine ⟨words, vs, hs, hw, fun more moreWords hmore => ?_⟩
  rw [List.append_assoc]
  exact (hm _ _ hmore).gap_append hg

theorem leaf {file : Option String} {cls : LexemeClass} {kind : Kind} {text : List Char}
    {a b : Position} (ht : IsToken cls text mid) (hl : cls.isLeaf = true) :
    Carries (text ++ mid) mid [.token ⟨kind, String.ofList text⟩]
      [Lexeme.leaf file ⟨cls, String.ofList text, a, b⟩] := by
  refine ⟨[(cls, String.ofList text)], [Lexeme.leaf file ⟨cls, String.ofList text, a, b⟩], ?_,
    .leaf hl (Lexeme.bare_leaf file _) .nil, fun more moreWords hmore => ?_⟩
  · have hplain : dissolvedOf [Lexeme.leaf file ⟨cls, String.ofList text, a, b⟩] =
        [Lexeme.leaf file ⟨cls, String.ofList text, a, b⟩] := by
      unfold Lexeme.leaf
      cases cls <;> rfl
    rw [hplain]
    exact .refl _
  · have htoken : Mirrors ((String.ofList text).toList ++ mid)
        (.token ⟨kind, String.ofList text⟩ :: more) ((cls, String.ofList text) :: moreWords) :=
      .token (by rwa [String.toList_ofList]) hmore
    rwa [String.toList_ofList] at htoken

theorem pieces {op : String} {n : Nat} {span : Span} (hop : gluedAngles? op = some n)
    (ht : IsToken .punct op.toList mid) :
    Carries (op.toList ++ mid) mid (pieceChunks n) (anglePieces span n ++ [equalsPiece span n]) := by
  refine ⟨[(.punct, op)], [.punct op span], ?_, .leaf rfl rfl .nil,
    fun more moreWords hmore => .pieces hop ht hmore⟩
  have hplain : dissolvedOf (anglePieces span n ++ [equalsPiece span n]) =
      anglePieces span n ++ [equalsPiece span n] := by
    rcases gluedAngles?_cases hop with ⟨-, rfl⟩ | ⟨-, rfl⟩ <;> rfl
  rw [hplain]
  exact .pieces hop .nil

theorem group {opening inner gap closing : List Char} {d : Delimiter} {span : Span}
    (ho : IsToken (.opening d) opening inner)
    (h : Carries inner (gap ++ (closing ++ mid)) chunks us) (hg : Gap gap)
    (hc : IsToken (.closing d) closing mid) :
    Carries (opening ++ inner) mid
      (.token ⟨.opening, d.opening⟩ ::
        (chunks ++ (gapChunk gap ++ [.token ⟨.closing, d.closing⟩])))
      [.group d us span] := by
  obtain ⟨words, vs, hs, hw, hm⟩ := h
  obtain ⟨rfl, hd⟩ := ho.opening
  obtain ⟨rfl, -⟩ := hc.closing
  refine ⟨_, [.group d vs span], ?_, .group hw .nil, fun more moreWords hmore => ?_⟩
  · rw [dissolvedOf, Tree.dissolved_group hd]
    exact .inside hs .nil
  · have hclose : Mirrors (d.closing.toList ++ mid) (.token ⟨.closing, d.closing⟩ :: more)
        ((.closing d, d.closing) :: moreWords) := .token hc hmore
    have hopen : Mirrors (d.opening.toList ++ inner) (.token ⟨.opening, d.opening⟩ ::
        (chunks ++ (gapChunk gap ++ .token ⟨.closing, d.closing⟩ :: more)))
        ((.opening d, d.opening) :: (words ++ (.closing d, d.closing) :: moreWords)) :=
      .token ho (hm _ _ (hclose.gap_append hg))
    simpa using hopen

theorem loose {gap : List Char} (hg : Loose gap) (h : Carries old rest chunks us) :
    Carries old rest (gapChunk gap ++ chunks) us := by
  obtain ⟨words, vs, hs, hw, hm⟩ := h
  refine ⟨words, vs, hs, hw, fun more moreWords hmore => ?_⟩
  rw [List.append_assoc]
  exact (hm _ _ hmore).loose hg

/-- A mark that is put in leaves the source and takes it up again further on. -/
theorem mark {op : String} (hop : (op, .punct) ∈ madeMarks)
    (hbang : op = "!" → BeginsInert chunks) (hs : mid <:+ old) (h : Carries mid rest chunks us) :
    Carries old rest (.token ⟨.punct, op⟩ :: chunks) (Tree.mark op :: us) := by
  obtain ⟨words, vs, hsplits, hw, hm⟩ := h
  refine ⟨(.punct, op) :: words, Tree.mark op :: vs, .keep hsplits, .leaf rfl rfl hw,
    fun more moreWords hmore => ?_⟩
  exact .mark hop (fun h => (hbang h).append more) hs (hm _ _ hmore)

/-- A step of a path that is put in. -/
theorem step {name : String} {gap : List Char} (hname : IsToken .name name.toList [])
    (hg : Loose gap) (hi : BeginsInert chunks) (h : Carries old rest chunks us) :
    Carries old rest (.token ⟨.punct, "::"⟩ :: (gapChunk gap ++ .token ⟨.ident, name⟩ :: chunks))
      (Tree.mark "::" :: Tree.word name :: us) := by
  obtain ⟨words, vs, hsplits, hw, hm⟩ := h
  refine ⟨(.punct, "::") :: (.name, name) :: words, Tree.mark "::" :: Tree.word name :: vs,
    .keep (.keep hsplits), .leaf rfl rfl (.leaf rfl rfl hw), fun more moreWords hmore => ?_⟩
  have hstep : Mirrors old (.token ⟨.punct, "::"⟩ ::
      (gapChunk gap ++ .token ⟨.ident, name⟩ :: (chunks ++ more)))
      ((.punct, "::") :: (.name, name) :: (words ++ moreWords)) :=
    .step (by decide) (by decide) hg hname (hi.append more) (hm _ _ hmore)
  simpa using hstep

section brackets

variable {d : Delimiter} {span : Span} {gap ahead : List Char}

/-- Brackets that are put in. -/
theorem enclosed (hd : d = .paren ∨ d = .brace) (hs : ahead <:+ old) (hg : Loose gap)
    (hr : rest <:+ mid) (h : Carries ahead mid chunks us) :
    Carries old rest
      (.token ⟨.opening, d.opening⟩ ::
        (chunks ++ (gapChunk gap ++ [.token ⟨.closing, d.closing⟩])))
      [.group d us span] := by
  obtain ⟨words, vs, hsplits, hw, hm⟩ := h
  have hmarks : (d.opening, .opening d) ∈ madeMarks ∧ (d.closing, .closing d) ∈ madeMarks ∧
      d.opening ≠ "!" ∧ d.closing ≠ "!" ∧ d ≠ .invisible := by
    rcases hd with rfl | rfl <;> decide
  obtain ⟨hopening, hclosing, hopen, hclose, hd⟩ := hmarks
  refine ⟨_, [.group d vs span], ?_, .group hw .nil, fun more moreWords hmore => ?_⟩
  · rw [dissolvedOf, Tree.dissolved_group hd]
    exact .inside hsplits .nil
  · have hend : Mirrors mid (.token ⟨.closing, d.closing⟩ :: more)
        ((.closing d, d.closing) :: moreWords) :=
      .mark hclosing (fun h => absurd h hclose) hr hmore
    have hall : Mirrors old (.token ⟨.opening, d.opening⟩ ::
        (chunks ++ (gapChunk gap ++ .token ⟨.closing, d.closing⟩ :: more)))
        ((.opening d, d.opening) :: (words ++ (.closing d, d.closing) :: moreWords)) :=
      .mark hopening (fun h => absurd h hopen) hs (hm _ _ (hend.loose hg))
    simpa using hall

/-- Brackets that are put in with a name behind the first. -/
theorem enclosed_name {name : String} {gap' : List Char} (hname : IsToken .name name.toList [])
    (hg' : Loose gap') (hi : BeginsInert chunks) (hg : Loose gap) (hr : rest <:+ mid)
    (h : Carries old mid chunks us) :
    Carries old rest
      (.token ⟨.opening, Delimiter.paren.opening⟩ :: (gapChunk gap' ++ .token ⟨.ident, name⟩ ::
        (chunks ++ (gapChunk gap ++ [.token ⟨.closing, Delimiter.paren.closing⟩]))))
      [.group .paren (Tree.word name :: us) span] := by
  obtain ⟨words, vs, hsplits, hw, hm⟩ := h
  have hinner : Spells ((.name, name) :: words) (Tree.word name :: vs) := .leaf rfl rfl hw
  refine ⟨_, [.group .paren (Tree.word name :: vs) span], .inside (.keep hsplits) .nil,
    .group hinner .nil, fun more moreWords hmore => ?_⟩
  have hend : Mirrors mid (.token ⟨.closing, Delimiter.paren.closing⟩ :: more)
      ((.closing .paren, Delimiter.paren.closing) :: moreWords) :=
    .mark (by decide) (fun h => absurd h (by decide)) hr hmore
  have hall : Mirrors old (.token ⟨.opening, Delimiter.paren.opening⟩ ::
      (gapChunk gap' ++ .token ⟨.ident, name⟩ ::
        (chunks ++ (gapChunk gap ++ .token ⟨.closing, Delimiter.paren.closing⟩ :: more))))
      ((.opening .paren, Delimiter.paren.opening) :: (.name, name) ::
        (words ++ (.closing .paren, Delimiter.paren.closing) :: moreWords)) :=
    .step (by decide) (by decide) hg' hname (hi.append _) (hm _ _ (hend.loose hg))
  simpa using hall

end brackets

end Carries

/-! ## Copied trees -/

theorem Lexeme.leaf_eq_punct {file : Option String} {l : Lexeme} {op : String} {span : Span}
    (hl : l.cls.isLeaf = true) (h : l.leaf file = .punct op span) :
    l.cls = .punct ∧ op = l.text ∧ span = l.span file := by
  obtain ⟨cls, text, a, b⟩ := l
  cases cls <;> simp [Lexeme.leaf, LexemeClass.isLeaf] at hl h
  exact ⟨rfl, h.1.symm, h.2.symm⟩

namespace Layout

variable {s : List Char} {p q : Position} {st : State}

theorem State.At.emitChunks_eq {gap cs : List Char} (hst : st.At p)
    (hp : s.drop p.offset = gap ++ cs) (hg : Gap gap) (piece : Piece) :
    emitChunks (copying s) st piece (some ((p.advance gap).offset : Int)) =
      gapChunk gap ++ [.token piece] := by
  rw [emitChunks, hst.gap_eq hp hg]

theorem treeChunks_leaf (style : Style) (st : State) (file : Option String) (l : Lexeme) :
    ∃ kind, treeChunks style (l.leaf file) st =
      emitChunks style st ⟨kind, l.text⟩ (some (l.start.offset : Int)) := by
  unfold Lexeme.leaf
  cases l.cls <;> exact ⟨_, rfl⟩

/-- The chunks of a leaf of the source. -/
theorem carries_leaf {file : Option String} {cls : LexemeClass} {gap text mid : List Char}
    (hst : st.At p) (hp : s.drop p.offset = gap ++ (text ++ mid)) (hg : Gap gap)
    (ht : IsToken cls text mid) (hl : cls.isLeaf = true) :
    Carries (gap ++ (text ++ mid)) mid
      (treeChunks (copying s) (Lexeme.leaf file
        ⟨cls, String.ofList text, p.advance gap, (p.advance gap).advance text⟩) st)
      [Lexeme.leaf file
        ⟨cls, String.ofList text, p.advance gap, (p.advance gap).advance text⟩] := by
  obtain ⟨kind, he⟩ := treeChunks_leaf (copying s) st file
    ⟨cls, String.ofList text, p.advance gap, (p.advance gap).advance text⟩
  rw [he, hst.emitChunks_eq hp hg]
  exact (Carries.leaf ht hl).gap_append hg

/-- The chunks of a group of the source, whatever its children have become, if only the printer comes
out where the children ended. -/
theorem carries_group {file : Option String} {gap opening inner gap' closing mid : List Char}
    {d : Delimiter} {us : List Tree} (hst : st.At p)
    (hp : s.drop p.offset = gap ++ (opening ++ inner)) (hg : Gap gap)
    (ho : IsToken (.opening d) opening inner)
    (hq : s.drop q.offset = gap' ++ (closing ++ mid)) (hg' : Gap gap')
    (hc : IsToken (.closing d) closing mid)
    (hin : ∀ st, st.At ((p.advance gap).advance opening) →
      Carries inner (gap' ++ (closing ++ mid)) (treesChunks (copying s) us st) us ∧
        (trees (copying s) us st).2.At q) :
    Carries (gap ++ (opening ++ inner)) mid
      (treeChunks (copying s) (.group d us
        (Span.between file (p.advance gap) ((q.advance gap').advance closing))) st)
      [.group d us (Span.between file (p.advance gap) ((q.advance gap').advance closing))] := by
  obtain ⟨rfl, hd⟩ := ho.opening
  obtain ⟨rfl, -⟩ := hc.closing
  obtain ⟨hopen, hclose⟩ := ends_between file hd (p.advance gap) (q.advance gap')
  set span := Span.between file (p.advance gap) ((q.advance gap').advance d.closing.toList)
  have hchunks : treeChunks (copying s) (.group d us span) st =
      let opened := emit (copying s) st ⟨.opening, d.opening⟩ (openEnds span).1 (openEnds span).2
      let inner := trees (copying s) us opened.2
      emitChunks (copying s) st ⟨.opening, d.opening⟩ (openEnds span).1 ++
        (treesChunks (copying s) us opened.2 ++
          emitChunks (copying s) inner.2 ⟨.closing, d.closing⟩ (closeEnds span).1) := by
    cases d <;> first | rfl | exact absurd rfl hd
  rw [hchunks, hopen, hclose]
  dsimp only [emit]
  obtain ⟨hcarries, hat⟩ := hin ⟨some ⟨.opening, d.opening⟩,
    some (((p.advance gap).advance d.opening.toList).offset : Int), false⟩ ⟨rfl, rfl, rfl⟩
  rw [hst.emitChunks_eq hp hg, hat.emitChunks_eq hq hg', List.append_assoc]
  exact (Carries.group ho hcarries hg' hc).gap_append hg

theorem punct_at (op : String) {span : Span} {gap cs : List Char} (hst : st.At p)
    (hp : s.drop p.offset = gap ++ cs) (hg : Gap gap)
    (hstart : span.start = some ((p.advance gap).offset : Int))
    (hstop : span.stop = some (((p.advance gap).advance op.toList).offset : Int)) :
    treeChunks (copying s) (.punct op span) st = gapChunk gap ++ [.token ⟨.punct, op⟩] ∧
      (tree (copying s) (.punct op span) st).2.At ((p.advance gap).advance op.toList) := by
  refine ⟨?_, rfl, hstop, rfl⟩
  rw [treeChunks, hstart, hst.emitChunks_eq hp hg]

/-- The pieces of a token that was split are printed as one. -/
theorem pieces_at {op : String} {n : Nat} {span : Span} {gap mid : List Char}
    (hop : gluedAngles? op = some n) (hst : st.At p)
    (hp : s.drop p.offset = gap ++ (op.toList ++ mid)) (hg : Gap gap)
    (hstart : span.start = some ((p.advance gap).offset : Int)) (hstop : span.stop.isSome = true) :
    treesChunks (copying s) (anglePieces span n ++ [equalsPiece span n]) st =
        gapChunk gap ++ pieceChunks n ∧
      (trees (copying s) (anglePieces span n ++ [equalsPiece span n]) st).2.At
        ((p.advance gap).advance op.toList) := by
  obtain ⟨stop, hstop⟩ := Option.isSome_iff_exists.1 hstop
  have hchar (i : Nat) : (span.charAt i).start = some (((p.advance gap).offset + i : Nat) : Int) ∧
      (span.charAt i).stop = some (((p.advance gap).offset + (i + 1) : Nat) : Int) := by
    simp [Span.charAt, hstart, hstop, Int.add_assoc]
  have hnil (a : Nat) : s.drop a = [] ++ s.drop a := rfl
  have h₁ := punct_at ">" hst hp hg (hchar 0).1 (by simpa using (hchar 0).2)
  rcases gluedAngles?_cases hop with ⟨rfl, rfl⟩ | ⟨rfl, rfl⟩
  · have h₂ := punct_at "=" h₁.2 (hnil _) .nil (by simpa using (hchar 1).1)
      (by simpa [Int.add_assoc] using (hchar 1).2)
    have htrees : anglePieces span 1 ++ [equalsPiece span 1] =
      [.punct ">" (span.charAt 0), .punct "=" (span.charAt 1)] := rfl
    rw [htrees]
    refine ⟨?_, h₂.2⟩
    rw [treesChunks, treesChunks, treesChunks, h₁.1, h₂.1]
    simp [pieceChunks]
  · have h₂ := punct_at ">" h₁.2 (hnil _) .nil (by simpa using (hchar 1).1)
      (by simpa [Int.add_assoc] using (hchar 1).2)
    have h₃ := punct_at "=" h₂.2 (hnil _) .nil (by simpa [Int.add_assoc] using (hchar 2).1)
      (by simpa [Int.add_assoc] using (hchar 2).2)
    have htrees : anglePieces span 2 ++ [equalsPiece span 2] =
      [.punct ">" (span.charAt 0), .punct ">" (span.charAt 1), .punct "=" (span.charAt 2)] := rfl
    rw [htrees]
    refine ⟨?_, h₃.2⟩
    rw [treesChunks, treesChunks, treesChunks, treesChunks, h₁.1, h₂.1, h₃.1]
    simp [pieceChunks]

/-- The chunks of trees of the source in which tokens were split. -/
theorem carries_splits {file : Option String} {cs rest : List Char} {ts us : List Tree}
    (h : Reads file p cs ts q rest) (hs : Splits ts us) (hp : s.drop p.offset = cs)
    (hst : st.At p) :
    Carries cs rest (treesChunks (copying s) us st) us ∧ (trees (copying s) us st).2.At q := by
  induction h generalizing us st with
  | nil =>
    cases hs
    exact ⟨.nil, hst⟩
  | @leaf p q gap text mid rest cls t ts hg ht hl he _ ih =>
    have hmid := Position.drop_advance (Position.drop_advance hp)
    cases hs with
    | keep hs =>
      have hat := (tree_leaf_at file cls hst hp hg).2
      rw [he]
      obtain ⟨hcarries, hat⟩ := ih hs hmid hat
      exact ⟨(carries_leaf hst hp hg ht hl).append hcarries, hat⟩
    | @pieces op span n _ us hop hs =>
      obtain ⟨rfl, hop', hspan⟩ := Lexeme.leaf_eq_punct hl he.symm
      obtain rfl : text = op.toList := by rw [hop', String.toList_ofList]
      have hstart : span.start = some ((p.advance gap).offset : Int) := by rw [hspan]; rfl
      obtain ⟨hchunks, hat⟩ := pieces_at hop hst hp hg hstart (by rw [hspan]; rfl)
      obtain ⟨hcarries, hat⟩ := ih hs hmid hat
      rw [List.append_cons, treesChunks_append, hchunks,
        trees_append _ _ (anglePieces span n ++ [equalsPiece span n])]
      exact ⟨((Carries.pieces hop ht).gap_append hg).append hcarries, hat⟩
    | inside => exact absurd he.symm Reads.leaf_ne_group
  | @group p q r gap opening inner gap' closing mid rest d children ts hg ho hr hg' hc hr' ih ih' =>
    have hinner := Position.drop_advance (Position.drop_advance hp)
    have hq : s.drop q.offset = gap' ++ (closing ++ mid) := hr.drop_stop hinner
    have hmid := Position.drop_advance (Position.drop_advance hq)
    -- the children have been split somewhere, or nowhere
    obtain ⟨ys, us, rfl, hys, hus⟩ : ∃ ys us', us = .group d ys _ :: us' ∧ Splits children ys ∧
        Splits ts us' := by
      cases hs with
      | keep hs => exact ⟨children, _, rfl, .refl _, hs⟩
      | inside hin hs => exact ⟨_, _, rfl, hin, hs⟩
    have hat := tree_group_stop file (copying s) st ys ho.opening.2 (p.advance gap)
      (q.advance gap')
    rw [← hc.closing.1] at hat
    obtain ⟨hcarries, hat⟩ := ih' hus hmid hat
    exact ⟨(carries_group hst hp hg ho hq hg' hc fun st hst => ih hys hinner hst).append hcarries,
      hat⟩

end Layout

end InlineVariants
