import InlineVariants.Proofs.Copying
import InlineVariants.Proofs.Locating
import InlineVariants.Proofs.Splitting
import InlineVariants.Token.Path

/-!
# Trees that blanks keep apart

Printing a declaration folds the gaps of the source: a gap with a line break gives way to conventional
spacing, unless it has a comment. The gap in front of an invisible group goes past the folding and is
copied as it is. Where only blanks stand between tokens that were neighbours in the source
(`Tree.BlankSpaced`), the printer therefore breaks the line in front of invisible groups that stand
behind a line break (`Tree.breaksLine`), and nowhere else.

Main statements: `Layout.trees_breaksLine`, that the trees of a text without comments are kept apart by
blanks (`Reads.blankSpaced`), and that they stay so when tokens are split (`Splits.blankSpaced`).
-/

namespace InlineVariants

open Text Lexeme

/-! ## Texts without comments -/

namespace Lexeme

/-- A text of blanks and tokens. -/
inductive CommentFree : List Char → Prop
  | nil : CommentFree []
  | blank {c : Char} {cs : List Char} : isBlank c = true → CommentFree cs → CommentFree (c :: cs)
  | token {cls : LexemeClass} {text rest : List Char} :
      IsToken cls text rest → CommentFree rest → CommentFree (text ++ rest)

namespace CommentFree

variable {cs gap text rest : List Char}

/-- Where the lexer skips something, it is a blank. -/
theorem skip_inv {n : Nat} (h : CommentFree cs) (ht : trivia? cs = some n) :
    ∃ c cs', cs = c :: cs' ∧ isBlank c = true ∧ CommentFree cs' := by
  cases h with
  | nil => simp [trivia?, blockComment?, lineComment?, blanks?] at ht
  | blank hc h => exact ⟨_, _, rfl, hc, h⟩
  | token htok h =>
    rw [htok.not_trivia] at ht
    cases ht

theorem gap_inv (h : CommentFree (gap ++ rest)) (hg : Gap gap) :
    (∀ c ∈ gap, isBlank c = true) ∧ CommentFree rest := by
  have hslash : isBlank '/' = false := by decide
  induction hg with
  | nil => exact ⟨by simp, h⟩
  | blank hc _ ih =>
    obtain ⟨c, cs, hcs, -, h⟩ := h.skip_inv (trivia?_blank _ hc)
    obtain ⟨rfl, rfl⟩ := List.cons.inj hcs
    obtain ⟨hblank, hrest⟩ := ih h
    exact ⟨by simpa [hc] using hblank, hrest⟩
  | line hbody _ _ =>
    obtain ⟨c, cs, hcs, hc, -⟩ := h.skip_inv (trivia?_line _)
    rw [← (List.cons.inj hcs).1, hslash] at hc
    cases hc
  | @block body gap hbody _ _ =>
    have ht : trivia? ('/' :: '*' :: (body ++ gap) ++ rest) = some (body.length + 2) := by
      rw [List.cons_append, List.cons_append, trivia?_block, List.append_assoc,
        blockRest?_append _ hbody]
      rfl
    obtain ⟨c, cs, hcs, hc, -⟩ := h.skip_inv ht
    rw [← (List.cons.inj hcs).1, hslash] at hc
    cases hc

theorem token_inv {cls : LexemeClass} (h : CommentFree (text ++ rest)) (ht : IsToken cls text rest) :
    CommentFree rest := by
  generalize hcs : text ++ rest = cs at h
  cases h with
  | nil => exact absurd (List.append_eq_nil_iff.1 hcs).1 ht.ne_nil
  | blank hc _ =>
    have := ht.not_trivia
    rw [hcs, trivia?_blank _ hc] at this
    cases this
  | token ht' h =>
    have htok := ht.token
    rw [hcs, ht'.token, Option.some.injEq, Prod.mk.injEq] at htok
    rwa [(List.append_inj hcs htok.2.symm).2]

/-- A text that can be scanned and has no slash has no comment. -/
theorem of_stuck_eq_none {p : Position} (h : (scanFrom p cs).stuck = none) (hslash : '/' ∉ cs) :
    CommentFree cs := by
  have hgap {gap rest : List Char} (hg : Gap gap) (hslash : '/' ∉ gap) (h : CommentFree rest) :
      CommentFree (gap ++ rest) := by
    induction hg with
    | nil => exact h
    | blank hc _ ih => exact .blank hc (ih fun hmem => hslash (List.mem_cons_of_mem _ hmem))
    | line | block => simp at hslash
  induction hn : cs.length using Nat.strong_induction_on generalizing p cs with
  | _ n ih =>
  subst hn
  rcases scanFrom_cases h with ⟨gap, tail, rfl, hg, ht, -⟩ | ⟨gap, cls, text, rest, rfl, hg, ht⟩
  · rw [List.mem_append, not_or] at hslash
    rcases ht with rfl | ⟨body, rfl, -⟩
    · exact hgap hg hslash.1 .nil
    · simp at hslash
  · simp only [List.mem_append, not_or] at hslash
    rw [scanFrom_gap hg, scanFrom_token _ ht] at h
    have hpos := List.length_pos_iff.2 ht.ne_nil
    exact hgap hg hslash.1 (.token ht (ih _ (by simp; omega) h hslash.2.2 rfl))

end CommentFree

end Lexeme

/-! ## Printing trees that blanks keep apart -/

/-- Whether the text between two offsets has a line break, if both are known. -/
def lineBreakBetween (s : List Char) : Option Int → Option Int → Bool
  | some a, some b => (slice s a b).contains '\n'
  | _, _ => false

/-- Between two offsets, if both are known, the text has only blanks. -/
def BlankBetween (s : List Char) (a b : Option Int) : Prop :=
  ∀ i j, a = some i → b = some j → i ≤ j ∧ ∀ c ∈ slice s i j, isBlank c = true

/-- The offset behind a tree, if it is known. -/
def Tree.behind : Tree → Option Int
  | .group _ _ span => (Layout.closeEnds span).2
  | t => t.span.stop

/-- The offset behind the last tree of a list, or else the given one. -/
def behindAll (stop : Option Int) : List Tree → Option Int
  | [] => stop
  | t :: ts => behindAll t.behind ts

mutual

/-- Whether an invisible group in the tree stands behind a line break. The offset is that behind what
is printed in front of the tree. -/
def Tree.breaksLine (s : List Char) (stop : Option Int) : Tree → Bool
  | .group .invisible stream span => lineBreakBetween s stop span.start || anyBreaksLine s none stream
  | .group _ stream span => anyBreaksLine s (Layout.openEnds span).2 stream
  | _ => false

/-- Whether an invisible group in the list stands behind a line break. -/
def anyBreaksLine (s : List Char) (stop : Option Int) : List Tree → Bool
  | [] => false
  | t :: ts => t.breaksLine s stop || anyBreaksLine s t.behind ts

end

mutual

/-- Wherever the source decides what is printed in front of a token of the tree, there are only
blanks, and no token has a line break. -/
def Tree.BlankSpaced (s : List Char) (stop : Option Int) : Tree → Prop
  | .ident text span => BlankBetween s stop span.start ∧ '\n' ∉ text.toList
  | .punct op span => BlankBetween s stop span.start ∧ '\n' ∉ op.toList
  | .literal _ text span => BlankBetween s stop span.start ∧ '\n' ∉ text.toList
  | .group .invisible stream span =>
    BlankBetween s stop span.start ∧ span.known = true ∧ BlankSpacedAll s none stream
  | .group _ stream span =>
    BlankBetween s stop (Layout.openEnds span).1 ∧ BlankSpacedAll s (Layout.openEnds span).2 stream ∧
      BlankBetween s (behindAll (Layout.openEnds span).2 stream) (Layout.closeEnds span).1

/-- The trees of a list are printed behind one another with blanks between them. -/
def BlankSpacedAll (s : List Char) (stop : Option Int) : List Tree → Prop
  | [] => True
  | t :: ts => t.BlankSpaced s stop ∧ BlankSpacedAll s t.behind ts

end

theorem blankBetween_none_left (s : List Char) (b : Option Int) : BlankBetween s none b := by
  rintro _ _ ⟨⟩

theorem blankBetween_none_right (s : List Char) (a : Option Int) : BlankBetween s a none := by
  rintro _ _ - ⟨⟩

namespace Layout

/-- The style that copies the gaps of a source text and folds those with a line break. -/
def folding (s : List Char) : Style := { source := some s, fold := true }

theorem newline_not_mem_spacing (left right : Piece) : '\n' ∉ spacing left right := by
  unfold spacing
  split <;> simp

theorem holdsPair_of_blank {gap : List Char} (h : ∀ c ∈ gap, isBlank c = true) (b : Char) :
    holdsPair '/' b gap = false := by
  fun_induction holdsPair '/' b gap with
  | case1 c d cs ih =>
    have hc := ne_slash_of_isBlank (h c (by simp))
    simp only [beq_eq_false_iff_ne.2 hc, Bool.false_and, Bool.false_or]
    exact ih fun x hx => h x (List.mem_cons_of_mem c hx)
  | case2 => rfl

theorem isFoldable_of_blank {gap : List Char} (h : ∀ c ∈ gap, isBlank c = true) :
    isFoldable gap = gap.contains '\n' := by
  simp [isFoldable, holdsPair_of_blank h]

theorem isTrivia_of_blank {gap : List Char} (h : ∀ c ∈ gap, isBlank c = true) :
    isTrivia gap = true := by
  have hgap : Gap gap := by
    induction gap with
    | nil => exact .nil
    | cons c gap ih => exact .blank (h c (by simp)) (ih fun x hx => h x (List.mem_cons_of_mem c hx))
  exact isTrivia_of_gap hgap

/-- Between neighbours that blanks keep apart, the source gap is the text between them. -/
theorem sourceGap_blank {s : List Char} {a b : Int} (h : BlankBetween s (some a) (some b)) :
    sourceGap (some s) (some a) (some b) = some (slice s a b) := by
  obtain ⟨hle, hblank⟩ := h a b rfl rfl
  simp [sourceGap, Int.not_lt.2 hle, isTrivia_of_blank hblank]

variable {s : List Char}

theorem blank_of_sourceGap {a b : Option Int} {gap : List Char} (h : BlankBetween s a b)
    (hgap : sourceGap (some s) a b = some gap) : ∀ c ∈ gap, isBlank c = true := by
  match a, b with
  | none, _ => cases hgap
  | some _, none => cases hgap
  | some i, some j =>
    rw [sourceGap_blank h] at hgap
    obtain rfl := Option.some.inj hgap
    exact (h i j rfl rfl).2

/-- A gap of blanks is printed without a line break. -/
theorem newline_not_mem_gap {st : State} {piece : Piece} {start : Option Int}
    (h : ∀ gap, sourceGap (some s) st.stop start = some gap → ∀ c ∈ gap, isBlank c = true) :
    '\n' ∉ st.gap (folding s) piece start := by
  unfold State.gap
  split
  · simp
  cases st.last with
  | none => simp
  | some left =>
    cases hgap : sourceGap (some s) st.stop start with
    | none =>
      simp only [folding, hgap]
      exact newline_not_mem_spacing left piece
    | some gap =>
      simp only [folding, hgap, isFoldable_of_blank (h gap hgap), Bool.true_and]
      split
      · exact newline_not_mem_spacing left piece
      · rename_i hn
        simpa using hn

/-- In front of an invisible group line breaks are copied. -/
theorem newline_mem_invisibleGap_iff {st : State} {span : Span} (hk : span.known = true)
    (h : BlankBetween s st.stop span.start) :
    '\n' ∈ (invisibleGap (folding s) st span).getD [] ↔
      lineBreakBetween s st.stop span.start = true := by
  rw [invisibleGap, if_pos hk]
  cases hstop : st.stop with
  | none => simp [sourceGap, folding, lineBreakBetween]
  | some a =>
    cases hstart : span.start with
    | none => simp [sourceGap, folding, lineBreakBetween]
    | some b =>
      rw [hstop, hstart] at h
      simp [folding, sourceGap_blank h, lineBreakBetween]

theorem newline_not_mem_delimiter (d : Delimiter) :
    '\n' ∉ d.opening.toList ∧ '\n' ∉ d.closing.toList := by
  cases d <;> decide

/-- What one token prints has no line break. -/
theorem newline_not_mem_emit (kind : Kind) (stop : Option Int) {st : State} {text : String}
    {start : Option Int} (h : BlankBetween s st.stop start) (ht : '\n' ∉ text.toList) :
    '\n' ∉ (emit (folding s) st ⟨kind, text⟩ start stop).1 := by
  simp [emit, newline_not_mem_gap fun _ => blank_of_sourceGap h, ht]

/-- A group with brackets prints the line breaks of its contents. -/
theorem newline_mem_group_iff {d : Delimiter} (hd : d ≠ .invisible) {stream : List Tree} {span : Span}
    {st : State} (hgap : BlankBetween s st.stop (openEnds span).1)
    (hclose : ∀ st' : State, st'.stop = (openEnds span).2 →
      BlankBetween s (trees (folding s) stream st').2.stop (closeEnds span).1) :
    '\n' ∈ (tree (folding s) (.group d stream span) st).1 ↔
      '\n' ∈ (trees (folding s) stream ⟨some ⟨.opening, d.opening⟩, (openEnds span).2, false⟩).1 := by
  have hopen := newline_not_mem_emit .opening (openEnds span).2 hgap
    (newline_not_mem_delimiter d).1
  have hend := newline_not_mem_emit .closing (closeEnds span).2
    (hclose ⟨some ⟨.opening, d.opening⟩, (openEnds span).2, false⟩ rfl) (newline_not_mem_delimiter d).2
  cases d <;> first
    | exact absurd rfl hd
    | simp only [tree, List.mem_append, hopen, false_or]
      exact or_iff_left hend

mutual

theorem tree_breaksLine : ∀ (t : Tree) (st : State), t.BlankSpaced s st.stop →
    ('\n' ∈ (tree (folding s) t st).1 ↔ t.breaksLine s st.stop = true) ∧
      (tree (folding s) t st).2.stop = t.behind
  | .ident _ _, st, ⟨hgap, ht⟩ | .punct _ _, st, ⟨hgap, ht⟩ | .literal _ _ _, st, ⟨hgap, ht⟩ => by
    simp only [tree, Tree.breaksLine, Bool.false_eq_true, iff_false]
    exact ⟨newline_not_mem_emit _ _ hgap ht, rfl⟩
  | .group .invisible stream span, st, ⟨hgap, hk, hstream⟩ => by
    obtain ⟨hin, -⟩ := trees_breaksLine stream
      { st with stop := none, gapDone := (invisibleGap (folding s) st span).isSome || st.gapDone }
      hstream
    simp only [tree, Tree.breaksLine, List.mem_append, Bool.or_eq_true,
      newline_mem_invisibleGap_iff hk hgap]
    exact ⟨by rw [hin], by simp [hk, Tree.behind, closeEnds]⟩
  | .group .paren stream span, st, ⟨hgap, hstream, hclose⟩
  | .group .brace stream span, st, ⟨hgap, hstream, hclose⟩
  | .group .bracket stream span, st, ⟨hgap, hstream, hclose⟩ => by
    refine ⟨(newline_mem_group_iff (by decide) hgap fun st' hst' => ?_).trans
      (trees_breaksLine stream ⟨_, (openEnds span).2, false⟩ hstream).1, rfl⟩
    rw [← hst'] at hstream hclose
    rwa [(trees_breaksLine stream st' hstream).2]

/-- Where blanks keep the tokens apart, the line is broken in front of invisible groups that stand
behind a line break, and nowhere else. -/
theorem trees_breaksLine : ∀ (ts : List Tree) (st : State), BlankSpacedAll s st.stop ts →
    ('\n' ∈ (trees (folding s) ts st).1 ↔ anyBreaksLine s st.stop ts = true) ∧
      (trees (folding s) ts st).2.stop = behindAll st.stop ts
  | [], _, _ => by simp [trees, anyBreaksLine, behindAll]
  | t :: ts, st, ⟨ht, hts⟩ => by
    obtain ⟨hfirst, hstop⟩ := tree_breaksLine t st ht
    rw [← hstop] at hts
    obtain ⟨hrest, hstop'⟩ := trees_breaksLine ts _ hts
    rw [hstop] at hrest hstop'
    exact ⟨by simp [trees, anyBreaksLine, hfirst, hrest], hstop'⟩

end

end Layout

/-! ## Lists of spaced trees -/

section

variable {s : List Char} {stop : Option Int} {t : Tree} {ts us : List Tree}

theorem blankSpaced_append :
    BlankSpacedAll s stop (ts ++ us) ↔ BlankSpacedAll s stop ts ∧ BlankSpacedAll s (behindAll stop ts) us := by
  induction ts generalizing stop with
  | nil => simp [BlankSpacedAll, behindAll]
  | cons t ts ih => simp [BlankSpacedAll, behindAll, ih, and_assoc]

theorem Tree.blankSpaced_group {d : Delimiter} (hd : d ≠ .invisible) {span : Span} :
    (Tree.group d ts span).BlankSpaced s stop ↔ BlankBetween s stop (Layout.openEnds span).1 ∧
      BlankSpacedAll s (Layout.openEnds span).2 ts ∧
      BlankBetween s (behindAll (Layout.openEnds span).2 ts) (Layout.closeEnds span).1 := by
  cases d with
  | invisible => exact absurd rfl hd
  | paren | brace | bracket => rfl

theorem Tree.BlankSpaced.alone (h : t.BlankSpaced s stop) : t.BlankSpaced s none := by
  match t, h with
  | .ident .., ⟨_, ht⟩ | .punct .., ⟨_, ht⟩ | .literal .., ⟨_, ht⟩ =>
    exact ⟨blankBetween_none_left s _, ht⟩
  | .group .invisible .., ⟨_, h⟩ | .group .paren .., ⟨_, h⟩ | .group .brace .., ⟨_, h⟩
  | .group .bracket .., ⟨_, h⟩ => exact ⟨blankBetween_none_left s _, h⟩

namespace BlankSpacedAll

/-- Nothing is asked of the first tree of a list that stands alone. -/
theorem alone (h : BlankSpacedAll s stop ts) : BlankSpacedAll s none ts := by
  cases ts with
  | nil => exact h
  | cons t ts => exact ⟨h.1.alone, h.2⟩

theorem of_part (h : BlankSpacedAll s stop ts) (hp : us <:+: ts) : BlankSpacedAll s none us := by
  obtain ⟨pre, post, rfl⟩ := hp
  exact (blankSpaced_append.1 (blankSpaced_append.1 h).1).2.alone

theorem mem (h : BlankSpacedAll s stop ts) (ht : t ∈ ts) : t.BlankSpaced s none := by
  obtain ⟨pre, post, rfl⟩ := List.append_of_mem ht
  exact (blankSpaced_append.1 h).2.1.alone

/-- The contents of a group, behind its opening bracket. -/
theorem inside {d : Delimiter} {span : Span} (h : BlankSpacedAll s stop ts)
    (ht : .group d us span ∈ ts) : BlankSpacedAll s none us := by
  have hgroup := h.mem ht
  cases d with
  | invisible => exact hgroup.2.2
  | paren | brace | bracket => exact hgroup.2.1.alone

/-- A mark that is put in. -/
theorem mark {op : String} (hop : '\n' ∉ op.toList) (h : BlankSpacedAll s none ts) :
    BlankSpacedAll s stop (Tree.mark op :: ts) :=
  ⟨⟨blankBetween_none_right s _, hop⟩, h⟩

/-- A name that is put in. -/
theorem word {name : String} (hname : '\n' ∉ name.toList) (h : BlankSpacedAll s none ts) :
    BlankSpacedAll s stop (Tree.word name :: ts) :=
  ⟨⟨blankBetween_none_right s _, hname⟩, h⟩

/-- Brackets that are put in. -/
theorem group {d : Delimiter} (hd : d ≠ .invisible) (h : BlankSpacedAll s none us)
    (h' : BlankSpacedAll s none ts) : BlankSpacedAll s stop (.group d us Span.unknown :: ts) :=
  ⟨(Tree.blankSpaced_group hd).2 ⟨blankBetween_none_right s _, h, blankBetween_none_right s _⟩, h'⟩

/-- Entries with commas that are put in. -/
theorem separated {entries : List (List Tree)} (h : ∀ ts ∈ entries, BlankSpacedAll s none ts) :
    BlankSpacedAll s none (separated "," entries) := by
  induction entries with
  | nil => trivial
  | cons ts entries ih =>
    have hts := h ts List.mem_cons_self
    cases entries with
    | nil => exact hts
    | cons us entries =>
      have hrest := ih fun vs hvs => h vs (List.mem_cons_of_mem ts hvs)
      exact blankSpaced_append.2 ⟨hts, mark (by decide) hrest⟩

end BlankSpacedAll

end

/-! ## Trees of a text without comments -/

section

variable {file : Option String} {s : List Char}

theorem BlankBetween.of_gap {p : Position} {gap cs : List Char} (hp : s.drop p.offset = gap ++ cs)
    (hgap : ∀ c ∈ gap, isBlank c = true) :
    BlankBetween s (some (p.offset : Int)) (some ((p.advance gap).offset : Int)) := by
  rintro _ _ ⟨⟩ ⟨⟩
  rw [slice_advance hp]
  exact ⟨by rw [Position.advance_offset]; omega, hgap⟩

theorem Lexeme.leaf_blankSpaced (file : Option String) {stop : Option Int} {l : Lexeme} (h : '\n' ∉ l.text.toList)
    (hgap : BlankBetween s stop (some (l.start.offset : Int))) :
    (l.leaf file).BlankSpaced s stop ∧ (l.leaf file).behind = some (l.stop.offset : Int) := by
  unfold Lexeme.leaf
  cases l.cls <;> exact ⟨⟨hgap, h⟩, rfl⟩

/-- Trees of a text without comments and without tokens over several lines. -/
theorem Reads.blankSpaced {p q : Position} {cs rest : List Char} {ts : List Tree}
    (h : Reads file p cs ts q rest) (hp : s.drop p.offset = cs) (hc : CommentFree cs)
    (hl : ∀ l ∈ (scanFrom p cs).lexemes, '\n' ∉ l.text.toList) :
    BlankSpacedAll s (some (p.offset : Int)) ts ∧
      behindAll (some (p.offset : Int)) ts = some (q.offset : Int) ∧ CommentFree rest ∧
      ∀ l ∈ (scanFrom q rest).lexemes, '\n' ∉ l.text.toList := by
  induction h with
  | nil => exact ⟨trivial, rfl, hc, hl⟩
  | @leaf p q gap text mid rest cls t ts hg ht hleaf he hr ih =>
    obtain ⟨hblank, hc⟩ := hc.gap_inv hg
    rw [scanFrom_gap hg, scanFrom_token _ ht, List.forall_mem_cons] at hl
    obtain ⟨hspaced, hbehind⟩ := Lexeme.leaf_blankSpaced file hl.1 (.of_gap hp hblank)
    have hmid := Position.drop_advance (Position.drop_advance hp)
    obtain ⟨ih, hrest⟩ := ih hmid (hc.token_inv ht) hl.2
    rw [← he] at hspaced hbehind
    rw [BlankSpacedAll, behindAll, hbehind]
    exact ⟨⟨hspaced, ih⟩, hrest⟩
  | @group p q r gap opening inner gap' closing mid rest d children ts hg ho hr hg' hcl hr' ih ih' =>
    obtain ⟨hblank, hc⟩ := hc.gap_inv hg
    rw [scanFrom_gap hg, scanFrom_token _ ho, List.forall_mem_cons] at hl
    have hinner := Position.drop_advance (Position.drop_advance hp)
    obtain ⟨hchildren, hstop, hc, hl⟩ := ih hinner (hc.token_inv ho) hl.2
    have hq : s.drop q.offset = gap' ++ (closing ++ mid) := hr.drop_stop hinner
    obtain ⟨hblank', hc⟩ := hc.gap_inv hg'
    rw [scanFrom_gap hg', scanFrom_token _ hcl, List.forall_mem_cons] at hl
    have hmid := Position.drop_advance (Position.drop_advance hq)
    obtain ⟨ih', hrest⟩ := ih' hmid (hc.token_inv hcl) hl.2
    obtain ⟨rfl, hd⟩ := ho.opening
    obtain ⟨rfl, -⟩ := hcl.closing
    obtain ⟨hopen, hclose⟩ := Layout.ends_between file hd (p.advance gap) (q.advance gap')
    have hspaced : (Tree.group d children (Span.between file (p.advance gap)
        ((q.advance gap').advance d.closing.toList))).BlankSpaced s (some (p.offset : Int)) := by
      rw [Tree.blankSpaced_group hd, hopen, hclose, hstop]
      exact ⟨.of_gap hp hblank, hchildren, .of_gap hq hblank'⟩
    rw [BlankSpacedAll, behindAll, Tree.behind, hclose]
    exact ⟨⟨hspaced, ih'⟩, hrest⟩

end

/-! ## Split tokens -/

section

variable {file : Option String} {s : List Char}

theorem blankBetween_refl (s : List Char) (a : Option Int) : BlankBetween s a a := by
  intro i j hi hj
  obtain rfl : i = j := Option.some.inj (hi.symm.trans hj)
  simp [slice]

theorem Tree.LiesAt.ne_invisible {a b : Nat} {d : Delimiter} {ts : List Tree} {span : Span}
    (h : (Tree.group d ts span).LiesAt file s a b) : d ≠ .invisible := by
  rintro rfl
  obtain ⟨hab, hb, -, hopen, -⟩ := h
  have := congrArg List.length hopen
  rw [slice_natCast] at this
  simp [Delimiter.opening] at this
  omega

theorem Tree.LiesAt.behind {a b : Nat} {t : Tree} (h : t.LiesAt file s a b) :
    t.behind = some (b : Int) := by
  have hspan := h.span_eq
  cases t with
  | ident _ span | punct _ span | literal _ _ span | group _ _ span =>
    obtain rfl : span = _ := hspan
    rfl

theorem Span.charAt_covering (file : Option String) (s : List Char) (i j k : Nat) :
    ((Span.covering file s i j).charAt k).start = some ((i + k : Nat) : Int) ∧
      ((Span.covering file s i j).charAt k).stop = some ((i + k + 1 : Nat) : Int) := by
  simp [Span.charAt, Span.covering]

/-- Splitting tokens keeps trees apart as they are. -/
theorem Splits.blankSpaced {ts us : List Tree} (hs : Splits ts us) {a b : Nat} {stop : Option Int}
    (hlie : LieBetween file s a b ts) (h : BlankSpacedAll s stop ts) :
    BlankSpacedAll s stop us ∧ behindAll stop us = behindAll stop ts := by
  induction hs generalizing a b stop with
  | nil => exact ⟨h, rfl⟩
  | keep _ ih =>
    obtain ⟨i, j, -, -, -, ht, hrest⟩ := hlie
    obtain ⟨hts, hbehind⟩ := ih hrest h.2
    exact ⟨⟨h.1, hts⟩, hbehind⟩
  | @pieces op span n ts us hop _ ih =>
    obtain ⟨i, j, -, -, -, ht, hrest⟩ := hlie
    obtain ⟨hts, hbehind⟩ := ih hrest h.2
    rw [ht.behind] at hts hbehind
    rw [behindAll, ht.behind]
    obtain ⟨hij, hj, htext, rfl⟩ := ht
    have hchar := Span.charAt_covering file s i j
    have hfirst : BlankBetween s stop ((Span.covering file s i j).charAt 0).start := by
      rw [(hchar 0).1]
      exact h.1.1
    have hnext (k : Nat) : BlankBetween s ((Span.covering file s i j).charAt k).stop
        ((Span.covering file s i j).charAt (k + 1)).start := by
      rw [(hchar k).2, (hchar (k + 1)).1]
      exact blankBetween_refl s _
    have hlen : j = i + op.toList.length := by
      rw [htext, slice_natCast, List.length_take, List.length_drop]
      omega
    have hlast : ((Span.covering file s i j).charAt n).stop = some (j : Int) := by
      rw [(hchar n).2, hlen]
      rcases gluedAngles?_cases hop with ⟨rfl, rfl⟩ | ⟨rfl, rfl⟩ <;> rfl
    rw [← hlast] at hts hbehind ⊢
    rcases gluedAngles?_cases hop with ⟨rfl, rfl⟩ | ⟨rfl, rfl⟩
    · exact ⟨⟨⟨hfirst, by decide⟩, ⟨hnext 0, by decide⟩, hts⟩, hbehind⟩
    · exact ⟨⟨⟨hfirst, by decide⟩, ⟨hnext 0, by decide⟩, ⟨hnext 1, by decide⟩, hts⟩, hbehind⟩
  | @inside d span xs ys ts us hxs _ ihin ih =>
    obtain ⟨i, j, -, -, -, ht, hrest⟩ := hlie
    obtain ⟨hts, hbehind⟩ := ih hrest h.2
    have hd := ht.ne_invisible
    obtain ⟨hgap, hinner, hclose⟩ := (Tree.blankSpaced_group hd).1 h.1
    obtain ⟨hys, hstop⟩ := ihin ht.inner hinner
    rw [← hstop] at hclose
    exact ⟨⟨(Tree.blankSpaced_group hd).2 ⟨hgap, hys, hclose⟩, hts⟩, hbehind⟩

end

end InlineVariants
