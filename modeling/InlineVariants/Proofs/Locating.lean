import InlineVariants.Edit
import InlineVariants.Proofs.Reading
import InlineVariants.Text.Slice

/-!
# Where every token stands

The numbers of a span are those of the text: offsets cut out the token, and lines and columns can be
counted afresh from the text in front of an offset. `LieBetween file s a b` says so of a list of trees
and of everything inside them: the trees stand one behind the other between the offsets `a` and `b`,
each behind a stretch of blanks and comments, and a group holds its children between its brackets.

Main statement: the trees of a text lie between its two ends (`tokenize_located`).
-/

namespace InlineVariants

open Text Lexeme

/-! ## Blanks and comments -/

/-- What follows the opening mark of a block comment, through its closing mark, where `inner` further
comments are open inside. -/
inductive CommentRest : (inner : Nat) → List Char → Prop
  | close : CommentRest 0 ['*', '/']
  | closeInner {inner : Nat} {cs : List Char} :
      CommentRest inner cs → CommentRest (inner + 1) ('*' :: '/' :: cs)
  | openInner {inner : Nat} {cs : List Char} : inner + 1 < commentLevels →
      CommentRest (inner + 1) cs → CommentRest inner ('/' :: '*' :: cs)
  | other {inner : Nat} {c : Char} {cs : List Char} : (c :: cs).take 2 ≠ ['/', '*'] →
      (c :: cs).take 2 ≠ ['*', '/'] → CommentRest inner cs → CommentRest inner (c :: cs)

/-- Blanks and comments in front of a text, down to the given rest of it. A line comment runs up to a
line feed or to the end of the text. -/
inductive Skipped : List Char → List Char → Prop
  | nil {cs : List Char} : Skipped cs cs
  | blank {c : Char} {cs rest : List Char} :
      isBlank c = true → Skipped cs rest → Skipped (c :: cs) rest
  | line {body cs rest : List Char} : (∀ c ∈ body, c ≠ '\n') → (cs = [] ∨ cs.head? = some '\n') →
      Skipped cs rest → Skipped ('/' :: '/' :: (body ++ cs)) rest
  | block {body cs rest : List Char} :
      CommentRest 0 body → Skipped cs rest → Skipped ('/' :: '*' :: (body ++ cs)) rest

/-- What is recognised as a block comment is one. -/
theorem CommentRest.of_blockRest? {inner : Nat} {cs : List Char}
    (h : blockRest? (inner + 1) cs = some cs.length) : CommentRest inner cs := by
  generalize hl : inner + 1 = levels at h
  fun_induction blockRest? levels cs generalizing inner with
  | case1 => cases h
  | case2 levels cs hlt ih =>
    subst hl
    obtain ⟨n, hn, he⟩ := Option.map_eq_some_iff.1 h
    obtain rfl : n = cs.length := by simpa using he
    exact .openInner hlt (ih rfl hn)
  | case3 => cases h
  | case4 levels cs hle =>
    obtain rfl : inner = 0 := by omega
    obtain rfl : cs = [] := by
      apply List.eq_nil_of_length_eq_zero
      simpa using h.symm
    exact .close
  | case5 levels cs hlt ih =>
    obtain ⟨n, hn, he⟩ := Option.map_eq_some_iff.1 h
    obtain rfl : n = cs.length := by simpa using he
    obtain ⟨k, rfl⟩ : ∃ k, inner = k + 1 := ⟨inner - 1, by omega⟩
    exact .closeInner (ih (by omega) hn)
  | case6 levels c cs hopen hclose ih =>
    obtain ⟨n, hn, he⟩ := Option.map_eq_some_iff.1 h
    obtain rfl : n = cs.length := by simpa using he
    refine .other ?_ ?_ (ih hl hn)
    · intro ht
      cases cs with
      | nil => simp at ht
      | cons d ds => exact hopen ds (by simp_all) (by simp_all)
    · intro ht
      cases cs with
      | nil => simp at ht
      | cons d ds => exact hclose ds (by simp_all) (by simp_all)

theorem Skipped.of_gap {gap : List Char} (h : Gap gap) (cs : List Char) : Skipped (gap ++ cs) cs := by
  induction h with
  | nil => exact .nil
  | blank hc _ ih => exact .blank hc ih
  | @line body gap hbody _ ih =>
    rw [List.cons_append, List.cons_append, List.append_assoc]
    exact .line hbody (.inr rfl) ih
  | @block body gap hbody _ ih =>
    rw [List.cons_append, List.cons_append, List.append_assoc]
    exact .block (.of_blockRest? hbody) ih

theorem Skipped.trans {cs mid rest : List Char} (h : Skipped cs mid) (h' : Skipped mid rest) :
    Skipped cs rest := by
  induction h with
  | nil => exact h'
  | blank hc _ ih => exact .blank hc (ih h')
  | line hbody hend _ ih => exact .line hbody hend (ih h')
  | block hbody _ ih => exact .block hbody (ih h')

/-- A text without tokens is skipped to its end. -/
theorem Skipped.of_scan {cs : List Char} (h : scan cs = {}) : Skipped cs [] := by
  obtain ⟨gap, tail, rfl, hg, ht⟩ := scan_eq_empty_iff.1 h
  apply (Skipped.of_gap hg tail).trans
  rcases ht with rfl | ⟨body, rfl, hbody⟩
  · exact .nil
  · simpa using Skipped.line hbody (.inl rfl) .nil

/-! ## Lines and columns -/

namespace Text

/-- The line of an offset: one more than the line feeds in front of it. -/
def lineAt (s : List Char) (offset : Nat) : Nat := (s.take offset).count '\n' + 1

/-- The column of an offset: one more than the characters between it and the last line feed in front
of it, or the beginning of the text. -/
def columnAt (s : List Char) (offset : Nat) : Nat :=
  ((s.take offset).reverse.takeWhile (· != '\n')).length + 1

namespace Position

/-- The position of an offset, its line and column counted from the text. -/
def ofOffset (s : List Char) (offset : Nat) : Position := ⟨offset, lineAt s offset, columnAt s offset⟩

/-- Line and column of a position are those of its offset in the text. -/
structure InText (s : List Char) (p : Position) : Prop where
  offset_le : p.offset ≤ s.length
  line : p.line = lineAt s p.offset
  column : p.column = columnAt s p.offset

theorem InText.eq_ofOffset {s : List Char} {p : Position} (h : InText s p) :
    p = ofOffset s p.offset := by
  obtain ⟨-, hline, hcolumn⟩ := h
  cases p
  simp only at hline hcolumn
  rw [ofOffset, ← hline, ← hcolumn]

theorem ofOffset_inText {s : List Char} {offset : Nat} (h : offset ≤ s.length) :
    InText s (ofOffset s offset) := ⟨h, rfl, rfl⟩

theorem first_inText (s : List Char) : InText s .first where
  offset_le := Nat.zero_le _
  line := by simp [first, lineAt]
  column := by simp [first, columnAt]

theorem InText.next {s rest : List Char} {p : Position} {c : Char} (h : InText s p)
    (hc : s.drop p.offset = c :: rest) : InText s (p.next c) := by
  have hlen := congrArg List.length hc
  rw [List.length_drop, List.length_cons] at hlen
  have htake : s.take (p.offset + 1) = s.take p.offset ++ [c] := by
    rw [List.take_add, hc, List.take_succ_cons, List.take_zero]
  refine ⟨by rw [next_offset]; omega, ?_, ?_⟩
  · rw [next_offset, lineAt, htake, List.count_append, List.count_singleton]
    have hline := h.line
    rw [lineAt] at hline
    unfold Position.next
    by_cases hn : c = '\n'
    · simp only [hn, if_true, beq_self_eq_true]; omega
    · simp only [hn, if_false, beq_iff_eq]; omega
  · rw [next_offset, columnAt, htake, List.reverse_append, List.reverse_singleton,
      List.singleton_append]
    have hcolumn := h.column
    rw [columnAt] at hcolumn
    unfold Position.next
    by_cases hn : c = '\n'
    · simp [hn]
    · simp [hn, hcolumn]

/-- Walking over the text keeps the position right. -/
theorem InText.advance {s as bs : List Char} {p : Position} (h : InText s p)
    (hs : s.drop p.offset = as ++ bs) : InText s (p.advance as) := by
  induction as generalizing p with
  | nil => exact h
  | cons c as ih =>
    rw [advance_cons]
    apply ih (h.next hs)
    rw [next_offset, ← List.drop_drop, hs]
    rfl

end Position

end Text

theorem Span.namedFile_self (file : Option String) : Span.namedFile file file = file := by
  unfold Span.namedFile
  split
  · split <;> rfl
  · rfl

/-- The span of a stretch of text, its lines and columns counted from the text. -/
def Span.covering (file : Option String) (s : List Char) (a b : Nat) : Span where
  file := file
  line := some (lineAt s a)
  column := some (columnAt s a)
  endLine := some (lineAt s b)
  endColumn := some (columnAt s b)
  start := some a
  stop := some b

theorem Span.between_eq_covering {s : List Char} {p q : Position} (file : Option String)
    (hp : p.InText s) (hq : q.InText s) :
    Span.between file p q = Span.covering file s p.offset q.offset := by
  unfold Span.between Span.covering
  rw [hp.line, hp.column, hq.line, hq.column]

/-! ## Trees in the text -/

/-- The token with this text and this span is the stretch of the text from `a` up to `b`. -/
def CutOut (file : Option String) (s : List Char) (a b : Nat) (text : String) (span : Span) : Prop :=
  a < b ∧ b ≤ s.length ∧ text.toList = slice s a b ∧ span = Span.covering file s a b

mutual

/-- The tree takes up the text from offset `a` up to offset `b`. -/
def Tree.LiesAt (file : Option String) (s : List Char) (a b : Nat) : Tree → Prop
  | .ident text span => CutOut file s a b text span
  | .punct op span => CutOut file s a b op span
  | .literal _ text span => CutOut file s a b text span
  | .group d stream span => a + 2 ≤ b ∧ b ≤ s.length ∧ span = Span.covering file s a b ∧
      slice s a (a + 1 : Nat) = d.opening.toList ∧ slice s (b - 1 : Nat) b = d.closing.toList ∧
      LieBetween file s (a + 1) (b - 1) stream

/-- The trees stand in the text between the offsets `a` and `b`, in order, and around them there are
only blanks and comments. -/
def LieBetween (file : Option String) (s : List Char) (a b : Nat) : List Tree → Prop
  | [] => a ≤ b ∧ Skipped (s.drop a) (s.drop b)
  | t :: ts => ∃ i j, a ≤ i ∧ j ≤ b ∧ Skipped (s.drop a) (s.drop i) ∧ t.LiesAt file s i j ∧
      LieBetween file s j b ts

end

theorem LieBetween.le {file : Option String} {s : List Char} {a b : Nat} {ts : List Tree}
    (h : LieBetween file s a b ts) : a ≤ b := by
  induction ts generalizing a with
  | nil => exact h.1
  | cons t ts ih =>
    obtain ⟨i, j, hi, hj, -, ht, -⟩ := h
    have hij : i ≤ j := by
      cases t with
      | ident | punct | literal => exact Nat.le_of_lt ht.1
      | group => have := ht.1; omega
    omega

/-! ## Stretches of trees -/

section

variable {file : Option String} {s : List Char} {a b c : Nat} {t : Tree} {ts us : List Tree}

theorem Tree.LiesAt.bounds (h : t.LiesAt file s a b) : a < b ∧ b ≤ s.length := by
  cases t with
  | ident | punct | literal => exact ⟨h.1, h.2.1⟩
  | group =>
    have := h.1
    exact ⟨by omega, h.2.1⟩

theorem Tree.LiesAt.span_eq (h : t.LiesAt file s a b) : t.span = Span.covering file s a b := by
  cases t with
  | ident | punct | literal => exact h.2.2.2
  | group => exact h.2.2.1

theorem Tree.LiesAt.startOffset (h : t.LiesAt file s a b) : t.span.startOffset = a := by
  rw [h.span_eq]
  rfl

theorem Tree.LiesAt.stopOffset (h : t.LiesAt file s a b) : t.span.stopOffset = b := by
  rw [h.span_eq]
  rfl

theorem Tree.LiesAt.inner {d : Delimiter} {span : Span} (h : (Tree.group d ts span).LiesAt file s a b) :
    LieBetween file s (a + 1) (b - 1) ts := h.2.2.2.2.2

namespace LieBetween

theorem nil (a : Nat) : LieBetween file s a a [] := ⟨Nat.le_refl a, .nil⟩

/-- Blanks and comments may be added in front. -/
theorem skip (hab : a ≤ b) (hskip : Skipped (s.drop a) (s.drop b)) (h : LieBetween file s b c ts) :
    LieBetween file s a c ts := by
  cases ts with
  | nil => exact ⟨Nat.le_trans hab h.1, hskip.trans h.2⟩
  | cons t ts =>
    obtain ⟨i, j, hi, hj, hgap, ht, hts⟩ := h
    exact ⟨i, j, Nat.le_trans hab hi, hj, hskip.trans hgap, ht, hts⟩

theorem append (h : LieBetween file s a b ts) (h' : LieBetween file s b c us) :
    LieBetween file s a c (ts ++ us) := by
  induction ts generalizing a with
  | nil => exact skip h.1 h.2 h'
  | cons t ts ih =>
    obtain ⟨i, j, hi, hj, hgap, ht, hts⟩ := h
    exact ⟨i, j, hi, Nat.le_trans hj h'.le, hgap, ht, ih hts⟩

theorem append_inv (h : LieBetween file s a c (ts ++ us)) :
    ∃ b, LieBetween file s a b ts ∧ LieBetween file s b c us := by
  induction ts generalizing a with
  | nil => exact ⟨a, nil a, h⟩
  | cons t ts ih =>
    obtain ⟨i, j, hi, hj, hgap, ht, hrest⟩ := h
    obtain ⟨b, hts, hus⟩ := ih hrest
    exact ⟨b, ⟨i, j, hi, hts.le, hgap, ht, hts⟩, hus⟩

/-- A tree of the list stands somewhere between the offsets. -/
theorem mem (h : LieBetween file s a b ts) (ht : t ∈ ts) :
    ∃ i j, a ≤ i ∧ j ≤ b ∧ t.LiesAt file s i j := by
  obtain ⟨pre, post, rfl⟩ := List.append_of_mem ht
  obtain ⟨k, hpre, i, j, hi, hj, -, hlies, -⟩ := h.append_inv
  exact ⟨i, j, Nat.le_trans hpre.le hi, hj, hlies⟩

end LieBetween

end

/-! ## Trees that were read -/

/-- A stretch that was cut off the front of the text is a slice of it. -/
theorem slice_advance {s text rest : List Char} {p : Position}
    (hs : s.drop p.offset = text ++ rest) :
    slice s p.offset (p.advance text).offset = text := by
  rw [slice_natCast, hs, Position.advance_offset, Nat.add_sub_cancel_left, List.take_left]

/-- A leaf that was read at `p` is cut out of the text there. -/
theorem Lexeme.leaf_liesAt {file : Option String} {s text rest : List Char} {p : Position}
    (cls : LexemeClass) (hp : p.InText s) (hs : s.drop p.offset = text ++ rest) (hne : text ≠ []) :
    (Lexeme.leaf file ⟨cls, String.ofList text, p, p.advance text⟩).LiesAt file s p.offset
      (p.advance text).offset := by
  have hq := hp.advance hs
  have hpos := List.length_pos_iff.2 hne
  have hcut : CutOut file s p.offset (p.advance text).offset (String.ofList text)
      (Span.between file p (p.advance text)) := by
    refine ⟨by rw [Position.advance_offset]; omega, hq.offset_le, ?_,
      Span.between_eq_covering file hp hq⟩
    rw [slice_advance hs, String.toList_ofList]
  unfold Lexeme.leaf
  cases cls <;> exact hcut

/-- A group that was read between two brackets takes up the text from one to the other. -/
theorem Tree.group_liesAt {file : Option String} {s opening inner closing rest : List Char}
    {p q : Position} {d : Delimiter} {children : List Tree} (hp : p.InText s) (hq : q.InText s)
    (hs : s.drop p.offset = opening ++ inner) (ho : IsToken (.opening d) opening inner)
    (hs' : s.drop q.offset = closing ++ rest) (hc : IsToken (.closing d) closing rest)
    (hchildren : LieBetween file s (p.advance opening).offset q.offset children) :
    (Tree.group d children (Span.between file p (q.advance closing))).LiesAt file s p.offset
      (q.advance closing).offset := by
  obtain ⟨hopening, -⟩ := ho.opening
  obtain ⟨hclosing, -⟩ := hc.closing
  have hopen : (p.advance opening).offset = p.offset + 1 := by
    rw [Position.advance_offset, ho.length_bracket rfl]
  have hclose : (q.advance closing).offset = q.offset + 1 := by
    rw [Position.advance_offset, hc.length_bracket rfl]
  have hlast : (q.advance closing).offset - 1 = q.offset := by omega
  have hle := hchildren.le
  have hstop := hq.advance hs'
  refine ⟨by omega, hstop.offset_le, Span.between_eq_covering file hp hstop, ?_, ?_, ?_⟩
  · rw [← hopen, slice_advance hs, hopening]
  · rw [hlast, slice_advance hs', hclosing]
  · rw [hlast, ← hopen]
    exact hchildren

/-- Trees that are read from a text lie in it, up to a place that only blanks and comments lead to. -/
theorem Reads.lieBetween {file : Option String} {s cs rest : List Char} {p q : Position}
    {ts : List Tree} (h : Reads file p cs ts q rest) (hp : p.InText s) (hs : s.drop p.offset = cs)
    {b : Nat} (hb : q.offset ≤ b) (hskip : Skipped rest (s.drop b)) :
    LieBetween file s p.offset b ts := by
  induction h generalizing b with
  | nil =>
    rw [LieBetween, hs]
    exact ⟨hb, hskip⟩
  | @leaf p q gap text mid rest cls t ts hg ht hl he hr ih =>
    have hstart := hp.advance hs
    have htext := Position.drop_advance hs
    have hmid := Position.drop_advance htext
    refine ⟨(p.advance gap).offset, ((p.advance gap).advance text).offset, ?_, ?_, ?_, ?_, ?_⟩
    · rw [Position.advance_offset]; omega
    · have := hr.offset_le
      omega
    · rw [hs, htext]
      exact .of_gap hg _
    · rw [he]
      exact Lexeme.leaf_liesAt cls hstart htext ht.ne_nil
    · exact ih (hstart.advance htext) hmid hb hskip
  | @group p q r gap opening inner gap' closing mid rest d children ts hg ho hr hg' hc hr' ih ih' =>
    have hstart := hp.advance hs
    have hopening := Position.drop_advance hs
    have hinner := Position.drop_advance hopening
    have hfirst := hstart.advance hopening
    obtain ⟨taken, htaken, hq⟩ := hr.exists_append
    have hqIn : q.InText s := by
      rw [hq]
      exact hfirst.advance (hinner.trans htaken)
    have hlast := hr.drop_stop hinner
    have hclosing := Position.drop_advance hlast
    have hmid := Position.drop_advance hclosing
    have hclose := hqIn.advance hlast
    -- the children reach up to the gap in front of the closing bracket
    have hchildren : LieBetween file s ((p.advance gap).advance opening).offset
        (q.advance gap').offset children := by
      apply ih hfirst hinner
      · rw [Position.advance_offset]; omega
      · rw [hclosing]
        exact .of_gap hg' _
    refine ⟨(p.advance gap).offset, ((q.advance gap').advance closing).offset, ?_, ?_, ?_, ?_, ?_⟩
    · rw [Position.advance_offset]; omega
    · have := hr'.offset_le
      omega
    · rw [hs, hopening]
      exact .of_gap hg _
    · exact Tree.group_liesAt hstart hclose hopening ho hclosing hc hchildren
    · exact ih' (hclose.advance hclosing) hmid hb hskip

/-- Trees that are read up to a rest without tokens lie between the two ends of the text. -/
theorem Reads.lieBetween_ends {file : Option String} {s rest : List Char} {q : Position}
    {ts : List Tree} (h : Reads file .first s ts q rest) (hrest : scan rest = {}) :
    LieBetween file s 0 s.length ts := by
  obtain ⟨taken, hs, hq⟩ := h.exists_append
  have hstop : q.offset ≤ s.length := by
    rw [hq, hs, Position.advance_offset, List.length_append]
    show 0 + taken.length ≤ _
    omega
  apply h.lieBetween (Position.first_inText s) rfl hstop
  rw [List.drop_length]
  exact .of_scan hrest

/-- The trees of a text, and all trees inside them, stand where their spans say. -/
theorem tokenize_located {s : List Char} {file : Option String} {trees : List Tree}
    (h : tokenize s file = .ok trees) : LieBetween file s 0 s.length trees := by
  obtain ⟨q, rest, hr, hrest⟩ := tokenize_reads h
  exact hr.lieBetween_ends hrest

/-- A string over two lines, and a comment over two lines in front of a raw string over two lines. -/
theorem tokenize_located_multiline :
    let s := "f(\"a\nb\", /* é\n */ r#\"c\n\"#) // d".toList
    let trees : List Tree :=
      [.ident "f" ⟨some "m", some 1, some 1, some 1, some 2, some 0, some 1⟩,
       .group .paren
         [.literal .string "\"a\nb\"" ⟨some "m", some 1, some 3, some 2, some 3, some 2, some 7⟩,
          .punct "," ⟨some "m", some 2, some 3, some 2, some 4, some 7, some 8⟩,
          .literal .string "r#\"c\n\"#" ⟨some "m", some 3, some 5, some 4, some 3, some 18, some 25⟩]
         ⟨some "m", some 1, some 2, some 4, some 4, some 1, some 26⟩]
    tokenize s (some "m") = .ok trees ∧ LieBetween (some "m") s 0 s.length trees := by
  have h : tokenize "f(\"a\nb\", /* é\n */ r#\"c\n\"#) // d".toList (some "m") = .ok
      [.ident "f" ⟨some "m", some 1, some 1, some 1, some 2, some 0, some 1⟩,
       .group .paren
         [.literal .string "\"a\nb\"" ⟨some "m", some 1, some 3, some 2, some 3, some 2, some 7⟩,
          .punct "," ⟨some "m", some 2, some 3, some 2, some 4, some 7, some 8⟩,
          .literal .string "r#\"c\n\"#" ⟨some "m", some 3, some 5, some 4, some 3, some 18, some 25⟩]
         ⟨some "m", some 1, some 2, some 4, some 4, some 1, some 26⟩] := by cbv
  exact ⟨h, tokenize_located h⟩

end InlineVariants
