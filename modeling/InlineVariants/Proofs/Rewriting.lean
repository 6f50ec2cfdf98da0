import InlineVariants.Edit
import InlineVariants.Proofs.Copying
import InlineVariants.Proofs.Walking

/-!
# Rewriting touches nothing but markers

A walk puts an invisible group in place of every marker, with the span of the marker, so the printer
goes on copying the source in front of it and behind it. What comes out is the source text with one
edit for every outermost marker (`Walker.edits`): from the beginning of its name to the end of its
group stands the text of its replacement, printed alone.

Main statement: `render_walk`, for the trees of a whole text and for every group in it.
-/

namespace InlineVariants

open Text Lexeme

/-! ## Substituted text -/

namespace Edit

/-- The text from offset `a` up to offset `b` in which every edit is made. -/
def substituted (s : List Char) (b : Nat) : (a : Nat) → List Edit → List Char
  | a, [] => slice s a b
  | a, e :: es => slice s a e.start ++ (e.replacement ++ substituted s b e.stop es)

/-- The edits lie between two offsets, in order and without overlap, and none of them is empty. -/
def Within (b : Nat) : (a : Nat) → List Edit → Prop
  | a, [] => a ≤ b
  | a, e :: es => a ≤ e.start ∧ e.start < e.stop ∧ Within b e.stop es

theorem Within.append {a b c : Nat} {es fs : List Edit} (h : Within b a es) (h' : Within c b fs) :
    Within c a (es ++ fs) := by
  induction es generalizing a with
  | nil =>
    cases fs with
    | nil => exact Nat.le_trans h h'
    | cons f fs => exact ⟨Nat.le_trans h h'.1, h'.2⟩
  | cons e es ih => exact ⟨h.1, h.2.1, ih h.2.2⟩

theorem slice_append (s : List Char) {a b c : Nat} (h : a ≤ b) (h' : b ≤ c) :
    slice s a b ++ slice s b c = slice s a c := by
  simp only [slice_natCast]
  rw [show c - a = (b - a) + (c - b) by omega, List.take_add, List.drop_drop,
    show a + (b - a) = b by omega]

theorem substituted_append (s : List Char) {a b c : Nat} {es fs : List Edit} (h : Within b a es)
    (h' : Within c b fs) :
    substituted s c a (es ++ fs) = substituted s b a es ++ substituted s c b fs := by
  induction es generalizing a with
  | nil =>
    cases fs with
    | nil => exact (slice_append s h h').symm
    | cons f fs => simp only [List.nil_append, substituted, ← slice_append s h h'.1, List.append_assoc]
  | cons e es ih => simp only [List.cons_append, substituted, ih h.2.2, List.append_assoc]

/-- Edits that lie behind a stretch of source text leave it alone. -/
theorem substituted_advance {s as bs : List Char} {p : Position} {c : Nat} {es : List Edit}
    (h : s.drop p.offset = as ++ bs) (hw : Within c (p.advance as).offset es) :
    Within c p.offset es ∧
      substituted s c p.offset es = as ++ substituted s c (p.advance as).offset es := by
  have hle : Within (p.advance as).offset p.offset [] := by simp [Within]
  have hslice : slice s p.offset (p.advance as).offset = as := by
    rw [slice_natCast, h, Position.advance_offset, Nat.add_sub_cancel_left, List.take_left]
  have := substituted_append s hle hw
  rw [List.nil_append, substituted, hslice] at this
  exact ⟨hle.append hw, this⟩

end Edit

/-! ## The edits of a walk -/

/-- The edit that puts the text of its replacement in the place of a marker. -/
def Visit.edit (w : Walker) (s : List Char) (x : Visit) : Edit where
  start := x.nameSpan.startOffset
  stop := x.groupSpan.stopOffset
  replacement := render [x.replacement w] (some s)

/-- Whether a marker stands in no payload of another. -/
def Visit.isOutermost (x : Visit) : Bool := x.route.isEmpty

/-- The edits of a walk, one for every outermost marker. -/
def Walker.edits (w : Walker) (s : List Char) (before : Option Tree) (ts : List Tree) : List Edit :=
  ((w.visits before ts).filter Visit.isOutermost).map (Visit.edit w s)

namespace Walker

variable (w : Walker) (s : List Char) {before : Option Tree} {contents rest : List Tree}
  {span opSpan groupSpan : Span} {d : Delimiter}

@[simp] theorem edits_nil : w.edits s before [] = [] := by
  rw [edits, visits]; rfl

theorem edits_marker (hb : before.any isQualifier = false) (hd : d ≠ .invisible) :
    w.edits s before
        (.ident w.marker span :: .punct "!" opSpan :: .group d contents groupSpan :: rest) =
      Visit.edit w s ⟨[], span, contents, groupSpan⟩ :: w.edits s none rest := by
  have hinner : ((Visit.mk [] span contents groupSpan).payloads.flatMap fun p =>
      (w.visits none p.2).map (.within p.1)).filter Visit.isOutermost = [] := by
    simp only [List.filter_eq_nil_iff, List.mem_flatMap, List.mem_map]
    rintro _ ⟨p, -, x, -, rfl⟩
    simp [Visit.isOutermost, Visit.within]
  rw [edits, w.visits_marker hb hd, List.filter_cons_of_pos rfl, List.filter_append, hinner]
  rfl

theorem edits_group (hd : d ≠ .invisible) :
    w.edits s before (.group d contents span :: rest) =
      w.edits s none contents ++ w.edits s none rest := by
  simp [edits, w.visits_group hd]

theorem edits_keep {t : Tree} (hm : w.marks before (t :: rest) = false)
    (ht : ∀ d contents span, t = .group d contents span → d = .invisible) :
    w.edits s before (t :: rest) = w.edits s (some t) rest := by
  rw [edits, w.visits_keep hm ht, edits]

end Walker

/-! ## Printing what a walk has built -/

namespace Layout

mutual

theorem tree_last (style : Style) : ∀ (t : Tree) (st : State), st.last.isSome = true →
    (tree style t st).2.last.isSome = true
  | .ident .., _, _ | .punct .., _, _ | .literal .., _, _ => rfl
  | .group .invisible ts s, st, h => by
    simp only [tree]
    exact trees_last style ts _ h
  | .group .paren .., _, _ | .group .brace .., _, _ | .group .bracket .., _, _ => rfl

theorem trees_last (style : Style) : ∀ (ts : List Tree) (st : State), st.last.isSome = true →
    (trees style ts st).2.last.isSome = true
  | [], _, h => h
  | t :: ts, st, h => trees_last style ts _ (tree_last style t st h)

end

/-- The gap in front of an invisible group of the source is copied. -/
theorem State.At.invisibleGap_eq {s gap cs : List Char} {p q : Position} {st : State} {span : Span}
    (hst : st.At p) (hp : s.drop p.offset = gap ++ cs) (hg : Gap gap)
    (hstart : span.start = some ((p.advance gap).offset : Int))
    (hstop : span.stop = some (q.offset : Int)) :
    invisibleGap (copying s) st span = some gap := by
  have hknown : span.known = true := by simp [Span.known, hstart, hstop]
  rw [invisibleGap, if_pos hknown, hst.stop, hstart]
  exact sourceGap_copying hp hg

/-- Behind the replacement of a marker the printer stands at the end of the marker. -/
theorem tree_replacement_at {s gap cs : List Char} {p q : Position} {st : State} (ts : List Tree)
    {span : Span} (hst : st.At p) (hp : s.drop p.offset = gap ++ cs) (hg : Gap gap)
    (hstart : span.start = some ((p.advance gap).offset : Int))
    (hstop : span.stop = some (q.offset : Int)) :
    (tree (copying s) (.group .invisible (Tree.mark "::" :: ts) span) st).1 =
        gap ++ render [.group .invisible (Tree.mark "::" :: ts) span] (some s) ∧
      (tree (copying s) (.group .invisible (Tree.mark "::" :: ts) span) st).2.At q := by
  have hknown : span.known = true := by simp [Span.known, hstart, hstop]
  rw [tree_eq_front _ _ rfl]
  refine ⟨?_, ?_, ?_, ?_⟩
  · simp only [front, hst.invisibleGap_eq hp hg hstart hstop, Option.getD_some]
    simp [render, trees, copying]
  · exact trees_last _ ts _ rfl
  · simp [tree, hknown, hstop]
  · rfl

end Layout

theorem Span.join_of_le {s t : Span} {a b c d : Int} (hs : s.start = some a) (hs' : s.stop = some b)
    (ht : t.start = some c) (ht' : t.stop = some d) (hac : a ≤ c) (hbd : b ≤ d) :
    (s.join t).start = some a ∧ (s.join t).stop = some d := by
  simp only [Span.join, hs, hs', ht, ht', hac, if_true, true_and, Option.some.injEq]
  omega

/-- Where a marker stands: its span runs from its name to the end of its group, and its contents are
read in between. -/
theorem Reads.marker_inv {file : Option String} {p q : Position} {cs rest : List Char}
    {text op : String} {span opSpan groupSpan : Span} {d : Delimiter} {contents ts : List Tree}
    (h : Reads file p cs
      (.ident text span :: .punct op opSpan :: .group d contents groupSpan :: ts) q rest) :
    ∃ gap cs' r mid, cs = gap ++ cs' ∧ Gap gap ∧
      span.start = some ((p.advance gap).offset : Int) ∧ groupSpan.stop = some (r.offset : Int) ∧
      (p.advance gap).offset < r.offset ∧
      (span.join groupSpan).start = some ((p.advance gap).offset : Int) ∧
      (span.join groupSpan).stop = some (r.offset : Int) ∧
      (∀ s : List Char, s.drop p.offset = cs → s.drop r.offset = mid) ∧
      Reads file r mid ts q rest ∧
      ∃ a b inner after, Reads file a inner contents b after ∧ inner <:+ cs' ∧ mid <:+ after ∧
        ∀ s : List Char, s.drop p.offset = cs → s.drop a.offset = inner := by
  obtain ⟨gap, name, mid₁, cls, rfl, hg, htok, -, he, h₁⟩ :=
    h.leaf_inv fun _ _ _ heq => Tree.noConfusion heq
  obtain ⟨q₂, mid₂, hop, h₂⟩ := h₁.cons_inv
  obtain ⟨r, mid₃, hgroup, h₃⟩ := h₂.cons_inv
  obtain ⟨gap₂, -, -, -, hgstart, -⟩ := hgroup.head_start
  have hgstop : groupSpan.stop = some (r.offset : Int) := hgroup.last_stop rfl
  have hspan : span = _ := (congrArg Tree.span he).trans (Lexeme.leaf_span file _)
  have hstart : span.start = some ((p.advance gap).offset : Int) := by rw [hspan]; rfl
  have hstop : span.stop = some (((p.advance gap).advance name).offset : Int) := by rw [hspan]; rfl
  have hne := List.length_pos_iff.2 htok.ne_nil
  have hle₂ := hop.offset_le
  have hle₃ := hgroup.offset_le
  simp only [Position.advance_offset] at hle₂
  obtain ⟨hjstart, hjstop⟩ := Span.join_of_le hstart hstop hgstart hgstop
    (by simp only [Position.advance_offset]; omega) (by simp only [Position.advance_offset]; omega)
  have hmid₂ (s : List Char) (hs : s.drop p.offset = gap ++ (name ++ mid₁)) :
      s.drop q₂.offset = mid₂ :=
    hop.drop_stop (Position.drop_advance (Position.drop_advance hs))
  refine ⟨gap, _, r, mid₃, rfl, hg, hstart, hgstop, ?_, hjstart, hjstop,
    fun s hs => hgroup.drop_stop (hmid₂ s hs), h₃, ?_⟩
  · simp only [Position.advance_offset]; omega
  · obtain ⟨gap₃, opening, inner, b, gap', closing, mid, rfl, -, -, hin, -, -, -, hend⟩ :=
      hgroup.group_inv
    cases hend
    refine ⟨_, b, inner, _, hin, ?_, ?_, fun s hs => ?_⟩
    · exact ((List.suffix_append _ _).trans (List.suffix_append _ _)).trans
        (hop.rest_suffix.trans (List.suffix_append _ _))
    · exact (List.suffix_append _ _).trans (List.suffix_append _ _)
    · exact Position.drop_advance (Position.drop_advance (hmid₂ s hs))

namespace Layout

/-- What a walk has built prints as the source text with its edits made. -/
theorem trees_rewritten (w : Walker) {file : Option String} {s cs rest : List Char} {p q : Position}
    {st : State} (before : Option Tree) {ts : List Tree} (h : Reads file p cs ts q rest)
    (hp : s.drop p.offset = cs) (hst : st.At p) :
    Edit.Within q.offset p.offset (w.edits s before ts) ∧
      (trees (copying s) (w.rewritten before ts) st).1 =
        Edit.substituted s q.offset p.offset (w.edits s before ts) ∧
      (trees (copying s) (w.rewritten before ts) st).2.At q := by
  induction before, ts using w.walk_induction generalizing p q cs rest st with
  | nil before =>
    cases h
    refine ⟨by simp [Edit.Within], ?_, hst⟩
    simp [Edit.substituted, trees, slice_natCast]
  | marker before span opSpan d contents groupSpan ts hb hd _ ih =>
    obtain ⟨gap, cs', r, mid, rfl, hg, hstart, hstop, hlt, hjstart, hjstop, hdrop, hr, -⟩ :=
      h.marker_inv
    obtain ⟨children, hx⟩ := Visit.replacement_shape w [] span contents groupSpan
    obtain ⟨h1, h2⟩ := tree_replacement_at children hst hp hg hjstart hjstop
    rw [← hx] at h1 h2
    obtain ⟨hw, hs, hat⟩ := ih hr (hdrop s hp) h2
    have hstart' : span.startOffset = (p.advance gap).offset := by rw [Span.startOffset, hstart]; rfl
    have hstop' : groupSpan.stopOffset = r.offset := by rw [Span.stopOffset, hstop]; rfl
    have hedits : Edit.Within q.offset (p.advance gap).offset
        (Visit.edit w s ⟨[], span, contents, groupSpan⟩ :: w.edits s none ts) := by
      refine ⟨?_, ?_, ?_⟩ <;> simp only [Visit.edit, hstart', hstop']
      · exact Nat.le_refl _
      · exact hlt
      · exact hw
    obtain ⟨hw₁, hs₁⟩ := Edit.substituted_advance hp hedits
    rw [w.rewritten_marker hb hd, w.edits_marker s hb hd, trees_cons]
    refine ⟨hw₁, ?_, hat⟩
    dsimp only
    rw [h1, hs, hs₁, Edit.substituted]
    simp only [Visit.edit, hstart', hstop', slice_natCast]
    simp
  | group before d contents span ts hd ihc ih =>
    obtain ⟨gap, opening, inner, q₂, gap', closing, mid, rfl, hg, ho, hr, hg', hc, rfl, hr'⟩ :=
      h.group_inv
    have hopening := Position.drop_advance hp
    have hinner := Position.drop_advance hopening
    have hgap' : s.drop q₂.offset = gap' ++ (closing ++ mid) := hr.drop_stop hinner
    have hclosing := Position.drop_advance hgap'
    have hat : State.At ⟨some default, some (((p.advance gap).advance opening).offset : Int), false⟩
      ((p.advance gap).advance opening) := ⟨rfl, rfl, rfl⟩
    obtain ⟨hwc, -⟩ := ihc hr hinner hat
    obtain ⟨h1, h2⟩ := tree_group_at file hst hp hg ho hgap' hg' hc
      fun st hst => (ihc hr hinner hst).2
    obtain ⟨hw, hs, hat⟩ := ih hr' (Position.drop_advance hclosing) h2
    obtain ⟨hw₁, hs₁⟩ := Edit.substituted_advance hclosing hw
    obtain ⟨hw₂, hs₂⟩ := Edit.substituted_advance hgap' hw₁
    obtain ⟨hw₃, hs₃⟩ := Edit.substituted_advance hopening (hwc.append hw₂)
    obtain ⟨hw₄, hs₄⟩ := Edit.substituted_advance hp hw₃
    rw [w.rewritten_group hd, w.edits_group s hd, trees_cons]
    refine ⟨hw₄, ?_, hat⟩
    dsimp only
    rw [h1, hs, hs₄, hs₃, Edit.substituted_append s hwc hw₂, hs₂, hs₁]
    simp
  | keep before t ts hm ht ih =>
    obtain ⟨gap, text, mid, cls, rfl, hg, htok, hl, he, hr⟩ := h.leaf_inv ht
    obtain ⟨h1, h2⟩ := tree_leaf_at file cls hst hp hg
    rw [← he] at h1 h2
    have htext := Position.drop_advance hp
    obtain ⟨hw, hs, hat⟩ := ih hr (Position.drop_advance htext) h2
    obtain ⟨hw₁, hs₁⟩ := Edit.substituted_advance htext hw
    obtain ⟨hw₂, hs₂⟩ := Edit.substituted_advance hp hw₁
    rw [w.rewritten_keep hm ht, w.edits_keep s hm ht, trees_cons]
    refine ⟨hw₂, ?_, hat⟩
    dsimp only
    rw [hs, h1, hs₂, hs₁, List.append_assoc]

/-- The trees begin with a token at `p`: a printer that stands there puts nothing in front. -/
def BeginsAt (s : List Char) (p : Position) (us : List Tree) : Prop :=
  ∃ u us', us = u :: us' ∧ isSolid u = true ∧ ∀ st : State, st.At p → front (copying s) st u = []

theorem beginsAt_of_isVisible (s : List Char) {p : Position} {u : Tree} (us : List Tree)
    (hv : isVisible u = true) (hu : firstStart u = some (p.offset : Int)) :
    BeginsAt s p (u :: us) := by
  refine ⟨u, us, rfl, (front_of_isVisible (copying s) {} hv).1, fun st hst => ?_⟩
  have hnil : s.drop p.offset = [] ++ s.drop p.offset := rfl
  rw [(front_of_isVisible (copying s) st hv).2, hu]
  exact hst.gap_eq hnil .nil _

/-- What a walk has built begins where the list began. -/
theorem rewritten_beginsAt (w : Walker) {file : Option String} {cs rest : List Char}
    {p q : Position} (before : Option Tree) {t : Tree} {ts : List Tree}
    (h : Reads file p cs (t :: ts) q rest) (ht : t.span.start = some (p.offset : Int))
    (s : List Char) : BeginsAt s p (w.rewritten before (t :: ts)) := by
  by_cases hm : w.marks before (t :: ts) = true
  · obtain ⟨span, opSpan, d, contents, groupSpan, rest', heq, hd, hb⟩ := w.eq_of_marks hm
    obtain ⟨rfl, rfl⟩ := List.cons.inj heq
    obtain ⟨gap, cs', r, mid, -, -, hstart, -, -, hjstart, hjstop, -⟩ := h.marker_inv
    obtain ⟨children, hx⟩ := Visit.replacement_shape w [] span contents groupSpan
    refine ⟨_, _, w.rewritten_marker hb hd, ?_, fun st hst => ?_⟩
    · rw [hx]; rfl
    · have hj : (span.join groupSpan).start = some (p.offset : Int) := by
        rw [hjstart, ← hstart]; exact ht
      have hnil : s.drop p.offset = [] ++ s.drop p.offset := rfl
      rw [hx, front, hst.invisibleGap_eq hnil .nil hj hjstop, Option.getD_some]
  · obtain ⟨hv, hfirst⟩ := isVisible_of_reads h
    by_cases hgroup : ∃ d contents span, t = .group d contents span ∧ d ≠ .invisible
    · obtain ⟨d, contents, span, rfl, hd⟩ := hgroup
      rw [w.rewritten_group hd]
      exact beginsAt_of_isVisible s _ hv (hfirst.trans ht)
    · rw [w.rewritten_keep (by simpa using hm) fun d contents span htree => by
        by_contra hd
        exact hgroup ⟨d, contents, span, htree, hd⟩]
      exact beginsAt_of_isVisible s _ hv (hfirst.trans ht)

end Layout

/-- What a walk has built of a list, printed on its own, is the source text that the list covers with
its edits made. -/
theorem render_rewritten (w : Walker) {file : Option String} {s cs rest : List Char}
    {p q : Position} (before : Option Tree) {t : Tree} {ts : List Tree}
    (h : Reads file p cs (t :: ts) q rest) (hp : s.drop p.offset = cs) :
    ∃ a : Nat, t.span.start = some (a : Int) ∧
      Edit.Within q.offset a (w.edits s before (t :: ts)) ∧
      render (w.rewritten before (t :: ts)) (some s) =
        Edit.substituted s q.offset a (w.edits s before (t :: ts)) := by
  obtain ⟨gap, cs', rfl, -, hstart, h⟩ := h.head_start
  have hat : Layout.State.At ⟨some default, some ((p.advance gap).offset : Int), false⟩
    (p.advance gap) := ⟨rfl, rfl, rfl⟩
  obtain ⟨hw, hs, -⟩ := Layout.trees_rewritten w before h (Position.drop_advance hp) hat
  obtain ⟨u, us, hu, hsolid, hfront⟩ := Layout.rewritten_beginsAt w before h hstart s
  refine ⟨_, hstart, hw, ?_⟩
  rw [← hs, hu, Layout.trees_eq_front _ _ _ hsolid, hfront _ hat]
  rfl

/-! ## Whole texts and groups -/

/-- A tree stands in a list, at any depth. -/
inductive Tree.Occurs (t : Tree) : List Tree → Prop
  | here {ts : List Tree} : t ∈ ts → Occurs t ts
  | inside {d : Delimiter} {contents ts : List Tree} {span : Span} :
      .group d contents span ∈ ts → Occurs t contents → Occurs t ts

namespace Reads

variable {file : Option String} {s cs rest : List Char} {p q : Position} {ts : List Tree}

/-- A tree of a list is read on its own at its place. -/
theorem mem {t : Tree} (h : Reads file p cs ts q rest) (hp : s.drop p.offset = cs) (ht : t ∈ ts) :
    ∃ p' cs' q' rest', Reads file p' cs' [t] q' rest' ∧ s.drop p'.offset = cs' := by
  obtain ⟨pre, post, rfl⟩ := List.append_of_mem ht
  obtain ⟨p', cs', hpre, h⟩ := h.append_inv
  obtain ⟨q', rest', h, -⟩ := h.cons_inv
  exact ⟨p', cs', q', rest', h, hpre.drop_stop hp⟩

theorem occurs {t : Tree} (ht : t.Occurs ts) (h : Reads file p cs ts q rest)
    (hp : s.drop p.offset = cs) :
    ∃ p' cs' q' rest', Reads file p' cs' [t] q' rest' ∧ s.drop p'.offset = cs' := by
  induction ht generalizing p cs q rest with
  | here ht => exact h.mem hp ht
  | inside hg _ ih =>
    obtain ⟨p', cs', q', rest', h, hp'⟩ := h.mem hp hg
    obtain ⟨gap, opening, inner, q'', gap', closing, mid, rfl, -, -, hr, -⟩ := h.group_inv
    exact ih hr (Position.drop_advance (Position.drop_advance hp'))

/-- What is read lies in the text. -/
theorem offset_le_length {t : Tree} (h : Reads file p cs (t :: ts) q rest)
    (hp : s.drop p.offset = cs) : q.offset ≤ s.length := by
  have hcs : cs ≠ [] := by
    cases h with
    | leaf _ ht _ _ _ => simp [ht.ne_nil]
    | group _ ho _ _ _ _ => simp [ho.ne_nil]
  obtain ⟨taken, rfl, rfl⟩ := h.exists_append
  have hlen := congrArg List.length hp
  have hpos := List.length_pos_iff.2 hcs
  simp only [List.length_drop, List.length_append] at hlen hpos
  rw [Position.advance_offset]
  omega

end Reads

/-- Code outside markers comes out as it is. What a walk has made of the trees of a text, or of a
group in them, prints as the source text that the trees or the group covered, in which the text of
each outermost marker, from its name to the end of its group, is replaced by what its replacement
prints alone. -/
theorem render_walk {s : List Char} {file : Option String} {trees : List Tree}
    (h : tokenize s file = .ok trees) (w : Walker) (c : Collected) :
    (∀ first last, trees.head? = some first → trees.getLast? = some last →
      ∃ a b : Nat, first.span.start = some (a : Int) ∧ last.span.stop = some (b : Int) ∧
        b ≤ s.length ∧ Edit.Within b a (w.edits s none trees) ∧
        render (w.walk c trees).2 (some s) = Edit.substituted s b a (w.edits s none trees)) ∧
    ∀ d contents span, Tree.Occurs (.group d contents span) trees →
      ∃ a b : Nat, span.start = some (a : Int) ∧ span.stop = some (b : Int) ∧
        b ≤ s.length ∧ Edit.Within b a (w.edits s none contents) ∧
        render [.group d (w.walk c contents).2 span] (some s) =
          Edit.substituted s b a (w.edits s none contents) := by
  obtain ⟨q, rest, hr, -⟩ := tokenize_reads h
  constructor
  · intro first last hfirst hlast
    obtain ⟨ts, rfl⟩ := List.head?_eq_some_iff.1 hfirst
    obtain ⟨a, ha, hw, hs⟩ := render_rewritten w none hr rfl
    refine ⟨a, q.offset, ha, hr.last_stop hlast, hr.offset_le_length rfl, hw, ?_⟩
    rw [w.walk_snd, hs]
  · intro d contents span hocc
    obtain ⟨p', cs', q', rest', hr', hp'⟩ := hr.occurs hocc rfl
    have hd : d ≠ .invisible := by
      obtain ⟨_, _, _, _, _, _, _, _, _, ho, -⟩ := hr'.group_inv
      exact ho.opening.2
    obtain ⟨a, ha, hw, hs⟩ := render_rewritten w none hr' hp'
    rw [w.edits_group s hd, Walker.edits_nil, List.append_nil] at hw hs
    rw [w.rewritten_group hd, Walker.rewritten_nil] at hs
    exact ⟨a, q'.offset, ha, hr'.last_stop rfl, hr'.offset_le_length hp', hw, by rw [w.walk_snd, hs]⟩

/-- A marker in a group, with blanks in front of it and a comment behind it. -/
theorem render_walk_marker_in_group :
    let s := ";[ err!(A)/*b*/]".toList
    ∃ trees first last, tokenize s = .ok trees ∧ trees.head? = some first ∧
      trees.getLast? = some last ∧
      ∃ a b : Nat, first.span.start = some (a : Int) ∧ last.span.stop = some (b : Int) ∧
        b ≤ s.length ∧ Edit.Within b a (Walker.edits ⟨"E", "err"⟩ s none trees) ∧
        render (Walker.walk ⟨"E", "err"⟩ {} trees).2 (some s) =
          Edit.substituted s b a (Walker.edits ⟨"E", "err"⟩ s none trees) := by
  have h : tokenize ";[ err!(A)/*b*/]".toList = .ok
      [.punct ";" ⟨none, some 1, some 1, some 1, some 2, some 0, some 1⟩,
        .group .bracket
          [.ident "err" ⟨none, some 1, some 4, some 1, some 7, some 3, some 6⟩,
            .punct "!" ⟨none, some 1, some 7, some 1, some 8, some 6, some 7⟩,
            .group .paren [.ident "A" ⟨none, some 1, some 9, some 1, some 10, some 8, some 9⟩]
              ⟨none, some 1, some 8, some 1, some 11, some 7, some 10⟩]
          ⟨none, some 1, some 2, some 1, some 17, some 1, some 16⟩] := by cbv
  exact ⟨_, _, _, h, rfl, rfl, (render_walk h ⟨"E", "err"⟩ {}).1 _ _ rfl rfl⟩

end InlineVariants
