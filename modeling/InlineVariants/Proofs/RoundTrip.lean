import InlineVariants.Proofs.Weaving
import Mathlib

/-!
# Rewritten code is read back

What a walk has built is printed as text, and that text is read by somebody else. It is read as the
rewritten trees, with the invisible groups dissolved, unless a `:` of the source has come to stand
directly in front of a `::` that was put in, or in front of a `:` from which it was separated: the two
are then one token. The one other thing that can go wrong is that a `/*` without an end in the source
finds an end in the printed text.

Main statements: what a walk has built is woven from the source (`Walker.weaves_rewritten`), and it is
read back exactly if nothing fuses (`tokenize_render_iff`).
-/

namespace InlineVariants

open Text Lexeme Layout

/-! ## What a walk has built -/

section

variable (w : Walker) {s : List Char} {file : Option String}

/-- The chunks of the replacement of a marker, in the place of the marker. -/
theorem Layout.carries_replacement {gap old inner mid : List Char} {p r : Position} {st : State}
    {stream : List Tree} {span : Span} (hst : st.At p) (hp : s.drop p.offset = gap ++ old)
    (hg : Gap gap) (hstart : span.start = some ((p.advance gap).offset : Int))
    (hstop : span.stop = some (r.offset : Int)) (hinner : inner <:+ old)
    (hmade : Made s inner mid stream) :
    Carries (gap ++ old) mid (treeChunks (copying s) (.group .invisible stream span) st)
      [.group .invisible stream span] := by
  rw [treeChunks, hst.invisibleGap_eq hp hg hstart hstop]
  obtain ⟨words, vs, hsplits, hrest⟩ := ((hmade _ old hinner).1).gap_append hg
  exact ⟨words, vs, by simpa [dissolvedOf, Tree.dissolved] using hsplits, hrest⟩

/-- What stands in the place of a marker is put in around trees of its contents. -/
theorem Visit.made_replacement (hname : IsToken .name w.enum.toList []) {x : Visit}
    {inner mid after : List Char} {a b : Position}
    (hvalues : ∀ v, (Variant.parse x.contents x.groupSpan).result = .ok v →
      ∀ value ∈ v.payloads, Weaves s file value (w.rewritten none value))
    (hr : Reads file a inner x.contents b after) (ha : s.drop a.offset = inner)
    (hmid : mid <:+ after) :
    ∃ stream, x.replacement w = .group .invisible stream (x.nameSpan.join x.groupSpan) ∧
      Made s inner mid stream := by
  obtain ⟨hsplits, htaken⟩ := Variant.parse_spec x.contents x.groupSpan
  cases hparse : (Variant.parse x.contents x.groupSpan).result with
  | error e =>
    exact ⟨_, x.replacement_error w hparse, (Weaves.of_splits hsplits).made_inert hr ha hmid⟩
  | ok v =>
    have hpayloads : ∀ value ∈ v.payloads, Weaves s file value (w.walk {} value).2 := by
      intro value hvalue
      rw [w.walk_snd]
      exact hvalues v hparse value hvalue
    exact ⟨_, x.replacement_ok w hparse,
      (Variant.weaves_construction (htaken v hparse) hpayloads).made_construction hname hr ha hmid⟩

namespace Walker

theorem weaves_of_carries {ts : List Tree}
    (h : ∀ {p q cs rest st}, Reads file p cs ts q rest → s.drop p.offset = cs → State.At st p →
      Carries cs rest (treesChunks (copying s) (w.rewritten none ts) st) (w.rewritten none ts)) :
    Weaves s file ts (w.rewritten none ts) := by
  by_cases hts : ts = []
  · subst hts
    exact .nil
  · refine .of_carries ?_ (fun p q cs rest st hr hp hst => h hr hp hst) hts
    rintro p q cs rest t ts' rfl hr ht
    exact rewritten_beginsAt w none hr ht s

/-- The chunks of what a walk has built. -/
theorem carries_rewritten (hname : IsToken .name w.enum.toList []) (before : Option Tree)
    {cs rest : List Char} {p q : Position} {st : State} {ts : List Tree}
    (h : Reads file p cs ts q rest) (hp : s.drop p.offset = cs) (hst : st.At p) :
    Carries cs rest (treesChunks (copying s) (w.rewritten before ts) st) (w.rewritten before ts) := by
  induction before, ts using w.walk_induction generalizing p q cs rest st with
  | nil before =>
    cases h
    exact .nil
  | marker before span opSpan d contents groupSpan ts hb hd ihv ih =>
    obtain ⟨gap, old, r, mid, rfl, hg, -, -, -, hstart, hstop, hdrop, hr, a, b, inner, after, hc,
      hinner, hafter, ha⟩ := h.marker_inv
    obtain ⟨stream, hx, hmade⟩ := Visit.made_replacement w hname (x := ⟨[], span, contents, groupSpan⟩)
      (fun v hv value hvalue => w.weaves_of_carries (ihv v hv value hvalue)) hc (ha s hp) hafter
    obtain ⟨children, hx'⟩ := Visit.replacement_shape w [] span contents groupSpan
    have hat := (tree_replacement_at children hst hp hg hstart hstop).2
    rw [← hx'] at hat
    have hreplacement := carries_replacement hst hp hg hstart hstop hinner hmade
    rw [← hx] at hreplacement
    rw [w.rewritten_marker hb hd, treesChunks]
    exact hreplacement.append (ih hr (hdrop s hp) hat)
  | group before d contents span ts hd ihc ih =>
    obtain ⟨gap, opening, inner, q', gap', closing, mid, rfl, hg, ho, hr, hg', hc, rfl, hr'⟩ :=
      h.group_inv
    have hinner := Position.drop_advance (Position.drop_advance hp)
    have hq : s.drop q'.offset = gap' ++ (closing ++ mid) := hr.drop_stop hinner
    have hmid := Position.drop_advance (Position.drop_advance hq)
    have hat := tree_group_stop file (copying s) st (w.rewritten none contents) hd (p.advance gap)
      (q'.advance gap')
    rw [← hc.closing.1] at hat
    rw [w.rewritten_group hd]
    exact (carries_group hst hp hg ho hq hg' hc fun st hst =>
      ⟨ihc hr hinner hst, (trees_rewritten w none hr hinner hst).2.2⟩).append (ih hr' hmid hat)
  | keep before t ts hm ht ih =>
    obtain ⟨gap, text, mid, cls, rfl, hg, htok, hl, rfl, hr⟩ := h.leaf_inv ht
    have hat := (tree_leaf_at file cls hst hp hg).2
    have hmid := Position.drop_advance (Position.drop_advance hp)
    rw [w.rewritten_keep hm ht]
    exact (carries_leaf hst hp hg htok hl).append (ih hr hmid hat)

/-- What a walk has built is woven from the source. -/
theorem weaves_rewritten (hname : IsToken .name w.enum.toList []) (ts : List Tree) :
    Weaves s file ts (w.rewritten none ts) :=
  w.weaves_of_carries fun h hp hst => w.carries_rewritten hname none h hp hst

end Walker

end

/-! ## Comments -/

/-- Every `/*` of a text begins a comment. -/
def CommentsClosed (s : List Char) : Prop :=
  ∀ rest, '/' :: '*' :: rest <:+ s → (blockComment? ('/' :: '*' :: rest)).isSome = true

theorem CommentsClosed.of_suffix {s cs : List Char} (h : CommentsClosed s) (hs : cs <:+ s) :
    CommentsClosed cs :=
  fun rest hr => h rest (hr.trans hs)

/-- Where every `/*` begins a comment, no `/` of a text that mirrors it does. -/
theorem Mirrors.swallows_eq_false {old : List Char} {chunks : List Chunk} {words : List Word}
    (h : Mirrors old chunks words) (hc : CommentsClosed old) : swallows chunks = false := by
  have hmark : ∀ m ∈ madeMarks, m.1 ≠ "/" := by decide
  induction h with
  | nil => rfl
  | gap _ _ ih => exact ih (hc.of_suffix (List.suffix_append _ _))
  | @token cls kind text old chunks words ht h ih =>
    have hrest := ih (hc.of_suffix (List.suffix_append _ _))
    simp only [swallows, hrest, Bool.or_false, Bool.and_eq_false_imp, beq_iff_eq]
    rintro rfl
    cases htext : textOf chunks with
    | nil => rfl
    | cons c new =>
      by_cases hstar : c = '*'
      · -- the old token would have been a comment as well
        subst hstar
        obtain ⟨old', rfl, -⟩ := (htext ▸ h.lookahead.1.shared).cons_of_not_inert (by decide)
        have hold := hc old' (List.suffix_refl _)
        have hnone := ht.not_trivia
        simp only [trivia?, Option.orElse_eq_orElse, Option.orElse_eq_or, Option.or_eq_none_iff] at hnone
        exact absurd hold (by simp [show blockComment? ('/' :: '*' :: old') = none from hnone.1])
      · simp [blockComment?, hstar]
  | @pieces op n old chunks words hop _ _ ih =>
    have hrest := ih (hc.of_suffix (List.suffix_append _ _))
    rcases gluedAngles?_cases hop with ⟨-, rfl⟩ | ⟨-, rfl⟩ <;> simpa [pieceChunks, swallows] using hrest
  | blank _ ih => exact ih hc
  | @mark cls kind op old ahead chunks words hm _ hs _ ih =>
    simp [swallows, hmark _ hm, ih (hc.of_suffix hs)]
  | @step cls kind kind' op name gap old chunks words hm _ _ hname _ _ ih =>
    have hslash : name ≠ "/" := by
      rintro rfl
      exact absurd hname (by decide)
    simp [swallows, hmark _ hm, hslash, ih hc]

/-! ## Reading it back -/

/-- A text is read as the given trees, up to spans and to tokens that are split in the trees. -/
def ReadsBackAs (text : List Char) (file : Option String) (ts : List Tree) : Prop :=
  ∃ us vs, tokenize text file = .ok us ∧ bareOf us = bareOf vs ∧ Splits vs ts

theorem Carries.mirrors {old rest : List Char} {chunks : List Chunk} {us : List Tree}
    (h : Carries old rest chunks us) :
    ∃ words vs, Splits vs (dissolvedOf us) ∧ Spells words vs ∧ Mirrors old chunks words := by
  obtain ⟨words, vs, hsplits, hspells, hm⟩ := h
  exact ⟨words, vs, hsplits, hspells, by simpa using hm [] [] .nil⟩

/-- Printed text that carries trees is read back as these trees exactly if nothing fuses. -/
theorem Carries.readsBackAs_iff {old rest : List Char} {chunks : List Chunk} {us : List Tree}
    (h : Carries old rest chunks us) (hs : swallows chunks = false) (file : Option String) :
    ReadsBackAs (textOf chunks) file (dissolvedOf us) ↔ fuses chunks = false := by
  obtain ⟨words, vs, hsplits, hspells, hm⟩ := h.mirrors
  have hread : ReadBack chunks words .first := hm.readBack hs .first
  unfold ReadBack at hread
  constructor
  · rintro ⟨us', vs', hus, hbare, hsplits'⟩
    by_contra hfuse
    rw [Bool.not_eq_false] at hfuse
    rw [if_pos hfuse] at hread
    -- both readings have the colons of the rewritten trees
    refine hread ?_
    calc colons (((scan (textOf chunks)).lexemes.map Lexeme.word).map Prod.snd)
        = colons (streamWords us') := (tokenize_forms hus).spells.colons_eq.symm
      _ = colons (streamWords vs') := by
        rw [← streamWords_bareOf, hbare, streamWords_bareOf]
      _ = colons (streamWords vs) := hsplits'.colons_eq.trans hsplits.colons_eq.symm
      _ = colons (words.map Prod.snd) := hspells.colons_eq
  · intro hfuse
    rw [hfuse, if_neg Bool.false_ne_true] at hread
    obtain ⟨hstuck, hfound⟩ := hread
    obtain ⟨us', hus, hbare⟩ := Spells.tokenize (hfound.symm ▸ hspells) hstuck file
    exact ⟨us', vs, hus, hbare, hsplits⟩

/-- A text that is read as one identifier is a name. -/
theorem isToken_of_tokenize {name : String} {span : Span}
    (h : tokenize name.toList = .ok [.ident name span]) : IsToken .name name.toList [] := by
  obtain ⟨q, rest, hr, -⟩ := tokenize_reads h
  obtain ⟨gap, text, mid, cls, hcs, -, ht, hl, he, -⟩ :=
    hr.leaf_inv fun _ _ _ heq => Tree.noConfusion heq
  obtain ⟨rfl, hname⟩ : cls = .name ∧ name = String.ofList text := by
    cases cls <;> simp [Lexeme.leaf] at he
    exact ⟨rfl, he.1⟩
  have htext : name.toList = text := by rw [hname, String.toList_ofList]
  have hlength := congrArg List.length hcs
  rw [htext, List.length_append, List.length_append] at hlength
  obtain rfl : mid = [] := List.length_eq_zero_iff.1 (by omega)
  rwa [htext]

/-- What is printed after the markers of a text have been expanded, piece by piece. -/
def expandedChunks (s : List Char) (trees : List Tree) (enum marker : String) : List Chunk :=
  treesChunks (copying s) (expandMarkers trees enum marker).2 {}

theorem textOf_expandedChunks (s : List Char) (trees : List Tree) (enum marker : String) :
    textOf (expandedChunks s trees enum marker) =
      render (expandMarkers trees enum marker).2 (some s) :=
  textOf_treesChunks _ _ _

theorem carries_expandMarkers {s : List Char} {file : Option String} {trees : List Tree}
    {enum : String} {span : Span} (h : tokenize s file = .ok trees)
    (henum : tokenize enum.toList = .ok [.ident enum span]) (marker : String) :
    ∃ ahead mid, ahead <:+ s ∧
      Carries ahead mid (expandedChunks s trees enum marker) (expandMarkers trees enum marker).2 := by
  obtain ⟨q, rest, hr, -⟩ := tokenize_reads h
  have hweaves : Weaves s file trees (expandMarkers trees enum marker).2 := by
    rw [expandMarkers, Walker.walk_snd]
    exact Walker.weaves_rewritten _ (isToken_of_tokenize henum) trees
  obtain ⟨ahead, mid, ha, -, hplaced⟩ := hweaves _ _ _ _ hr rfl
  exact ⟨ahead, mid, ha, hplaced {} rfl⟩

/-- The text of a program with its markers expanded is read as the expanded trees, with the invisible
groups dissolved, exactly if no `:` has come to stand directly in front of another. This is so as long
as no `/*` has become a comment that was none, which cannot happen if every `/*` of the source begins
a comment. -/
theorem tokenize_render_iff {s : List Char} {file : Option String} {trees : List Tree}
    {enum : String} {span : Span} (h : tokenize s file = .ok trees)
    (henum : tokenize enum.toList = .ok [.ident enum span]) (marker : String) :
    (swallows (expandedChunks s trees enum marker) = false → ∀ file',
      (ReadsBackAs (render (expandMarkers trees enum marker).2 (some s)) file'
          (dissolvedOf (expandMarkers trees enum marker).2) ↔
        fuses (expandedChunks s trees enum marker) = false)) ∧
    (CommentsClosed s → swallows (expandedChunks s trees enum marker) = false) := by
  obtain ⟨ahead, mid, ha, hcarries⟩ := carries_expandMarkers h henum marker
  refine ⟨fun hs file' => ?_, fun hc => ?_⟩
  · rw [← textOf_expandedChunks]
    exact hcarries.readsBackAs_iff hs file'
  · obtain ⟨words, vs, -, -, hm⟩ := hcarries.mirrors
    exact hm.swallows_eq_false (hc.of_suffix ha)

/-- A span in the first line of a text. -/
def Span.inFirstLine (a b : Nat) : Span :=
  ⟨none, some 1, some (a + 1), some 1, some (b + 1), some a, some b⟩

theorem tokenize_single_name : tokenize "E".toList = .ok [.ident "E" (.inFirstLine 0 1)] := by cbv

/-- What stands in the marker of `x=err!(A(B<C>=))`, which cannot be read: there is no value. -/
def valuelessContents : List Tree :=
  [.ident "A" (.inFirstLine 7 8),
    .group .paren [.ident "B" (.inFirstLine 9 10), .punct "<" (.inFirstLine 10 11),
      .ident "C" (.inFirstLine 11 12), .punct ">=" (.inFirstLine 12 14)] (.inFirstLine 8 15)]

/-- The trees of `x=err!(A(B<C>=))`. -/
def valuelessMarker : List Tree :=
  [.ident "x" (.inFirstLine 0 1), .punct "=" (.inFirstLine 1 2), .ident "err" (.inFirstLine 2 5),
    .punct "!" (.inFirstLine 5 6), .group .paren valuelessContents (.inFirstLine 6 16)]

/-- The `>=` in the marker was split while the marker was read, and is one token in the text. -/
theorem tokenize_render_valueless :
    let s := "x=err!(A(B<C>=))".toList
    tokenize s = .ok valuelessMarker ∧
      tokenize "E".toList = .ok [.ident "E" (.inFirstLine 0 1)] ∧
      swallows (expandedChunks s valuelessMarker "E" "err") = false ∧
      fuses (expandedChunks s valuelessMarker "E" "err") = false ∧
      ReadsBackAs (render (expandMarkers valuelessMarker "E" "err").2 (some s)) none
        (dissolvedOf (expandMarkers valuelessMarker "E" "err").2) := by
  have h : tokenize "x=err!(A(B<C>=))".toList = .ok valuelessMarker := by cbv
  have hparse : Variant.parse valuelessContents (.inFirstLine 6 16) =
      ⟨.error ⟨.expectedExpression (.position 0), .inFirstLine 9 14⟩,
        [.ident "A" (.inFirstLine 7 8),
          .group .paren [.ident "B" (.inFirstLine 9 10), .punct "<" (.inFirstLine 10 11),
            .ident "C" (.inFirstLine 11 12), .punct ">" (.inFirstLine 12 13),
            .punct "=" (.inFirstLine 13 14)] (.inFirstLine 8 15)]⟩ := by
    set_option maxRecDepth 2000 in cbv
  have htrees : (expandMarkers valuelessMarker "E" "err").2 =
      [.ident "x" (.inFirstLine 0 1), .punct "=" (.inFirstLine 1 2),
        Walker.inertGroup (Variant.parse valuelessContents (.inFirstLine 6 16)).stream
          (.inFirstLine 2 16)] := by
    rw [expandMarkers, Walker.walk_snd, valuelessMarker, Walker.rewritten_keep _ rfl (by simp),
      Walker.rewritten_keep _ rfl (by simp), Walker.rewritten_marker _ rfl (by decide),
      Visit.replacement_error _ (congrArg _ hparse)]
    rfl
  have hs : swallows (expandedChunks "x=err!(A(B<C>=))".toList valuelessMarker "E" "err") = false := by
    rw [expandedChunks, htrees, hparse]
    decide
  have hf : fuses (expandedChunks "x=err!(A(B<C>=))".toList valuelessMarker "E" "err") = false := by
    rw [expandedChunks, htrees, hparse]
    decide
  exact ⟨h, tokenize_single_name, hs, hf, ((tokenize_render_iff h tokenize_single_name "err").1 hs none).2 hf⟩

/-- The trees of `S { a:err!(X) }`. -/
def markerBehindColon : List Tree :=
  [.ident "S" (.inFirstLine 0 1),
    .group .brace [.ident "a" (.inFirstLine 4 5), .punct ":" (.inFirstLine 5 6),
      .ident "err" (.inFirstLine 6 9), .punct "!" (.inFirstLine 9 10),
      .group .paren [.ident "X" (.inFirstLine 11 12)] (.inFirstLine 10 13)]
      (.inFirstLine 2 15)]

/-- The trees of `/*err!(#[d="/*"]A)*/`, in which the first `/*` has no end. -/
def markerBehindOpenComment : List Tree :=
  [.punct "/" (.inFirstLine 0 1), .punct "*" (.inFirstLine 1 2), .ident "err" (.inFirstLine 2 5),
    .punct "!" (.inFirstLine 5 6),
    .group .paren [.punct "#" (.inFirstLine 7 8),
      .group .bracket [.ident "d" (.inFirstLine 9 10), .punct "=" (.inFirstLine 10 11),
        .literal .string "\"/*\"" (.inFirstLine 11 15)] (.inFirstLine 8 16),
      .ident "A" (.inFirstLine 16 17)] (.inFirstLine 6 18),
    .punct "*" (.inFirstLine 18 19), .punct "/" (.inFirstLine 19 20)]

/-- A `:` directly in front of a marker and the `::` of the replacement are read as `::` and `:`; and
a `/*` is closed when the attribute that opened another is left out. -/
theorem tokenize_render_misread :
    tokenize "E".toList = .ok [.ident "E" (.inFirstLine 0 1)] ∧
    (let s := "S \x7b a:err!(X) \x7d".toList
     tokenize s = .ok markerBehindColon ∧
       ¬ ReadsBackAs (render (expandMarkers markerBehindColon "E" "err").2 (some s)) none
         (dissolvedOf (expandMarkers markerBehindColon "E" "err").2)) ∧
    (let s := "/*err!(#[d=\"/*\"]A)*/".toList
     tokenize s = .ok markerBehindOpenComment ∧
       ¬ ReadsBackAs (render (expandMarkers markerBehindOpenComment "E" "err").2 (some s)) none
         (dissolvedOf (expandMarkers markerBehindOpenComment "E" "err").2)) := by
  refine ⟨tokenize_single_name, ?_, ?_⟩
  · have h : tokenize "S \x7b a:err!(X) \x7d".toList = .ok markerBehindColon := by cbv
    have htrees : (expandMarkers markerBehindColon "E" "err").2 =
        [.ident "S" (.inFirstLine 0 1),
          .group .brace [.ident "a" (.inFirstLine 4 5), .punct ":" (.inFirstLine 5 6),
            Walker.constructionGroup ⟨"E", "err"⟩
              ⟨⟨"X", .inFirstLine 11 12⟩, [], .unit, none, .inFirstLine 11 12⟩ (.inFirstLine 6 13)]
            (.inFirstLine 2 15)] := by
      set_option maxRecDepth 2000 in cbv
    obtain ⟨ahead, mid, -, hcarries⟩ := carries_expandMarkers h tokenize_single_name "err"
    refine ⟨h, ?_⟩
    rw [← textOf_expandedChunks, hcarries.readsBackAs_iff ?_ none] <;> rw [expandedChunks, htrees] <;>
      decide
  · have h : tokenize "/*err!(#[d=\"/*\"]A)*/".toList = .ok markerBehindOpenComment := by cbv
    have htrees : (expandMarkers markerBehindOpenComment "E" "err").2 =
        [.punct "/" (.inFirstLine 0 1), .punct "*" (.inFirstLine 1 2),
          Walker.constructionGroup ⟨"E", "err"⟩
            ⟨⟨"A", .inFirstLine 16 17⟩, [], .unit, none, .inFirstLine 16 17⟩ (.inFirstLine 2 18),
          .punct "*" (.inFirstLine 18 19), .punct "/" (.inFirstLine 19 20)] := by
      set_option maxRecDepth 2000 in cbv
    have htext : render (expandMarkers markerBehindOpenComment "E" "err").2
        (some "/*err!(#[d=\"/*\"]A)*/".toList) = "/*::core::convert::identity(E::A)*/".toList := by
      rw [htrees]
      rfl
    have hempty : tokenize "/*::core::convert::identity(E::A)*/".toList = .ok [] := by
      set_option maxRecDepth 2000 in cbv
    refine ⟨h, ?_⟩
    rw [htext, htrees]
    rintro ⟨us, vs, hus, hbare, hsplits⟩
    obtain rfl : [] = us := Except.ok.inj (hempty.symm.trans hus)
    cases vs with
    | nil => cases hsplits
    | cons v vs => simp [bareOf] at hbare

end InlineVariants
