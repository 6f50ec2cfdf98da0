import InlineVariants.Proofs.Ordering
import InlineVariants.Proofs.Pairing
import InlineVariants.Proofs.Weaving

/-!
# A rejected marker keeps its text

The contents of a marker that cannot be read are put into a call that only quotes them. By then the
reader may have split tokens in them: it has no way back, and the pieces are what is printed. Their
spans lie side by side in the span of the token (`pieces_at`), so no gap opens between them and the
contents come out as they stand in the source, whatever was split (`trees_splits`).

Main statement: a rejected marker is replaced by its own text, quoted (`render_rejected`).
-/

namespace InlineVariants

open Text Lexeme

namespace Layout

variable {s : List Char} {p q : Position} {st : State}

/-- Trees of the source in which tokens were split come out as the text they cover. -/
theorem trees_splits {file : Option String} {cs rest : List Char} {ts us : List Tree}
    (h : Reads file p cs ts q rest) (hs : Splits ts us) (hp : s.drop p.offset = cs)
    (hst : st.At p) : cs = (trees (copying s) us st).1 ++ rest := by
  induction h generalizing us st with
  | nil =>
    cases hs
    rfl
  | @leaf p q gap text mid rest cls t ts hg ht hl he _ ih =>
    have hmid := Position.drop_advance (Position.drop_advance hp)
    cases hs with
    | keep hs =>
      obtain ⟨htext, hat⟩ := tree_leaf_at file cls hst hp hg
      rw [← he] at htext hat
      rw [trees_cons, htext, List.append_assoc, List.append_assoc, ← ih hs hmid hat]
    | @pieces op span n _ us hop hs =>
      obtain ⟨rfl, hop', hspan⟩ := Lexeme.leaf_eq_punct hl he.symm
      obtain rfl : text = op.toList := by rw [hop', String.toList_ofList]
      have hstart : span.start = some ((p.advance gap).offset : Int) := by rw [hspan]; rfl
      obtain ⟨hchunks, hat⟩ := pieces_at hop hst hp hg hstart (by rw [hspan]; rfl)
      have htext := textOf_treesChunks (copying s) (anglePieces span n ++ [equalsPiece span n]) st
      rw [hchunks, textOf_append, textOf_gapChunk, textOf_pieceChunks hop] at htext
      rw [List.append_cons, trees_append, ← htext, List.append_assoc, List.append_assoc,
        ← ih hs hmid hat]
    | inside => exact absurd he.symm Reads.leaf_ne_group
  | @group p q r gap opening inner gap' closing mid rest d children ts hg ho hr hg' hc hr' ih ih' =>
    have hinner := Position.drop_advance (Position.drop_advance hp)
    have hq : s.drop q.offset = gap' ++ (closing ++ mid) := hr.drop_stop hinner
    have hmid := Position.drop_advance (Position.drop_advance hq)
    obtain ⟨ys, us, rfl, hys, hus⟩ : ∃ ys us', us = .group d ys _ :: us' ∧ Splits children ys ∧
        Splits ts us' := by
      cases hs with
      | keep hs => exact ⟨children, _, rfl, .refl _, hs⟩
      | inside hin hs => exact ⟨_, _, rfl, hin, hs⟩
    obtain ⟨taken, rfl, -⟩ := hr.exists_append
    have hin : ∀ st, st.At ((p.advance gap).advance opening) →
        (trees (copying s) ys st).1 = taken ∧ (trees (copying s) ys st).2.At q := fun st hst =>
      ⟨List.append_cancel_right (ih hys hinner hst).symm, (carries_splits hr hys hinner hst).2⟩
    obtain ⟨htext, hat⟩ := tree_group_at file hst hp hg ho hq hg' hc hin
    rw [trees_cons, htext]
    simpa using ih' hus hmid hat

/-! ## Behind an opening parenthesis that was put in -/

/-- The printer stands behind an opening parenthesis that is not in the source. -/
def State.opened : State := { last := some ⟨.opening, Delimiter.paren.opening⟩ }

theorem State.gap_opened (style : Style) (piece : Piece) (start : Option Int) :
    State.opened.gap style piece start = [] := by
  have hmade : State.opened.stop = none ∨ start = none := .inl rfl
  rcases State.opened.gap_cases style piece hmade with h | ⟨left, hleft, h⟩
  · exact h
  · cases hleft
    rw [h]
    simp [spacing, needsSpace, Delimiter.opening]

theorem State.gap_closing (style : Style) (st : State) :
    st.gap style ⟨.closing, Delimiter.paren.closing⟩ none = [] := by
  rcases st.gap_cases style ⟨.closing, Delimiter.paren.closing⟩ (.inr rfl) with h | ⟨left, -, h⟩
  · exact h
  · rw [h]
    simp [spacing, needsSpace, Delimiter.closing]

/-- What is quoted is printed between the parentheses of the call, without a gap at either end. -/
theorem render_inertGroup (us : List Tree) (span : Span) :
    render [Walker.inertGroup us span] (some s) =
      "::core::stringify!(".toList ++ ((trees (copying s) us State.opened).1 ++ [')']) := by
  have hgap : invisibleGap (copying s) {} span = none := by
    unfold invisibleGap sourceGap copying
    simp
  have hpath : trees (copying s) (absolutePathOf ["core", "stringify"] ++ [Tree.mark "!"]) {} =
      ("::core::stringify!".toList, ⟨some ⟨.punct, "!"⟩, none, false⟩) := rfl
  have hgroup : (tree (copying s) (.group .paren us Span.unknown)
      ⟨some ⟨.punct, "!"⟩, none, false⟩).1 =
      '(' :: ((trees (copying s) us State.opened).1 ++ [')']) := by
    have hopen : openEnds Span.unknown = (none, none) := rfl
    have hclose : closeEnds Span.unknown = (none, none) := rfl
    simp only [tree, emit, hopen, hclose, State.gap_closing]
    rfl
  calc render [Walker.inertGroup us span] (some s)
      = (tree (copying s) (Walker.inertGroup us span) {}).1 := by
        simp [render, trees, copying]
    _ = (trees (copying s) ((absolutePathOf ["core", "stringify"] ++ [Tree.mark "!"]) ++
          [.group .paren us Span.unknown]) {}).1 := by
        simp [Walker.inertGroup, tree, hgap]
    _ = "::core::stringify!".toList ++ '(' :: ((trees (copying s) us State.opened).1 ++ [')']) := by
        rw [trees_append, hpath, ← hgroup]
        simp [trees]
    _ = _ := by simp

/-- Trees of the source in which tokens were split come out the same behind a parenthesis. -/
theorem trees_opened {file : Option String} {cs rest : List Char} {t : Tree} {ts us : List Tree}
    (h : Reads file p cs (t :: ts) q rest) (ht : t.span.start = some (p.offset : Int))
    (hs : Splits (t :: ts) us) (hp : s.drop p.offset = cs) :
    cs = (trees (copying s) us State.opened).1 ++ rest := by
  obtain ⟨u, us, rfl, hv, hu⟩ := splits_head h hs
  have hat : State.At ⟨some default, some (p.offset : Int), false⟩ p := ⟨rfl, rfl, rfl⟩
  have hcopy := trees_splits h hs hp hat
  -- neither state puts anything in front of the first token
  obtain ⟨hsolid, hfront⟩ := front_of_isVisible (copying s) ⟨some default, some p.offset, false⟩ hv
  have hnil : s.drop p.offset = [] ++ cs := hp
  have hgap : State.gap (copying s) ⟨some default, some p.offset, false⟩ (firstPiece u)
      (some (p.offset : Int)) = [] := hat.gap_eq hnil .nil _
  rw [hu, ht, hgap] at hfront
  have hfront' := (front_of_isVisible (copying s) State.opened hv).2
  rw [State.gap_opened] at hfront'
  rw [trees_eq_front _ _ _ hsolid, hfront] at hcopy
  rwa [trees_eq_front _ _ _ hsolid, hfront']

theorem trees_opened_eq_slice {file : Option String} {cs rest : List Char} {t : Tree}
    {ts us : List Tree} (h : Reads file p cs (t :: ts) q rest) (hs : Splits (t :: ts) us)
    (hp : s.drop p.offset = cs) :
    ∃ a : Nat, t.span.start = some (a : Int) ∧ a ≤ q.offset ∧
      (trees (copying s) us State.opened).1 = slice s a q.offset := by
  obtain ⟨gap, cs', rfl, hg, hstart, h'⟩ := h.head_start
  have hp' := Position.drop_advance hp
  have hcopy := trees_opened h' hstart hs hp'
  obtain ⟨taken, htaken, rfl⟩ := h'.exists_append
  have hprinted : (trees (copying s) us State.opened).1 = taken :=
    List.append_cancel_right (hcopy.symm.trans htaken)
  refine ⟨_, hstart, h'.offset_le, ?_⟩
  rw [hprinted, slice_natCast, hp', htaken, Position.advance_offset, Nat.add_sub_cancel_left,
    List.take_left]

end Layout

/-! ## Where a replacement goes -/

theorem Tree.Occurs.of_subset {t : Tree} {ts us : List Tree} (h : t.Occurs ts) (hs : ts ⊆ us) :
    t.Occurs us := by
  cases h with
  | here ht => exact .here (hs ht)
  | inside hg ht => exact .inside (hs hg) ht

theorem subset_separated {item : List Tree} (sep : String) {items : List (List Tree)}
    (h : item ∈ items) : item ⊆ separated sep items := by
  fun_induction separated sep items with
  | case1 => cases h
  | case2 first =>
    obtain rfl := List.mem_singleton.1 h
    exact List.Subset.refl _
  | case3 first rest _ ih =>
    rcases List.mem_cons.1 h with rfl | h
    · exact List.subset_append_left ..
    · exact List.Subset.trans (ih h)
        (List.Subset.trans (List.subset_cons_self ..) (List.subset_append_right ..))

/-- What stands in a value stands in the construction. -/
theorem Fields.occurs_constructed {t : Tree} {value : List Tree} {fields : Fields}
    (h : value ∈ fields.values) (ht : t.Occurs value) : t.Occurs fields.constructed := by
  cases fields with
  | unit => cases h
  | named fs =>
    obtain ⟨f, hf, rfl⟩ := List.mem_map.1 h
    have hentry : t.Occurs f.constructed :=
      ht.of_subset (List.Subset.trans (List.subset_cons_self ..) (List.subset_cons_self ..))
    exact .inside (.head _) (hentry.of_subset (subset_separated "," (List.mem_map_of_mem hf)))
  | unnamed fs => exact .inside (.head _) (ht.of_subset (subset_separated "," h))

namespace Walker

variable (w : Walker)

/-- The tree is in what a walk gives: in the rewritten list, or in a declaration. -/
def Emits (before : Option Tree) (ts : List Tree) (t : Tree) : Prop :=
  t.Occurs (w.rewritten before ts) ∨
    ∃ x ∈ w.visits before ts, ∃ v, x.definition? w = some v ∧ t.Occurs v.declaration.trees

variable {w}

theorem Emits.mono {before before' : Option Tree} {ts ts' : List Tree} {t : Tree}
    (h : w.Emits before ts t)
    (hr : t.Occurs (w.rewritten before ts) → t.Occurs (w.rewritten before' ts'))
    (hv : w.visits before ts ⊆ w.visits before' ts') : w.Emits before' ts' t := by
  rcases h with h | ⟨x, hx, h⟩
  · exact .inl (hr h)
  · exact .inr ⟨x, hv hx, h⟩

/-- What stands in a value of a marker is put in for the marker, what stands in its discriminant goes
into its declaration. -/
theorem emits_of_payload {x : Visit} {kind : PayloadKind} {payload : List Tree} {t : Tree}
    (hp : (kind, payload) ∈ x.payloads) (ht : t.Occurs (w.rewritten none payload)) :
    t.Occurs [x.replacement w] ∨ ∃ v, x.definition? w = some v ∧ t.Occurs v.declaration.trees := by
  unfold Visit.payloads at hp
  split at hp
  · rename_i v hv
    have hparsed := Visit.parsed?_eq_some.1 hv
    rw [← w.walk_snd {}] at ht
    rcases List.mem_append.1 hp with hp | hp
    · obtain ⟨value, hvalue, heq⟩ := List.mem_map.1 hp
      cases heq
      left
      rw [Visit.replacement_ok w hparsed]
      have hfields : t.Occurs (v.mapPayloads fun value => (w.walk {} value).2).fields.constructed := by
        refine Fields.occurs_constructed ?_ ht
        rw [Variant.mapPayloads, Fields.values_mapValues]
        exact List.mem_map_of_mem hvalue
      refine .inside (.head _) (.inside (List.mem_append_right _ (.head _)) ?_)
      exact hfields.of_subset
        (List.Subset.trans (List.subset_cons_self ..) (List.subset_append_right ..))
    · obtain ⟨value, hvalue, heq⟩ := List.mem_map.1 hp
      cases heq
      right
      refine ⟨_, by rw [Visit.definition?, hv]; rfl, ?_⟩
      have hdeclared : (v.mapPayloads fun value => (w.walk {} value).2).declaredDiscriminant =
          Tree.mark "=" :: (w.walk {} payload).2 := by
        simp [Variant.mapPayloads, Variant.declaredDiscriminant, Option.mem_toList.1 hvalue]
      refine ht.of_subset (List.Subset.trans ?_ (List.subset_append_right ..))
      rw [hdeclared]
      exact List.subset_cons_self ..
  · cases hp

/-- What is put in for a marker is in what the walk gives. -/
theorem emits_replacement (before : Option Tree) (ts : List Tree) :
    ∀ x ∈ w.visits before ts, w.Emits before ts (x.replacement w) := by
  induction before, ts using w.walk_induction with
  | nil before =>
    rw [visits]
    exact List.forall_mem_nil _
  | marker before span opSpan d contents groupSpan rest hb hd ihp ih =>
    rw [w.visits_marker hb hd]
    refine List.forall_mem_cons.2 ⟨?_, List.forall_mem_append.2 ⟨fun z hz => ?_, fun z hz => ?_⟩⟩
    · rw [Emits, w.rewritten_marker hb hd]
      exact .inl (.here (.head _))
    · obtain ⟨⟨kind, payload⟩, hp, hz⟩ := List.mem_flatMap.1 hz
      obtain ⟨y, hy, rfl⟩ := List.mem_map.1 hz
      obtain ⟨v, hv, hpv⟩ := Visit.exists_of_mem_payloads hp
      rw [Emits, w.rewritten_marker hb hd, w.visits_marker hb hd]
      rcases ihp v hv payload hpv y hy with h | ⟨y', hy', h⟩
      · rcases emits_of_payload hp h with h | h
        · exact .inl (h.of_subset (List.cons_subset_cons _ (List.nil_subset _)))
        · exact .inr ⟨_, .head _, h⟩
      · refine .inr ⟨y'.within kind, List.mem_cons_of_mem _ (List.mem_append_left _ ?_), h⟩
        exact List.mem_flatMap.2 ⟨_, hp, List.mem_map_of_mem hy'⟩
    · refine (ih z hz).mono (fun h => ?_) ?_
      · rw [w.rewritten_marker hb hd]
        exact h.of_subset (List.subset_cons_self ..)
      · rw [w.visits_marker hb hd]
        exact List.Subset.trans (List.subset_append_right ..) (List.subset_cons_self ..)
  | group before d contents span rest hd ihc ih =>
    rw [w.visits_group hd]
    refine List.forall_mem_append.2 ⟨fun x hx => ?_, fun x hx => ?_⟩
    · refine (ihc x hx).mono (fun h => ?_) ?_
      · rw [w.rewritten_group hd]
        exact .inside (.head _) h
      · rw [w.visits_group hd]
        exact List.subset_append_left ..
    · refine (ih x hx).mono (fun h => ?_) ?_
      · rw [w.rewritten_group hd]
        exact h.of_subset (List.subset_cons_self ..)
      · rw [w.visits_group hd]
        exact List.subset_append_right ..
  | keep before t rest hm ht ih =>
    rw [w.visits_keep hm ht]
    intro x hx
    refine (ih x hx).mono (fun h => ?_) ?_
    · rw [w.rewritten_keep hm ht]
      exact h.of_subset (List.subset_cons_self ..)
    · rw [w.visits_keep hm ht]
      exact List.Subset.refl _

theorem Emits.walk {trees : List Tree} {t : Tree} (h : w.Emits none trees t) (c : Collected) :
    t.Occurs (w.walk c trees).2 ∨ ∃ d ∈ (w.walk c trees).1.declarations, t.Occurs d.trees := by
  rw [w.walk_snd, w.walk_eq, w.walkLevel_declarations]
  rcases h with h | ⟨x, hx, v, hv, h⟩
  · exact .inl h
  · refine .inr ⟨v.declaration, List.mem_append_right _ (List.mem_map_of_mem ?_), h⟩
    exact List.mem_filterMap.2 ⟨x, hx, hv⟩

end Walker

/-! ## The text of a rejected marker -/

/-- The contents of a marker are read from the text. -/
theorem Visit.StandsIn.occurs {w : Walker} {x : Visit} {ts : List Tree} (h : x.StandsIn w ts) :
    ∃ d, (Tree.group d x.contents x.groupSpan).Occurs ts := by
  induction h with
  | @here pre post opSpan d _ => exact ⟨d, .here (by simp)⟩
  | inside hmem _ ih =>
    obtain ⟨d, h⟩ := ih
    exact ⟨d, .inside hmem h⟩

/-- The replacement of a marker that cannot be read is the quoted text from the first to behind the
last token of its contents, also when tokens in them had been split by then. -/
theorem render_rejected {s : List Char} {file : Option String} {trees : List Tree}
    (h : tokenize s file = .ok trees) (w : Walker) (c : Collected) {x : Visit}
    (hx : x ∈ w.visits none trees) {e : GrammarError}
    (he : (Variant.parse x.contents x.groupSpan).result = .error e) :
    ((x.replacement w).Occurs (w.walk c trees).2 ∨
      ∃ d ∈ (w.walk c trees).1.declarations, (x.replacement w).Occurs d.trees) ∧
    (x.contents = [] → render [x.replacement w] (some s) = "::core::stringify!()".toList) ∧
    ∀ first last, x.contents.head? = some first → x.contents.getLast? = some last →
      ∃ a b : Nat, first.span.start = some (a : Int) ∧ last.span.stop = some (b : Int) ∧
        a ≤ b ∧ b ≤ s.length ∧
        render [x.replacement w] (some s) =
          "::core::stringify!(".toList ++ (slice s a b ++ ")".toList) := by
  obtain ⟨q, rest, hr, -⟩ := tokenize_reads h
  obtain ⟨d, hocc⟩ := (w.visits_standsIn none trees x hx).occurs
  obtain ⟨p', cs', q', rest', hgroup, hp'⟩ := hr.occurs hocc rfl
  obtain ⟨gap, opening, inner, q₁, gap', closing, mid, rfl, -, -, hin, -⟩ := hgroup.group_inv
  have hinner := Position.drop_advance (Position.drop_advance hp')
  have hsplits := (Variant.parse_spec x.contents x.groupSpan).1
  refine ⟨(w.emits_replacement none trees x hx).walk c, fun hnil => ?_,
    fun first last hfirst hlast => ?_⟩
  · rw [Visit.replacement_error w he, Layout.render_inertGroup]
    rw [hnil] at hsplits ⊢
    generalize (Variant.parse [] x.groupSpan).stream = us at hsplits ⊢
    cases hsplits
    rfl
  · obtain ⟨ts, hts⟩ := List.head?_eq_some_iff.1 hfirst
    have hstop := hin.last_stop hlast
    rw [hts] at hin
    obtain ⟨a, hstart, hle, hslice⟩ :=
      Layout.trees_opened_eq_slice hin (by rwa [← hts]) hinner
    refine ⟨a, q₁.offset, hstart, hstop, hle, hin.offset_le_length hinner, ?_⟩
    rw [Visit.replacement_error w he, Layout.render_inertGroup, hslice]
    rfl

/-- Both kinds of token are split before the last entry turns out to have no value. -/
theorem render_rejected_split :
    let s := "err!( A(V<u>= 1,V<V<u>>=2,/**/b) )".toList
    let w : Walker := ⟨"E", "err"⟩
    ∃ trees x e, tokenize s = .ok trees ∧ x ∈ w.visits none trees ∧
      (Variant.parse x.contents x.groupSpan).result = .error e ∧
      streamWords x.contents = ["A", "(", "V", "<", "u", ">=", "1", ",", "V", "<", "V", "<", "u",
        ">>=", "2", ",", "b", ")"] ∧
      streamWords (Variant.parse x.contents x.groupSpan).stream = ["A", "(", "V", "<", "u", ">", "=",
        "1", ",", "V", "<", "V", "<", "u", ">", ">", "=", "2", ",", "b", ")"] ∧
      render [x.replacement w] (some s) =
        "::core::stringify!(A(V<u>= 1,V<V<u>>=2,/**/b))".toList := by
  intro s w
  let on (a b : Nat) : Span :=
    ⟨none, some 1, some (a + 1 : Nat), some 1, some (b + 1 : Nat), some a, some b⟩
  let contents : List Tree := [.ident "A" (on 6 7), .group .paren
    [.ident "V" (on 8 9), .punct "<" (on 9 10), .ident "u" (on 10 11), .punct ">=" (on 11 13),
      .literal .number "1" (on 14 15), .punct "," (on 15 16), .ident "V" (on 16 17),
      .punct "<" (on 17 18), .ident "V" (on 18 19), .punct "<" (on 19 20), .ident "u" (on 20 21),
      .punct ">>=" (on 21 24), .literal .number "2" (on 24 25), .punct "," (on 25 26),
      .ident "b" (on 30 31)] (on 7 32)]
  have htrees : tokenize "err!( A(V<u>= 1,V<V<u>>=2,/**/b) )".toList =
      .ok [.ident "err" (on 0 3), .punct "!" (on 3 4), .group .paren contents (on 4 34)] := by
    cbv
  have hx : (⟨[], on 0 3, contents, on 4 34⟩ : Visit) ∈ w.visits none
      [.ident "err" (on 0 3), .punct "!" (on 3 4), .group .paren contents (on 4 34)] := by
    rw [w.visits_marker rfl (by decide)]
    exact .head _
  have hbad : (Variant.parse contents (on 4 34)).result.isOk = false := by decide +kernel
  have hwords : streamWords (Variant.parse contents (on 4 34)).stream = ["A", "(", "V", "<", "u", ">",
      "=", "1", ",", "V", "<", "V", "<", "u", ">", ">", "=", "2", ",", "b", ")"] := by decide +kernel
  obtain ⟨e, he⟩ : ∃ e, (Variant.parse contents (on 4 34)).result = .error e := by
    cases hr : (Variant.parse contents (on 4 34)).result with
    | ok v =>
      rw [hr] at hbad
      cases hbad
    | error e => exact ⟨e, rfl⟩
  obtain ⟨a, b, ha, hb, -, -, htext⟩ := (render_rejected htrees w {} hx he).2.2 _ _ rfl rfl
  cases ha
  cases hb
  exact ⟨_, _, _, htrees, hx, he, rfl, hwords, htext⟩

end InlineVariants
