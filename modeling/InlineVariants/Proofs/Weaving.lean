import InlineVariants.Proofs.Mirroring

/-!
# Source trees between made-up ones

A replacement takes trees out of the contents of its marker and puts marks, brackets and names
around them. What is put in is printed in the same way wherever the printer stands (`Made`), and
source trees are printed behind it as they would be in their place, with at most a blank in front
(`Placed`). `Weaves` says that trees are taken from a list in this way, wherever the list is read;
entries, fields and whole constructions are then put together without another look at the text.

Main statements: what a construction shows of a definition is taken from the contents of its marker
(`Variant.weaves_construction`), and a replacement is made up around it (`Weaves.made_construction`,
`Weaves.made_inert`).
-/

namespace InlineVariants

open Text Lexeme

namespace Layout

variable {s : List Char} {st : State} {p : Position}

/-! ## Gaps that no source decides -/

theorem State.gap_cases (style : Style) (st : State) (piece : Piece) {start : Option Int}
    (h : st.stop = none ∨ start = none) :
    st.gap style piece start = [] ∨
      ∃ left, st.last = some left ∧ st.gap style piece start = spacing left piece := by
  have hsource : sourceGap style.source st.stop start = none := by
    unfold sourceGap
    rcases h with h | h <;> rw [h] <;> cases style.source <;> simp
  unfold State.gap
  split
  · exact .inl rfl
  · cases st.last with
    | none => exact .inl rfl
    | some left => exact .inr ⟨left, rfl, by rw [hsource]⟩

theorem State.gap_loose (style : Style) (st : State) (piece : Piece) {start : Option Int}
    (h : st.stop = none ∨ start = none) : Loose (st.gap style piece start) := by
  rcases st.gap_cases style piece h with h | ⟨left, -, h⟩
  · exact .inl h
  · rw [h]
    unfold spacing
    split
    · exact .inr rfl
    · exact .inl rfl

theorem front_loose (style : Style) (hst : st.stop = none) (t : Tree) :
    Loose (front style st t) := by
  unfold front
  split
  · have hnone (span : Span) : invisibleGap style st span = none := by
      unfold invisibleGap sourceGap
      rw [hst]
      cases style.source <;> simp
    rw [hnone, Option.getD_none]
    exact State.gap_loose _ _ _ (.inl rfl)
  · exact st.gap_loose _ _ (.inl hst)

/-! ## Chunks of what is put in -/

section

variable (style : Style) (st : State) (us : List Tree)

theorem treesChunks_mark (op : String) :
    treesChunks style (Tree.mark op :: us) st =
      gapChunk (st.gap style ⟨.punct, op⟩ none) ++
        .token ⟨.punct, op⟩ :: treesChunks style us ⟨some ⟨.punct, op⟩, none, false⟩ := by
  simp [treesChunks, treeChunks, emitChunks, tree, emit, Tree.mark, Span.unknown]

theorem treesChunks_word (name : String) :
    treesChunks style (Tree.word name :: us) st =
      gapChunk (st.gap style ⟨.ident, name⟩ none) ++
        .token ⟨.ident, name⟩ :: treesChunks style us ⟨some ⟨.ident, name⟩, none, false⟩ := by
  simp [treesChunks, treeChunks, emitChunks, tree, emit, Tree.word, Span.unknown]

theorem treesChunks_group {d : Delimiter} (hd : d ≠ .invisible) :
    ∃ inner : State, treesChunks style [.group d us Span.unknown] st =
      gapChunk (st.gap style ⟨.opening, d.opening⟩ none) ++
        .token ⟨.opening, d.opening⟩ ::
          (treesChunks style us ⟨some ⟨.opening, d.opening⟩, none, false⟩ ++
            (gapChunk (inner.gap style ⟨.closing, d.closing⟩ none) ++
              [.token ⟨.closing, d.closing⟩])) := by
  have hopen : openEnds Span.unknown = (none, none) := rfl
  have hclose : closeEnds Span.unknown = (none, none) := rfl
  cases d <;> first
    | exact absurd rfl hd
    | exact ⟨_, by simp [treesChunks, treeChunks, emitChunks, emit, hopen, hclose]; rfl⟩

end

section

variable {file : Option String} {p q : Position} {cs rest : List Char} {t : Tree} {ts us : List Tree}

/-- Trees in which tokens were split begin with a token of their own, where they began. -/
theorem splits_head (h : Reads file p cs (t :: ts) q rest) (hs : Splits (t :: ts) us) :
    ∃ u us', us = u :: us' ∧ isVisible u = true ∧ firstStart u = t.span.start := by
  obtain ⟨hv, hfirst⟩ := isVisible_of_reads h
  cases hs with
  | keep => exact ⟨_, _, rfl, hv, hfirst⟩
  | inside => exact ⟨_, _, rfl, hv, hfirst⟩
  | @pieces op span n _ us hop _ =>
    obtain ⟨gap, -, -, -, hstart, -⟩ := h.head_start
    obtain ⟨q', mid, hr, -⟩ := h.cons_inv
    replace hstart : span.start = some ((p.advance gap).offset : Int) := hstart
    have hstop : span.stop = some (q'.offset : Int) := hr.last_stop rfl
    have hchar : (span.charAt 0).start = span.start := by
      simp [Span.charAt, hstart, hstop]
    rcases gluedAngles?_cases hop with ⟨-, rfl⟩ | ⟨-, rfl⟩ <;> exact ⟨_, _, rfl, rfl, hchar⟩

theorem splits_beginsAt (h : Reads file p cs (t :: ts) q rest)
    (ht : t.span.start = some (p.offset : Int)) (hs : Splits (t :: ts) us) (s : List Char) :
    BeginsAt s p us := by
  obtain ⟨u, us', rfl, hv, hu⟩ := splits_head h hs
  exact beginsAt_of_isVisible s us' hv (hu.trans ht)

end

end Layout

open Layout

/-! ## Placed and made-up trees -/

section

variable {s old mid rest : List Char} {us vs : List Tree}

/-- The trees are taken from the old text up to its rest, wherever they are printed behind something
that is put in. -/
def Placed (s old rest : List Char) (us : List Tree) : Prop :=
  ∀ st : State, st.stop = none → Carries old rest (treesChunks (copying s) us st) us

/-- The trees begin with something that is put in, wherever they are printed. -/
def Made (s old rest : List Char) (us : List Tree) : Prop :=
  ∀ (st : State) (before : List Char), old <:+ before →
    Carries before rest (treesChunks (copying s) us st) us ∧
      BeginsInert (treesChunks (copying s) us st)

theorem Placed.of_beginsAt {p : Position} (hb : BeginsAt s p us)
    (h : ∀ st : State, st.At p → Carries old rest (treesChunks (copying s) us st) us) :
    Placed s old rest us := by
  intro st hst
  obtain ⟨u, us, rfl, hsolid, hfront⟩ := hb
  have hat : State.At ⟨some default, some (p.offset : Int), false⟩ p := ⟨rfl, rfl, rfl⟩
  have := h _ hat
  rw [treesChunks_eq_front _ _ _ hsolid, hfront _ hat, gapChunk_nil, List.nil_append] at this
  rw [treesChunks_eq_front _ st _ hsolid]
  exact this.loose (front_loose _ hst u)

theorem Placed.append (h : Placed s old mid us) (h' : Made s mid rest vs) :
    Placed s old rest (us ++ vs) := by
  intro st hst
  rw [treesChunks_append]
  exact (h st hst).append (h' _ mid (List.suffix_refl _)).1

namespace Made

theorem placed (h : Made s old rest us) : Placed s old rest us :=
  fun st _ => (h st old (List.suffix_refl _)).1

theorem mono (h : Made s old rest us) {before : List Char} (hs : old <:+ before) :
    Made s before rest us :=
  fun st before' hs' => h st before' (hs.trans hs')

theorem mark {op : String} (hop : (op, .punct) ∈ madeMarks)
    (hbang : op = "!" → Made s mid rest us) (hs : mid <:+ old) (h : Placed s mid rest us) :
    Made s old rest (Tree.mark op :: us) := by
  intro st before hb
  rw [treesChunks_mark]
  have hg := st.gap_loose (copying s) ⟨.punct, op⟩ (.inr rfl)
  refine ⟨.loose hg (.mark hop (fun h => ?_) (hs.trans hb) (h _ rfl)), .loose hg (.mark hop _ _)⟩
  exact (hbang h _ mid (List.suffix_refl _)).2

theorem step {name : String} (hname : IsToken .name name.toList []) (h : Made s old rest us) :
    Made s old rest (Tree.mark "::" :: Tree.word name :: us) := by
  intro st before hb
  rw [treesChunks_mark, treesChunks_word]
  have hop : ("::", LexemeClass.punct) ∈ madeMarks := by decide
  have hg := st.gap_loose (copying s) ⟨.punct, "::"⟩ (.inr rfl)
  obtain ⟨hcarries, hi⟩ := h ⟨some ⟨.ident, name⟩, none, false⟩ before hb
  exact ⟨.loose hg (.step hname (State.gap_loose _ _ _ (.inr rfl)) hi hcarries),
    .loose hg (.mark hop _ _)⟩

theorem group {d : Delimiter} (hd : d = .paren ∨ d = .brace) {ahead : List Char}
    (hs : ahead <:+ old) (hr : rest <:+ mid) (h : Placed s ahead mid us) :
    Made s old rest [.group d us Span.unknown] := by
  intro st before hb
  obtain ⟨hop, hne⟩ : (d.opening, .opening d) ∈ madeMarks ∧ d ≠ .invisible := by
    rcases hd with rfl | rfl <;> decide
  obtain ⟨inner, hchunks⟩ := treesChunks_group (copying s) st us hne
  rw [hchunks]
  have hg := st.gap_loose (copying s) ⟨.opening, d.opening⟩ (.inr rfl)
  exact ⟨.loose hg (.enclosed hd (hs.trans hb) (inner.gap_loose _ _ (.inr rfl)) hr (h _ rfl)),
    .loose hg (.mark hop _ _)⟩

theorem group_name {name : String} (hname : IsToken .name name.toList []) (hr : rest <:+ mid)
    (h : Made s old mid us) :
    Made s old rest [.group .paren (Tree.word name :: us) Span.unknown] := by
  intro st before hb
  obtain ⟨inner, hchunks⟩ :=
    treesChunks_group (copying s) st (Tree.word name :: us) (by decide : Delimiter.paren ≠ _)
  rw [hchunks, treesChunks_word, List.append_assoc, List.cons_append]
  have hop : (Delimiter.paren.opening, LexemeClass.opening .paren) ∈ madeMarks := by decide
  have hg := st.gap_loose (copying s) ⟨.opening, Delimiter.paren.opening⟩ (.inr rfl)
  obtain ⟨hcarries, hi⟩ := h ⟨some ⟨.ident, name⟩, none, false⟩ before hb
  exact ⟨.loose hg (.enclosed_name hname (State.gap_loose _ _ _ (.inr rfl)) hi
    (inner.gap_loose _ _ (.inr rfl)) hr hcarries), .loose hg (.mark hop _ _)⟩

end Made

end

/-! ## Taking trees from a list -/

/-- The trees are taken from a list, in its order, wherever the list is read. -/
def Weaves (s : List Char) (file : Option String) (ts us : List Tree) : Prop :=
  ∀ p q cs rest, Reads file p cs ts q rest → s.drop p.offset = cs →
    ∃ ahead mid, ahead <:+ cs ∧ rest <:+ mid ∧ Placed s ahead mid us

namespace Weaves

variable {s : List Char} {file : Option String} {ts ts' us us' : List Tree}

theorem nil : Weaves s file ts [] :=
  fun _ _ cs _ hr _ => ⟨cs, cs, List.suffix_refl _, hr.rest_suffix, fun _ _ => .nil⟩

/-- Trees that are carried in their place are taken from a list. -/
theorem of_carries (hbegins : ∀ p q cs rest t ts', ts = t :: ts' → Reads file p cs ts q rest →
      t.span.start = some (p.offset : Int) → BeginsAt s p us)
    (hcarries : ∀ p q cs rest st, Reads file p cs ts q rest → s.drop p.offset = cs → st.At p →
      Carries cs rest (treesChunks (copying s) us st) us) (hts : ts ≠ []) : Weaves s file ts us := by
  intro p q cs rest hr hp
  obtain ⟨t, ts', rfl⟩ := List.exists_cons_of_ne_nil hts
  obtain ⟨gap, cs', rfl, -, hstart, hr⟩ := hr.head_start
  have hp' := Position.drop_advance hp
  exact ⟨cs', rest, List.suffix_append _ _, List.suffix_refl _,
    .of_beginsAt (hbegins _ _ _ _ t ts' rfl hr hstart) fun st hst =>
      hcarries _ _ _ _ st hr hp' hst⟩

/-- Trees of the source in which tokens were split. -/
theorem of_splits (h : Splits ts us) : Weaves s file ts us := by
  by_cases hts : ts = []
  · subst hts
    cases h
    exact .nil
  · refine .of_carries ?_ (fun p q cs rest st hr hp hst => (carries_splits hr h hp hst).1) hts
    rintro p q cs rest t ts' rfl hr ht
    exact splits_beginsAt hr ht h s

theorem of_part (h : Weaves s file ts us) (hi : ts <:+: ts') : Weaves s file ts' us := by
  intro p q cs rest hr hp
  obtain ⟨pre, post, rfl⟩ := hi
  obtain ⟨q₁, mid₁, hpost, hr₁⟩ := hr.append_inv
  obtain ⟨p₁, cs₁, hpre, hr₂⟩ := hpost.append_inv
  obtain ⟨ahead, mid, ha, hm, hplaced⟩ := h _ _ _ _ hr₂ (hpre.drop_stop hp)
  exact ⟨ahead, mid, ha.trans hpre.rest_suffix, hr₁.rest_suffix.trans hm, hplaced⟩

theorem inside {d : Delimiter} {span : Span} (h : Weaves s file ts us) :
    Weaves s file (.group d ts span :: ts') us := by
  intro p q cs rest hr hp
  obtain ⟨gap, opening, inner, q', gap', closing, mid', rfl, -, -, hin, -, -, -, hr'⟩ :=
    hr.group_inv
  obtain ⟨ahead, mid, ha, hm, hplaced⟩ :=
    h _ _ _ _ hin (Position.drop_advance (Position.drop_advance hp))
  refine ⟨ahead, mid, ?_, ?_, hplaced⟩
  · exact ha.trans ((List.suffix_append _ _).trans (List.suffix_append _ _))
  · exact hr'.rest_suffix.trans (((List.suffix_append _ _).trans (List.suffix_append _ _)).trans hm)

/-- Taken trees with something made up from the rest of the list behind them. -/
theorem append (h : Weaves s file ts us) {made : List Tree}
    (h' : ∀ p q cs rest, Reads file p cs ts' q rest → s.drop p.offset = cs →
      ∃ mid, rest <:+ mid ∧ Made s cs mid made) : Weaves s file (ts ++ ts') (us ++ made) := by
  intro p q cs rest hr hp
  obtain ⟨q₁, mid₁, hr₁, hr₂⟩ := hr.append_inv
  obtain ⟨ahead, mid, ha, hm, hplaced⟩ := h _ _ _ _ hr₁ hp
  obtain ⟨mid', hm', hmade⟩ := h' _ _ _ _ hr₂ (hr₁.drop_stop hp)
  exact ⟨ahead, mid', ha, hm', hplaced.append (hmade.mono hm)⟩

theorem mark {op : String} (hop : (op, .punct) ∈ madeMarks) (hbang : op ≠ "!")
    (h : Weaves s file ts us) (h' : Weaves s file ts' us') :
    Weaves s file (ts ++ ts') (us ++ Tree.mark op :: us') := by
  refine h.append fun p q cs rest hr hp => ?_
  obtain ⟨ahead, mid, ha, hm, hplaced⟩ := h' _ _ _ _ hr hp
  exact ⟨mid, hm, .mark hop (fun h => absurd h hbang) ha hplaced⟩

theorem group {d : Delimiter} (hd : d = .paren ∨ d = .brace) (h : Weaves s file ts us)
    (h' : Weaves s file ts' us') :
    Weaves s file (ts ++ ts') (us ++ [.group d us' Span.unknown]) := by
  refine h.append fun p q cs rest hr hp => ?_
  obtain ⟨ahead, mid, ha, hm, hplaced⟩ := h' _ _ _ _ hr hp
  exact ⟨rest, List.suffix_refl _, .group hd ha hm hplaced⟩

/-- Entries that are taken from stretches of a list, with commas between them. -/
theorem separated {α : Type} {segments : α → List (List Tree)} {entry : α → List Tree}
    {items : List α} (hs : Segments (items.flatMap segments) ts)
    (hentry : ∀ a ∈ items, ∀ ts, Segments (segments a) ts → Weaves s file ts (entry a)) :
    Weaves s file ts (separated "," (items.map entry)) := by
  induction items generalizing ts with
  | nil => exact .nil
  | cons a items ih =>
    rw [List.flatMap_cons] at hs
    obtain ⟨us, vs, rfl, hus, hvs⟩ := hs.append_inv
    have ha := hentry a List.mem_cons_self us hus
    have ih := ih hvs fun b hb => hentry b (List.mem_cons_of_mem _ hb)
    cases items with
    | nil => exact ha.of_part (List.prefix_append us vs).isInfix
    | cons b items => exact ha.mark (by decide) (by decide) ih

end Weaves

/-! ## Definitions -/

section

variable {s : List Char} {file : Option String} {f : List Tree → List Tree}

theorem weaves_name (name : Name) : Weaves s file [name.tree] [name.tree] := .of_splits (.refl _)

theorem NamedField.weaves_constructed (field : NamedField) {ts : List Tree}
    (hs : Segments ([[field.name.tree]] ++ [field.value]) ts)
    (hf : Weaves s file field.value (f field.value)) :
    Weaves s file ts (constructed { field with value := f field.value }) := by
  obtain ⟨us, vs, rfl, hus, hvs⟩ := hs.append_inv
  have hname : Weaves s file us [field.name.tree] :=
    (weaves_name field.name).of_part (hus.isInfix List.mem_cons_self)
  exact hname.mark (by decide) (by decide) (hf.of_part (hvs.isInfix List.mem_cons_self))

theorem Fields.weaves_constructed {fields : Fields} {rest ahead : List Tree}
    (h : fields.TakenFrom rest ahead) (name : Name)
    (hf : ∀ value ∈ fields.values, Weaves s file value (f value)) :
    Weaves s file (name.tree :: ahead) (name.tree :: (fields.mapValues f).constructed) := by
  cases fields with
  | unit => exact (weaves_name name).of_part (List.prefix_append [_] ahead).isInfix
  | named fs =>
    obtain ⟨inner, span, rfl, -, hs⟩ := h
    have hentries := Weaves.separated hs fun field hfield ts hts =>
      field.weaves_constructed hts (hf field.value (List.mem_map_of_mem hfield))
    have hgroup : Weaves s file (.group .brace inner span :: rest) _ := hentries.inside
    have := (weaves_name name).group (.inr rfl) hgroup
    simpa [mapValues, constructed, listGroup, Function.comp_def] using this
  | unnamed fs =>
    obtain ⟨inner, span, rfl, -, hs⟩ := h
    have hentries := Weaves.separated hs fun field hfield ts hts =>
      (hf field.value (List.mem_map_of_mem hfield)).of_part (hts.isInfix List.mem_cons_self)
    have hgroup : Weaves s file (.group .paren inner span :: rest) _ := hentries.inside
    have := (weaves_name name).group (.inl rfl) hgroup
    simpa [mapValues, constructed, listGroup, Function.comp_def] using this

/-- What a construction shows of a definition is taken from the contents of its marker. -/
theorem Variant.weaves_construction {v : Variant} {contents : List Tree} (h : v.TakenFrom contents)
    (hf : ∀ value ∈ v.payloads, Weaves s file value (f value)) :
    Weaves s file contents (v.name.tree :: (v.fields.mapValues f).constructed) := by
  obtain ⟨before, ahead, rest, rfl, hfields, -⟩ := h
  have hvalues : ∀ value ∈ v.fields.values, Weaves s file value (f value) :=
    fun value hv => hf value (List.mem_append_left _ hv)
  exact (Fields.weaves_constructed hfields v.name hvalues).of_part
    (List.suffix_append _ _).isInfix

end

/-! ## Replacements -/

section

variable {s inner mid after : List Char} {file : Option String} {a b : Position}
  {contents us : List Tree}

/-- The replacement of a marker that can be read. -/
theorem Weaves.made_construction {enum : String} (henum : IsToken .name enum.toList [])
    (h : Weaves s file contents us) (hr : Reads file a inner contents b after)
    (ha : s.drop a.offset = inner) (hmid : mid <:+ after) :
    Made s inner mid (absolutePathOf ["core", "convert", "identity"] ++
      [.group .paren (Tree.word enum :: Tree.mark "::" :: us) Span.unknown]) := by
  obtain ⟨ahead, mid', hahead, hafter, hplaced⟩ := h _ _ _ _ hr ha
  have hpath : Made s inner mid' (Tree.mark "::" :: us) :=
    .mark (by decide) (by simp) hahead hplaced
  exact .step (by decide) (.step (by decide) (.step (by decide)
    (.group_name henum (hmid.trans hafter) hpath)))

/-- The replacement of a marker that cannot be read. -/
theorem Weaves.made_inert (h : Weaves s file contents us) (hr : Reads file a inner contents b after)
    (ha : s.drop a.offset = inner) (hmid : mid <:+ after) :
    Made s inner mid (absolutePathOf ["core", "stringify"] ++
      [Tree.mark "!", .group .paren us Span.unknown]) := by
  obtain ⟨ahead, mid', hahead, hafter, hplaced⟩ := h _ _ _ _ hr ha
  have hgroup : Made s inner mid [.group .paren us Span.unknown] :=
    .group (.inl rfl) hahead (hmid.trans hafter) hplaced
  have hbang : Made s inner mid [Tree.mark "!", .group .paren us Span.unknown] :=
    .mark (by decide) (fun _ => hgroup) (List.suffix_refl _) hgroup.placed
  exact .step (by decide) (.step (by decide) hbang)

end

end InlineVariants
