import InlineVariants.Proofs.Accounting
import InlineVariants.Proofs.BlankSpacing
import InlineVariants.Proofs.Ordering
import InlineVariants.Proofs.Rewriting

/-!
# Line breaks in declarations

A declaration is printed with the gaps of the source folded, so that it stands on one line however
its marker was laid out. What a walk has put in the place of a marker is an invisible group, and the
gap in front of it is not folded. Declarations show such groups in their discriminant only, and there a
line break comes through.

Blanks keep the trees of a text without comments apart; walking keeps that so
(`Walker.rewritten_blankSpaced`), and declarations are put together from such trees
(`Variant.WrittenAs.blankSpaced`).

Main statement: `Walker.newline_mem_declaration_iff`.
-/

namespace InlineVariants

open Text Lexeme

/-! ## Walks -/

section

variable {file : Option String} {s : List Char} {f : List Tree → List Tree} {stop : Option Int}

theorem LieInTurn.mem {a b : Nat} {lists : List (List Tree)} {ts : List Tree}
    (h : LieInTurn file s a b lists) (hts : ts ∈ lists) : ∃ i j, LieBetween file s i j ts := by
  induction lists generalizing a with
  | nil => simp at hts
  | cons us lists ih =>
    obtain ⟨i, j, -, hus, hrest⟩ := h
    rcases List.mem_cons.1 hts with rfl | hts
    · exact ⟨i, j, hus⟩
    · exact ih hrest hts

theorem Fields.TakenFrom.blankSpaced {fields : Fields} {rest ahead : List Tree}
    (h : fields.TakenFrom rest ahead) (ha : BlankSpacedAll s stop ahead)
    (hf : ∀ value ∈ fields.values, BlankSpacedAll s none (f value)) (stop' : Option Int) :
    BlankSpacedAll s stop' (fields.mapValues f).constructed := by
  cases fields with
  | unit => trivial
  | named fs =>
    obtain ⟨inner, span, rfl, -, hs⟩ := h
    have hinner : BlankSpacedAll s none inner := ha.inside List.mem_cons_self
    refine .group (by decide) (.separated ?_) trivial
    simp only [List.forall_mem_map]
    intro field hfield
    have hname : [field.name.tree] <:+: inner :=
      hs.isInfix (List.mem_flatMap.2 ⟨field, hfield, by simp⟩)
    exact ⟨(hinner.of_part hname).1, .mark (by decide) (hf _ (List.mem_map_of_mem hfield))⟩
  | unnamed fs =>
    refine .group (by decide) (.separated ?_) trivial
    simp only [List.forall_mem_map]
    exact fun field hfield => hf _ (List.mem_map_of_mem hfield)

/-- The payloads of a definition stand somewhere in the text, as the contents of its marker do. -/
theorem Variant.TakenFrom.payload {v : Variant} {contents value : List Tree} {a b : Nat}
    (h : v.TakenFrom contents) (hlie : LieBetween file s a b contents)
    (hc : BlankSpacedAll s stop contents) (hv : value ∈ v.payloads) :
    (∃ i j, LieBetween file s i j value) ∧ BlankSpacedAll s none value := by
  obtain ⟨_, _, -, -, hturn⟩ := h.lie hlie
  refine ⟨hturn.mem hv, ?_⟩
  rcases h.payload_part hv with hp | ⟨_, _, _, hmem, hp⟩
  · exact hc.of_part hp
  · exact (hc.inside hmem).of_part hp

/-- The construction of a variant whose payloads were rewritten. -/
theorem Variant.TakenFrom.blankSpaced {v : Variant} {contents : List Tree} (h : v.TakenFrom contents)
    (hc : BlankSpacedAll s stop contents)
    (hf : ∀ value ∈ v.payloads, BlankSpacedAll s none (f value)) :
    BlankSpacedAll s none (v.name.tree :: (v.fields.mapValues f).constructed) := by
  obtain ⟨before, ahead, rest, rfl, hfields, -⟩ := h
  obtain ⟨-, hname, hahead⟩ := blankSpaced_append.1 hc
  exact ⟨hname.alone, hfields.blankSpaced hahead
    (fun value hv => hf value (List.mem_append_left _ hv)) _⟩

namespace Walker

variable (w : Walker)

theorem constructionGroup_blankSpaced (hw : '\n' ∉ w.enum.toList) {v : Variant} {span : Span}
    (hgap : BlankBetween s stop span.start) (hk : span.known = true)
    (h : BlankSpacedAll s none (v.name.tree :: v.fields.constructed)) :
    (w.constructionGroup v span).BlankSpaced s stop := by
  have hpath : BlankSpacedAll s none (v.construction [Tree.word w.enum]) :=
    .word hw (.mark (by decide) h)
  exact ⟨hgap, hk, .mark (by decide) (.word (by decide) (.mark (by decide) (.word (by decide)
    (.mark (by decide) (.word (by decide) (.group (by decide) hpath trivial))))))⟩

theorem inertGroup_blankSpaced {contents : List Tree} {span : Span}
    (hgap : BlankBetween s stop span.start) (hk : span.known = true)
    (h : BlankSpacedAll s none contents) : (inertGroup contents span).BlankSpaced s stop :=
  ⟨hgap, hk, .mark (by decide) (.word (by decide) (.mark (by decide) (.word (by decide)
    (.mark (by decide) (.group (by decide) h trivial)))))⟩

/-- Walking keeps trees apart as they are. -/
theorem rewritten_blankSpaced (hw : '\n' ∉ w.enum.toList) (before : Option Tree) {ts : List Tree}
    {a b : Nat} (hlie : LieBetween file s a b ts) (h : BlankSpacedAll s stop ts) :
    BlankSpacedAll s stop (w.rewritten before ts) ∧
      behindAll stop (w.rewritten before ts) = behindAll stop ts := by
  induction before, ts using w.walk_induction generalizing a b stop with
  | nil before => exact ⟨trivial, rfl⟩
  | marker before span opSpan d contents groupSpan ts hb hd ihp ih =>
    obtain ⟨i, j, -, -, -, hname, i', j', hi', -, -, hop, k, l, hk, -, -, hgroup, hrest⟩ := hlie
    obtain ⟨⟨hgap, -⟩, -, hbrackets, hts⟩ := h
    obtain ⟨-, hcontents, -⟩ := (Tree.blankSpaced_group hd).1 hbrackets
    have hij := hname.bounds
    have hij' := hop.bounds
    have hkl := hgroup.bounds
    have hspan : span = Span.covering file s i j := hname.span_eq
    have hgspan : groupSpan = Span.covering file s k l := hgroup.span_eq
    obtain ⟨hstart, hstop⟩ : (span.join groupSpan).start = some (i : Int) ∧
        (span.join groupSpan).stop = some (l : Int) := by
      rw [hspan, hgspan]
      exact Span.join_of_le rfl rfl rfl rfl (by omega) (by omega)
    have hknown : (span.join groupSpan).known = true := by simp [Span.known, hstart, hstop]
    have hgap' : BlankBetween s stop (span.join groupSpan).start := by
      rw [hstart]
      rw [hspan] at hgap
      exact hgap
    have hreplacement :
        (Visit.replacement w ⟨[], span, contents, groupSpan⟩).BlankSpaced s stop := by
      cases hr : (Variant.parse contents groupSpan).result with
      | error e =>
        have hsplits := ((Variant.parse_spec contents groupSpan).1.blankSpaced hgroup.inner hcontents).1
        rw [Visit.replacement_error w hr]
        exact inertGroup_blankSpaced hgap' hknown hsplits.alone
      | ok v =>
        have htaken := (Variant.parse_spec contents groupSpan).2 v hr
        have hpayloads : ∀ value ∈ v.payloads, BlankSpacedAll s none (w.walk {} value).2 := by
          intro value hv
          obtain ⟨⟨_, _, hvalue⟩, hspaced⟩ := htaken.payload hgroup.inner hcontents hv
          rw [w.walk_snd]
          exact (ihp v hr value hv hvalue hspaced).1
        rw [Visit.replacement_ok w hr]
        exact w.constructionGroup_blankSpaced hw hgap' hknown (htaken.blankSpaced hcontents hpayloads)
    have hbehind : (Visit.replacement w ⟨[], span, contents, groupSpan⟩).behind =
        (Tree.group d contents groupSpan).behind := by
      obtain ⟨trees, hx⟩ := Visit.replacement_shape w [] span contents groupSpan
      rw [hx, hgroup.behind, Tree.behind, Layout.closeEnds, if_pos hknown, hstop]
    obtain ⟨hrewritten, hstop'⟩ := ih hrest hts
    rw [w.rewritten_marker hb hd, BlankSpacedAll, behindAll, hbehind]
    exact ⟨⟨hreplacement, hrewritten⟩, hstop'⟩
  | group before d contents span ts hd ihc ih =>
    obtain ⟨i, j, -, -, -, hgroup, hrest⟩ := hlie
    obtain ⟨hgap, hcontents, hclose⟩ := (Tree.blankSpaced_group hd).1 h.1
    obtain ⟨hinner, hstop⟩ := ihc hgroup.inner hcontents
    obtain ⟨hts, hstop'⟩ := ih hrest h.2
    rw [← hstop] at hclose
    rw [w.rewritten_group hd]
    exact ⟨⟨(Tree.blankSpaced_group hd).2 ⟨hgap, hinner, hclose⟩, hts⟩, hstop'⟩
  | keep before t ts hm ht ih =>
    obtain ⟨i, j, -, -, -, -, hrest⟩ := hlie
    obtain ⟨hts, hstop⟩ := ih hrest h.2
    rw [w.rewritten_keep hm ht]
    exact ⟨⟨h.1, hts⟩, hstop⟩

end Walker

end

/-! ## Declarations -/

theorem Unglued.splits {ts us : List Tree} (h : Unglued ts us) : Splits ts us := by
  induction h with
  | nil => exact .nil
  | keep _ ih => exact .keep ih
  | ge _ ih => exact .pieces (n := 1) rfl ih
  | shrAssign _ ih => exact .pieces (n := 2) rfl ih

/-- The trees of an entry are a stretch of the joined ones. -/
theorem Joined.exists_part {α : Type} {written : α → List Tree → Prop} {as : List α}
    {ts : List Tree} {a : α} (h : Joined written as ts) (ha : a ∈ as) :
    ∃ us, written a us ∧ us <:+: ts := by
  induction h with
  | nil => simp at ha
  | @last b us hb =>
    obtain rfl := List.mem_singleton.1 ha
    exact ⟨us, hb, List.infix_refl us⟩
  | @trailing b us span hb =>
    obtain rfl := List.mem_singleton.1 ha
    exact ⟨us, hb, (List.prefix_append us _).isInfix⟩
  | @cons b c more us vs span hb _ ih =>
    rcases List.mem_cons.1 ha with rfl | ha
    · exact ⟨us, hb, (List.prefix_append us _).isInfix⟩
    · obtain ⟨ws, hw, hp⟩ := ih ha
      exact ⟨ws, hw, hp.trans ((List.suffix_cons _ vs).trans (List.suffix_append us _)).isInfix⟩

/-- What an accepted marker holds is its definition. -/
theorem Variant.exists_writtenAs {contents : List Tree} {span : Span} {v : Variant}
    (h : (Variant.parse contents span).result = .ok v) : ∃ after, v.WrittenAs contents after := by
  have hv := Reader.variant_leaves { ahead := contents, region := span.orElse (streamSpan contents) }
  unfold Variant.parse Reader.over at h
  cases he : Reader.variant { ahead := contents, region := span.orElse (streamSpan contents) } with
  | error e c =>
    rw [he] at h
    cases h
  | ok w c =>
    rw [he] at h hv
    obtain rfl : w = v := Except.ok.inj h
    obtain ⟨-, left, -, -, hw, -⟩ := hv
    exact ⟨left, hw⟩

section

variable {file : Option String} {s : List Char} {f : List Tree → List Tree} {stop : Option Int}
  {a b : Nat}

theorem NamedField.WrittenAs.blankSpaced {field : NamedField} {ts : List Tree}
    (h : field.WrittenAs ts) (hts : BlankSpacedAll s none ts) : BlankSpacedAll s none field.declared := by
  obtain ⟨colon, us, rfl, -, span, rfl, -⟩ := h
  obtain ⟨hattributes, hname, -, hrest⟩ := blankSpaced_append.1 hts
  have htype := (blankSpaced_append.1 hrest).1.alone
  exact blankSpaced_append.2 ⟨hattributes, hname, .mark (by decide) htype⟩

theorem UnnamedField.WrittenAs.blankSpaced {field : UnnamedField} {ts : List Tree}
    (h : field.WrittenAs ts) (hts : BlankSpacedAll s none ts) : BlankSpacedAll s none field.declared := by
  obtain ⟨us, rfl, span, rfl, -⟩ := h
  rw [← List.append_assoc] at hts
  exact (blankSpaced_append.1 hts).1

theorem EntryGroup.blankSpaced {α : Type} {d : Delimiter} {written : α → List Tree → Prop}
    {entries : List α} {before after : List Tree} (h : EntryGroup d written entries before after)
    (hd : d ≠ .invisible) (hlie : LieBetween file s a b before) (hb : BlankSpacedAll s stop before)
    {declared : α → List Tree}
    (hdeclared : ∀ x ts, written x ts → BlankSpacedAll s none ts → BlankSpacedAll s none (declared x))
    {stop' : Option Int} {rest : List Tree} (hrest : BlankSpacedAll s none rest) :
    BlankSpacedAll s stop' (listGroup d (entries.map declared) :: rest) := by
  obtain ⟨inner, inner', span, rfl, -, hsplit, hjoined⟩ := h
  obtain ⟨i, j, -, -, -, hgroup, -⟩ := hlie
  obtain ⟨-, hinner, -⟩ := (Tree.blankSpaced_group hd).1 hb.1
  have hinner' := (hsplit.splits.blankSpaced hgroup.inner hinner).1
  refine .group hd (.separated ?_) hrest
  rw [List.forall_mem_map]
  intro x hx
  obtain ⟨ts, hts, hp⟩ := hjoined.exists_part hx
  exact hdeclared x ts hts (hinner'.of_part hp)

theorem Fields.WrittenAs.blankSpaced {fields : Fields} {before after : List Tree}
    (h : fields.WrittenAs before after) (hlie : LieBetween file s a b before)
    (hb : BlankSpacedAll s stop before) {stop' : Option Int} {rest : List Tree}
    (hrest : ∀ stop, BlankSpacedAll s stop rest) : BlankSpacedAll s stop' (fields.declared ++ rest) := by
  cases fields with
  | unit => exact hrest _
  | named fs =>
    exact EntryGroup.blankSpaced h (by decide) hlie hb (fun _ _ => NamedField.WrittenAs.blankSpaced)
      (hrest none)
  | unnamed fs =>
    exact EntryGroup.blankSpaced h (by decide) hlie hb (fun _ _ => UnnamedField.WrittenAs.blankSpaced)
      (hrest none)

theorem Fields.mapValues_declared (fields : Fields) : (fields.mapValues f).declared = fields.declared := by
  cases fields with
  | unit => rfl
  | named fs | unnamed fs =>
    simp only [mapValues, declared, List.map_map]
    rfl

/-- The declaration of a variant whose payloads were rewritten. -/
theorem Variant.WrittenAs.blankSpaced {v : Variant} {contents after : List Tree}
    (h : v.WrittenAs contents after) (hlie : LieBetween file s a b contents)
    (hc : BlankSpacedAll s stop contents)
    (hf : ∀ value ∈ v.payloads, BlankSpacedAll s none (f value)) :
    BlankSpacedAll s none (v.mapPayloads f).declaration.trees := by
  obtain ⟨visibility, group, group', discriminant, rfl, -, -, -, hfields, -⟩ := h
  obtain ⟨_, -, hlie⟩ := hlie.append_inv
  obtain ⟨_, -, i, j, -, -, -, -, hlie⟩ := hlie.append_inv
  obtain ⟨_, hgroup, -⟩ := hlie.append_inv
  obtain ⟨-, hname, hrest⟩ := blankSpaced_append.1 (blankSpaced_append.1 hc).2
  have hdiscriminant (stop : Option Int) :
      BlankSpacedAll s stop (v.mapPayloads f).declaredDiscriminant := by
    unfold declaredDiscriminant mapPayloads
    cases hd : v.discriminant with
    | none => trivial
    | some value => exact .mark (by decide) (hf value (by simp [payloads, hd]))
  refine ⟨hname.alone, ?_⟩
  show BlankSpacedAll s _ ((v.fields.mapValues f).declared ++ _)
  rw [Fields.mapValues_declared]
  exact hfields.blankSpaced hgroup (blankSpaced_append.1 hrest).1 hdiscriminant

end

/-! ## The gap in front of the name -/

namespace Layout

namespace Readings

/-- Blanks leave the readings of a text where they were. -/
theorem foldl_blank {gap : List Char} (h : ∀ c ∈ gap, isBlank c = true) :
    gap.foldl step initial = initial := by
  induction gap with
  | nil => rfl
  | cons c gap ih =>
    have hc := h c (by simp)
    have hstep : step initial c = initial := by
      simp [step, initial, hc, ne_slash_of_isBlank hc]
    rw [List.foldl_cons, hstep]
    exact ih fun x hx => h x (List.mem_cons_of_mem c hx)

/-- Where no reading is left, none comes back. -/
theorem foldl_none (cs : List Char) : cs.foldl step {} = {} := by
  induction cs with
  | nil => rfl
  | cons c cs ih => simpa [step] using ih

end Readings

/-- Behind blanks, only a slash goes on with trivia. -/
theorem isTrivia_blank_append {gap rest : List Char} {c : Char} (h : ∀ c ∈ gap, isBlank c = true)
    (hc : isBlank c = false) (hslash : c ≠ '/') : isTrivia (gap ++ c :: rest) = false := by
  have hstep : Readings.step .initial c = {} := by simp [Readings.step, Readings.initial, hc, hslash]
  rw [isTrivia, List.foldl_append, Readings.foldl_blank h, List.foldl_cons, hstep,
    Readings.foldl_none]
  rfl

end Layout

section

variable {file : Option String} {s : List Char} {a b : Nat}

mutual

theorem Tree.LiesAt.breaksLine_eq_false : ∀ {t : Tree} {a b : Nat} (stop : Option Int),
    t.LiesAt file s a b → t.breaksLine s stop = false
  | .ident .., _, _, _, _ | .punct .., _, _, _, _ | .literal .., _, _, _, _ => rfl
  | .group .invisible .., _, _, _, h => absurd rfl h.ne_invisible
  | .group .paren .., _, _, _, h | .group .brace .., _, _, _, h | .group .bracket .., _, _, _, h =>
    h.inner.anyBreaksLine_eq_false _

/-- No line is broken in trees of the source. -/
theorem LieBetween.anyBreaksLine_eq_false : ∀ {ts : List Tree} {a b : Nat} (stop : Option Int),
    LieBetween file s a b ts → anyBreaksLine s stop ts = false
  | [], _, _, _, _ => rfl
  | t :: ts, _, _, _, ⟨_, _, _, _, _, ht, hts⟩ => by
    rw [anyBreaksLine, ht.breaksLine_eq_false, hts.anyBreaksLine_eq_false]
    rfl

end

/-- The offset behind trees of the source is one of its text. -/
theorem LieBetween.behindAll {ts : List Tree} (h : LieBetween file s a b ts) (hne : ts ≠ [])
    (stop : Option Int) : ∃ k : Nat, behindAll stop ts = some (k : Int) := by
  induction ts generalizing a stop with
  | nil => exact absurd rfl hne
  | cons t ts ih =>
    obtain ⟨i, j, -, -, -, ht, hts⟩ := h
    by_cases hnil : ts = []
    · exact ⟨j, by rw [hnil, InlineVariants.behindAll, ht.behind]; rfl⟩
    · exact ih hts hnil t.behind

/-- What is printed between the attributes and the name has no line break. A visibility between them
is no trivia, so the source text around it is not copied. -/
theorem Variant.WrittenAs.newline_not_mem_gap {v : Variant} {contents after : List Tree}
    (h : v.WrittenAs contents after) (hlie : LieBetween file s a b contents)
    (hc : BlankSpacedAll s none contents) :
    '\n' ∉ (Layout.trees (Layout.folding s) (attributeTrees v.attributes) {}).2.gap
      (Layout.folding s) ⟨.ident, v.name.text⟩ v.name.span.start := by
  obtain ⟨visibility, group, group', discriminant, rfl, -, hvisibility, -⟩ := h
  obtain ⟨hattributes, hrest⟩ := blankSpaced_append.1 hc
  have hstop := (Layout.trees_breaksLine (attributeTrees v.attributes) {} hattributes).2
  obtain ⟨_, hlieA, hlie⟩ := hlie.append_inv
  by_cases hnil : attributeTrees v.attributes = []
  · rw [hnil]
    simp [Layout.trees]
  obtain ⟨k, hk⟩ := hlieA.behindAll hnil none
  refine Layout.newline_not_mem_gap fun gap hgap => ?_
  rw [hstop, hk] at hgap
  rw [hk] at hrest
  cases visibility with
  | nil => exact Layout.blank_of_sourceGap hrest.1.1 hgap
  | cons t more =>
    -- the first character behind the blanks is that of `pub`
    exfalso
    obtain ⟨i, j, -, -, -, ht, hlie⟩ := hlie
    obtain ⟨l, hmore, n, m, hn, -, -, hname, -⟩ := hlie.append_inv
    obtain ⟨span, rfl⟩ := hvisibility.head_eq
    obtain ⟨⟨hblank, -⟩, -⟩ := hrest
    have hjn := hmore.le
    obtain ⟨hij, hj, htext, rfl⟩ := ht
    obtain ⟨hki, hblank⟩ := hblank k i rfl rfl
    have hstart : v.name.span.start = some (n : Int) := by
      rw [show v.name.span = _ from hname.span_eq]
      rfl
    have hslice : slice s k n = slice s k i ++ 'p' :: 'u' :: 'b' :: slice s j n := by
      rw [← Edit.slice_append s (b := i) (by omega) (by omega),
        ← Edit.slice_append s (a := i) (b := j) (by omega) (by omega), ← htext]
      rfl
    have hnone : Layout.sourceGap (some s) (some (k : Int)) v.name.span.start = none := by
      have hle : ¬ (n : Int) < k := by omega
      rw [hstart]
      simp only [Layout.sourceGap, hle, if_false, hslice,
        Layout.isTrivia_blank_append hblank (by decide : isBlank 'p' = false) (by decide)]
      rfl
    rw [hnone] at hgap
    cases hgap

/-- The text of a declaration, with and without attributes, breaks the line in front of a replacement
that stands behind a line break. -/
theorem Variant.WrittenAs.newline_mem_render_iff {v : Variant} {contents after : List Tree}
    {f : List Tree → List Tree} (h : v.WrittenAs contents after)
    (hlie : LieBetween file s a b contents) (hc : BlankSpacedAll s none contents)
    (hf : ∀ value ∈ v.payloads, BlankSpacedAll s none (f value)) :
    let d := (v.mapPayloads f).declaration
    ('\n' ∈ d.render (some s) ↔ anyBreaksLine s none d.trees = true) ∧
      ('\n' ∈ d.renderVariant (some s) ↔ anyBreaksLine s none d.trees = true) := by
  intro d
  have hvariant : '\n' ∈ d.renderVariant (some s) ↔ anyBreaksLine s none d.trees = true :=
    (Layout.trees_breaksLine d.trees {} (h.blankSpaced hlie hc hf)).1
  refine ⟨?_, hvariant⟩
  have hgap := h.newline_not_mem_gap hlie hc
  obtain ⟨visibility, group, group', discriminant, rfl, -⟩ := h
  obtain ⟨_, hlie, -⟩ := hlie.append_inv
  have hattributes := (Layout.trees_breaksLine _ {} (blankSpaced_append.1 hc).1).1
  rw [hlie.anyBreaksLine_eq_false] at hattributes
  have htrees : d.trees = v.name.tree :: d.trees.tail := rfl
  have hfront := Layout.trees_eq_front (Layout.folding s)
    (Layout.trees (Layout.folding s) (attributeTrees v.attributes) {}).2 (t := v.name.tree)
    d.trees.tail rfl
  have hrender : d.render (some s) =
      (Layout.trees (Layout.folding s) (attributeTrees v.attributes ++ d.trees) {}).1 := rfl
  rw [← hvariant, hrender, Layout.trees_append, htrees, hfront]
  simp only [List.mem_append, hattributes, Bool.false_eq_true, false_or]
  exact or_iff_right hgap

end

theorem Visit.StandsIn.blankSpaced {w : Walker} {x : Visit} {s : List Char} {stop : Option Int}
    {ts : List Tree} (h : x.StandsIn w ts) (hts : BlankSpacedAll s stop ts) :
    BlankSpacedAll s none x.contents := by
  induction h generalizing stop with
  | @here pre post opSpan d hd =>
    have hmem : Tree.group d x.contents x.groupSpan ∈ pre ++ .ident w.marker x.nameSpan ::
        .punct "!" opSpan :: .group d x.contents x.groupSpan :: post := by simp
    exact hts.inside hmem
  | inside hmem _ ih => exact ih (hts.inside hmem)

/-- A collected declaration is printed with a line break exactly if a replacement in it, which is one
of a marker in its discriminant, stands behind one in the source. -/
theorem Walker.newline_mem_declaration_iff {s : List Char} {file : Option String} {trees : List Tree}
    (h : tokenize s file = .ok trees) (hs : CommentFree s)
    (hl : ∀ l ∈ (scan s).lexemes, '\n' ∉ l.text.toList) (w : Walker) (hw : '\n' ∉ w.enum.toList)
    {d : Declaration} (hd : d ∈ (w.walk {} trees).1.declarations) :
    ('\n' ∈ d.render (some s) ↔ anyBreaksLine s none d.trees = true) ∧
      ('\n' ∈ d.renderVariant (some s) ↔ anyBreaksLine s none d.trees = true) := by
  obtain ⟨q, rest, hr, hrest⟩ := tokenize_reads h
  have hlie := hr.lieBetween_ends hrest
  have hspaced := (hr.blankSpaced rfl hs hl).1
  rw [w.walk_declarations] at hd
  obtain ⟨x, hx, hd⟩ := List.mem_filterMap.1 hd
  obtain ⟨_, _, _, _, _, -, -, -, -, hgroup⟩ := (w.visits_ordered none hlie).lie x hx
  have hcontents := (w.visits_standsIn none trees x hx).blankSpaced hspaced
  obtain ⟨u, hu, rfl⟩ := Option.map_eq_some_iff.1 hd
  obtain ⟨v, hv, rfl⟩ := Option.map_eq_some_iff.1 hu
  have hparse := Visit.parsed?_eq_some.1 hv
  obtain ⟨after, hwritten⟩ := Variant.exists_writtenAs hparse
  refine hwritten.newline_mem_render_iff hgroup.inner hcontents fun value hvalue => ?_
  obtain ⟨⟨_, _, hvlie⟩, hvspaced⟩ :=
    ((Variant.parse_spec _ _).2 v hparse).payload hgroup.inner hcontents hvalue
  rw [w.walk_snd]
  exact (w.rewritten_blankSpaced hw none hvlie hvspaced).1

/-- Line breaks behind an attribute and a visibility, in front of `=` and in a discriminant: only that
in front of a marker comes through. -/
theorem Walker.newline_mem_declaration_folded :
    let s := "err!(#[a]\npub A(u8\n=0)=1\n+\nerr!(B))".toList
    let w : Walker := ⟨"E", "err"⟩
    ∃ trees d, tokenize s = .ok trees ∧ CommentFree s ∧
      (∀ l ∈ (scan s).lexemes, '\n' ∉ l.text.toList) ∧ '\n' ∉ w.enum.toList ∧
      d ∈ (w.walk {} trees).1.declarations ∧ d.name = "A" ∧ anyBreaksLine s none d.trees = true ∧
      ('\n' ∈ d.render (some s) ↔ anyBreaksLine s none d.trees = true) ∧
      ('\n' ∈ d.renderVariant (some s) ↔ anyBreaksLine s none d.trees = true) := by
  intro s w
  have hs : CommentFree s := .of_stuck_eq_none (p := .first) (by decide +kernel) (by decide)
  have hl : ∀ l ∈ (scan s).lexemes, '\n' ∉ l.text.toList := by decide +kernel
  have hw : '\n' ∉ w.enum.toList := by decide
  have hdeclared : (tokenize s).map (fun trees => (w.walk {} trees).1.declarations.map
      fun d => (d.name, anyBreaksLine s none d.trees)) = .ok [("A", true), ("B", false)] := by
    decide +kernel
  cases htrees : tokenize s with
  | error e =>
    rw [htrees] at hdeclared
    cases hdeclared
  | ok trees =>
    rw [htrees] at hdeclared
    have hmap : ((w.walk {} trees).1.declarations.map
        fun d => (d.name, anyBreaksLine s none d.trees)) = [("A", true), ("B", false)] :=
      Except.ok.inj hdeclared
    have hmem : ("A", true) ∈ [("A", true), ("B", false)] := List.mem_cons_self
    rw [← hmap] at hmem
    obtain ⟨d, hd, heq⟩ := List.mem_map.1 hmem
    obtain ⟨hname, hbreaks⟩ := Prod.mk.inj heq
    exact ⟨trees, d, rfl, hs, hl, hw, hd, hname, hbreaks,
      Walker.newline_mem_declaration_iff htrees hs hl w hw hd⟩

/-- A marker on a line of its own in a discriminant. -/
theorem Walker.declaration_two_lines :
    let s := "err!(A = 1 +\nerr!(B))".toList
    CommentFree s ∧ (scan s).lexemes.all (fun l => !l.text.toList.contains '\n') = true ∧
      (tokenize s).map (fun trees => ((Walker.mk "E" "err").walk {} trees).1.declarations.map
        fun d => (String.ofList (d.render (some s)), String.ofList (d.renderVariant (some s)))) =
      .ok [("A = 1 +\n::core::convert::identity(E::B)", "A = 1 +\n::core::convert::identity(E::B)"),
        ("B", "B")] := by
  refine ⟨.of_stuck_eq_none (p := .first) ?_ (by decide), ?_, ?_⟩ <;> decide +kernel

end InlineVariants
