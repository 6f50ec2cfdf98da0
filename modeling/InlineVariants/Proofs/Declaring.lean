import InlineVariants.Proofs.BlankSpacing
import InlineVariants.Proofs.Regluing
import InlineVariants.Proofs.Retelling

/-!
# Declarations as text

A declaration is printed from trees of its marker and from marks that are put in. The contents of the
marker are in the source what the definition was cut from (`Variant.CutFrom`): visibility, values,
separators and the `=` of glued tokens are passed over. The printer stands behind a token of the source,
or behind a mark and takes up the source further on (`Spot`), and each part of the contents can be
printed as its part of the declaration (`Supplies`). So the text is one that is retold from the source.

Main statement: the text is read as the declaration exactly if nothing in it is misread
(`Variant.declaration_readsBack_iff`).
-/

namespace InlineVariants

open Text Lexeme Layout

/-! ## The parts of a definition in the source -/

/-- The trees of the source that a type and a value were cut from: the `=` stands apart, or the type ends
in pieces of a token that held the `=` as well. -/
inductive CutFrom (type value : List Tree) : List Tree → Prop
  | apart {span : Span} : CutFrom type value (type ++ .punct "=" span :: value)
  | glued {front : List Tree} {op : String} {span : Span} {n : Nat} :
      gluedAngles? op = some n → type = front ++ anglePieces span n →
      CutFrom type value (front ++ .punct op span :: value)

/-- The trees of the source that a named entry was read from. -/
def NamedField.CutFrom (f : NamedField) (ts : List Tree) : Prop :=
  ∃ colon us, ts = attributeTrees f.attributes ++ f.name.tree :: .punct ":" colon :: us ∧
    InlineVariants.CutFrom f.type f.value us

/-- The trees of the source that an unnamed entry was read from. -/
def UnnamedField.CutFrom (f : UnnamedField) (ts : List Tree) : Prop :=
  ∃ us, ts = attributeTrees f.attributes ++ us ∧ InlineVariants.CutFrom f.type f.value us

/-- The group of the source that fields were read from. -/
def Fields.CutFrom : Fields → List Tree → Prop
  | .unit, ts => ts = []
  | .named fs, ts => ∃ inner span, ts = [.group .brace inner span] ∧ Joined NamedField.CutFrom fs inner
  | .unnamed fs, ts => ∃ inner span, ts = [.group .paren inner span] ∧
      Joined UnnamedField.CutFrom fs inner

/-- The contents of a marker that a definition was read from. -/
def Variant.CutFrom (v : Variant) (contents : List Tree) : Prop :=
  ∃ visibility group discriminant,
    contents = attributeTrees v.attributes ++ (visibility ++ v.name.tree :: (group ++ discriminant)) ∧
    IsVisibility visibility ∧ isKeyword v.name.text = false ∧ v.fields.CutFrom group ∧
    IsDiscriminant v.discriminant discriminant

namespace CutFrom

variable {type value ts : List Tree}

theorem cons (t : Tree) (h : CutFrom type value ts) : CutFrom (t :: type) value (t :: ts) := by
  cases h with
  | apart => exact .apart
  | @glued front op span n hop htype =>
    exact @CutFrom.glued _ _ (t :: front) op span n hop (congrArg (t :: ·) htype)

/-- The value may be cut. -/
theorem cut {rest : List Tree} (h : CutFrom type (value ++ rest) ts) :
    ∃ us, ts = us ++ rest ∧ CutFrom type value us := by
  cases h with
  | @apart span => exact ⟨type ++ .punct "=" span :: value, by simp, .apart⟩
  | @glued front op span n hop htype =>
    exact ⟨front ++ .punct op span :: value, by simp, .glued hop htype⟩

end CutFrom

/-- A type in front of a `=` was cut off there. -/
theorem typeRun_cutFrom {depth : Nat} {ts rest : List Tree} {span : Span}
    (h : (typeRun depth ts).2 = .punct "=" span :: rest) : CutFrom (typeRun depth ts).1 rest ts := by
  fun_induction typeRun depth ts with
  | case1 => cases h
  | case2 =>
    cases h
    exact .apart
  | case3 depth op glued ts _ hop =>
    cases h
    exact @CutFrom.glued _ _ [] op glued depth hop rfl
  | case4 depth op glued ts _ _ run ih => exact (ih h).cons _
  | case5 depth t ts _ run ih => exact (ih h).cons _

/-- Of two lists of entries, the first one. -/
theorem JoinedBoth.joined {α : Type} {rel : α → List Tree → List Tree → Prop}
    {written : α → List Tree → Prop} {as : List α} {ts us : List Tree} (h : JoinedBoth rel as ts us)
    (himp : ∀ a ts us, rel a ts us → written a ts) : Joined written as ts := by
  induction h with
  | nil => exact .nil
  | last ha => exact .last (himp _ _ _ ha)
  | trailing ha => exact .trailing (himp _ _ _ ha)
  | cons ha _ ih => exact .cons (himp _ _ _ ha) ih

namespace Reader

theorem typeAndValue_cutFrom (start : Nat) (label : FieldLabel) :
    Meets (typeAndValue start label) fun ahead r _ ahead' =>
      ∃ ts, ahead = ts ++ ahead' ∧ CutFrom r.1 r.2 ts := by
  apply (typeAndValue_runs start label).conseq
  rintro ahead r left ahead' ⟨-, -, span, mid, hcut, hrun⟩
  have hmid : mid = r.2 ++ ahead' := by simpa [hrun] using (valueRun_append {} mid).symm
  have hfrom := typeRun_cutFrom (congrArg Prod.snd hcut)
  rw [hcut, hmid] at hfrom
  exact hfrom.cut

variable {α : Type}

/-- All entries of a group stand in it as they were read. -/
theorem allEntries_joined {entry : Nat → Reader α} {written : α → List Tree → Prop}
    (hentry : ∀ index, Meets (entry index) fun ahead a _ ahead' =>
      ∃ ts, ahead = ts ++ ahead' ∧ written a ts) {as : List α} {c c' : Cursor}
    (h : allEntries entry c = .ok as c') : Joined written as c.ahead := by
  have hstep {index : Nat} {c c' : Cursor} {a : α} (ha : entry index c = .ok a c') :
      ∃ ts left, c.ahead = ts ++ c'.ahead ∧ c'.passed = List.reverse left ++ c.passed ∧
        written a ts := by
    have hmeets := hentry index c
    rw [ha] at hmeets
    obtain ⟨-, left, hleft, -, ts, hts, hwritten⟩ := hmeets
    exact ⟨ts, left, hts, hleft, hwritten⟩
  obtain ⟨-, left, -, hjoined⟩ := entries_joined hstep h (Nat.le_refl _)
  exact hjoined.joined fun _ _ _ hwritten => hwritten

theorem inside_inv {d : Delimiter} {inner rest : List Tree} {span : Span} {reader : Reader α} {a : α}
    {c c' : Cursor} (h : inside d inner span rest reader c = .ok a c') :
    c'.ahead = rest ∧ ∃ c₁, reader { ahead := inner, region := span } = .ok a c₁ := by
  unfold inside at h
  cases hr : reader { ahead := inner, region := span } with
  | error e c₁ => simp [hr] at h
  | ok b c₁ =>
    rw [hr] at h
    cases h
    exact ⟨rfl, c₁, rfl⟩

/-- The fields that were read stand in a group. -/
theorem fieldGroup_inv {fields : Fields} {c c' : Cursor} (h : fieldGroup c = .ok fields c') :
    ∃ group, c.ahead = group ++ c'.ahead ∧ fields.CutFrom group := by
  unfold fieldGroup at h
  split at h
  · rename_i inner span rest hc
    obtain ⟨rfl, c₁, hr⟩ := inside_inv h
    obtain ⟨fs, c₂, hfs, hr⟩ := run_bind_inv hr
    cases hr
    exact ⟨_, hc, inner, span, rfl,
      allEntries_joined (fun _ => namedEntry_written typeAndValue_cutFrom) hfs⟩
  · rename_i inner span rest hc
    obtain ⟨rfl, c₁, hr⟩ := inside_inv h
    obtain ⟨fs, c₂, hfs, hr⟩ := run_bind_inv hr
    cases hr
    exact ⟨_, hc, inner, span, rfl,
      allEntries_joined (unnamedEntry_written typeAndValue_cutFrom) hfs⟩
  · cases h
    exact ⟨[], rfl, rfl⟩

theorem variant_inv {v : Variant} {c c' : Cursor} (h : variant c = .ok v c') : v.CutFrom c.ahead := by
  obtain ⟨as, c₁, hattributes, h⟩ := run_bind_inv h
  obtain ⟨_, c₂, hvisibility, h⟩ := run_bind_inv h
  obtain ⟨name, c₃, hname, h⟩ := run_bind_inv h
  obtain ⟨fields, c₄, hfields, h⟩ := run_bind_inv h
  obtain ⟨d, c₅, hdiscriminant, h⟩ := run_bind_inv h
  have ha := attributes_meets c
  have hv := visibility_leaves c₁
  have hn := name_meets "variant name" c₂
  have hd := discriminant_leaves name.text c₄
  have hend := variantEnd_leaves as name fields d c₅
  rw [hattributes] at ha
  rw [hvisibility] at hv
  rw [hname] at hn
  rw [hdiscriminant] at hd
  rw [show _ = _ from h] at hend
  obtain ⟨-, _, -, -, rfl, ha⟩ := ha
  obtain ⟨-, visibility, -, -, hvisible, hv⟩ := hv
  obtain ⟨-, _, -, -, -, hn, hkeyword⟩ := hn
  obtain ⟨-, discriminant, -, -, hdisc, hd⟩ := hd
  obtain ⟨-, _, -, -, rfl, rfl, rfl, rfl, -, hnil, -⟩ := hend
  obtain ⟨group, hgroup, hcut⟩ := fieldGroup_inv hfields
  rw [hnil, List.append_nil] at hd
  refine ⟨visibility, group, discriminant, ?_, hvisible, hkeyword, hcut, hdisc⟩
  rw [ha, hv, hn, hgroup, hd]
  rfl

end Reader

/-- The contents of an accepted marker are what its definition was cut from. -/
theorem Variant.cutFrom_of_parse {contents : List Tree} {span : Span} {v : Variant}
    (h : (Variant.parse contents span).result = .ok v) : v.CutFrom contents := by
  unfold Variant.parse Reader.over at h
  cases he : Reader.variant { ahead := contents, region := span.orElse (streamSpan contents) } with
  | error e c =>
    rw [he] at h
    cases h
  | ok w c =>
    rw [he] at h
    obtain rfl : w = v := Except.ok.inj h
    exact Reader.variant_inv he

/-! ## Where the printer stands -/

/-- The printer behind a word. The source is still ahead from `behind` on, and directly so if the word is
`near` the source. -/
structure Spot where
  state : State
  near : Bool
  word : Word
  behind : Nat

namespace Spot

/-- Before anything is printed no spaces are put in, as behind a parenthesis. -/
def start : Spot := ⟨{}, false, (.opening .paren, "("), 0⟩

/-- Behind a token of the source that ends at a position. -/
def token (r : Word) (p : Position) : Spot :=
  ⟨⟨some r.piece, some (p.offset : Int), false⟩, true, r, p.offset⟩

/-- Behind a mark that was put in, where the source is taken up again from an offset on. -/
def made (r : Word) (n : Nat) : Spot := ⟨{ last := some r.piece }, false, r, n⟩

variable (s : List Char) (a b : Spot)

/-- The spacing table decides in front of a mark that is put in. -/
def TakesMark : Prop := ∀ piece, a.state.gap (folding s) piece none = spacing a.word.piece piece

/-- The spacing table decides, whatever comes. -/
def Loose : Prop := ∀ piece start, a.state.gap (folding s) piece start = spacing a.word.piece piece

/-- The word is a token of the source that ends at a position. -/
structure Near (p : Position) : Prop where
  near : a.near = true
  state : a.state.At p
  last : a.state.last = some a.word.piece
  behind : a.behind = p.offset

/-- The tree of the source that is read from a position on may come next. -/
def Opens (p : Position) : Prop := a.Near p ∨ a.Loose s ∧ a.behind ≤ p.offset

/-- The chunks are what is printed behind a spot. -/
def Retells (chunks : List Chunk) (words : List Word) : Prop :=
  Retold a.near a.word (s.drop a.behind) chunks words

/-- Printing a word leads from one spot to another. -/
def Steps (r : Word) (start stop : Option Int) : Prop :=
  (emit (folding s) a.state r.piece start stop).2 = b.state ∧ ∀ chunks words, b.Retells s chunks words →
    a.Retells s (emitChunks (folding s) a.state r.piece start ++ chunks) (r :: words)

/-- Printing trees leads from one spot to another. -/
def Lays (ts : List Tree) : Prop :=
  (trees (folding s) ts a.state).2 = b.state ∧ ∃ words, Spells words ts ∧
    ∀ chunks more, b.Retells s chunks more →
      a.Retells s (treesChunks (folding s) ts a.state ++ chunks) (words ++ more)

end Spot

section

variable {s : List Char} {a b c : Spot} {p q : Position}

theorem Spot.Lays.nil : a.Lays s a [] := ⟨rfl, [], .nil, fun _ _ h => h⟩

theorem Spot.Lays.append {ts us : List Tree} (h : a.Lays s b ts) (h' : b.Lays s c us) :
    a.Lays s c (ts ++ us) := by
  obtain ⟨hstate, words, hspells, htold⟩ := h
  obtain ⟨hstate', words', hspells', htold'⟩ := h'
  refine ⟨?_, words ++ words', hspells.append hspells', fun chunks more hmore => ?_⟩
  · rw [trees_append, hstate]
    exact hstate'
  · rw [treesChunks_append, hstate, List.append_assoc, List.append_assoc]
    exact htold _ _ (htold' _ _ hmore)

/-- A tree of one word. -/
theorem Spot.Steps.leaf {r : Word} {start stop : Option Int} {t : Tree} (h : a.Steps s b r start stop)
    (hl : r.1.isLeaf = true) (hbare : t.bare = r.leaf)
    (htree : tree (folding s) t a.state = emit (folding s) a.state r.piece start stop)
    (hchunks : treeChunks (folding s) t a.state = emitChunks (folding s) a.state r.piece start) :
    a.Lays s b [t] := by
  refine ⟨?_, [r], .leaf hl hbare .nil, fun chunks more hmore => ?_⟩
  · rw [trees, htree]
    exact h.1
  · rw [treesChunks, treesChunks, hchunks, List.append_nil]
    exact h.2 _ _ hmore

/-- A group, with its brackets as words. -/
theorem Spot.Lays.group {d : Delimiter} {e : Spot} {ts : List Tree} {span : Span} (hd : d ≠ .invisible)
    (ho : a.Steps s b (.opening d, d.opening) (openEnds span).1 (openEnds span).2)
    (h : b.Lays s c ts)
    (hc : c.Steps s e (.closing d, d.closing) (closeEnds span).1 (closeEnds span).2) :
    a.Lays s e [.group d ts span] := by
  obtain ⟨hopen, hopened⟩ := ho
  obtain ⟨hstate, words, hspells, htold⟩ := h
  obtain ⟨hclose, hclosed⟩ := hc
  have htree : tree (folding s) (.group d ts span) a.state =
      let opened := emit (folding s) a.state (Word.piece (.opening d, d.opening)) (openEnds span).1
        (openEnds span).2
      let inner := trees (folding s) ts opened.2
      let closed := emit (folding s) inner.2 (Word.piece (.closing d, d.closing)) (closeEnds span).1
        (closeEnds span).2
      (opened.1 ++ (inner.1 ++ closed.1), closed.2) := by
    cases d with
    | invisible => exact absurd rfl hd
    | paren | brace | bracket => rfl
  have hchunks : treeChunks (folding s) (.group d ts span) a.state =
      let opened := emit (folding s) a.state (Word.piece (.opening d, d.opening)) (openEnds span).1
        (openEnds span).2
      emitChunks (folding s) a.state (Word.piece (.opening d, d.opening)) (openEnds span).1 ++
        (treesChunks (folding s) ts opened.2 ++
          emitChunks (folding s) (trees (folding s) ts opened.2).2 (Word.piece (.closing d, d.closing))
            (closeEnds span).1) := by
    cases d with
    | invisible => exact absurd rfl hd
    | paren | brace | bracket => rfl
  refine ⟨?_, _, .group hspells .nil, fun chunks more hmore => ?_⟩
  · simp only [trees, htree, hopen, hstate]
    exact hclose
  · simp only [treesChunks, hchunks, hopen, hstate, List.append_nil, List.append_assoc, List.cons_append]
    exact hopened _ _ (htold _ _ (hclosed _ _ hmore))

namespace Spot

theorem loose_start : start.Loose s := fun piece start => by
  simp [Spot.start, spacing, needsSpace, Word.piece]

theorem loose_made (r : Word) (n : Nat) : (made r n).Loose s := fun piece start => by
  simp [made, State.gap, folding, sourceGap]

theorem Near.takesMark (h : a.Near p) : a.TakesMark s := fun piece => by
  simp [State.gap, h.state.gapDone, h.last, folding, sourceGap]

theorem Opens.takesMark (h : a.Opens s p) : a.TakesMark s := by
  rcases h with h | ⟨h, -⟩
  · exact h.takesMark
  · exact fun piece => h piece none

theorem Opens.behind_le (h : a.Opens s p) : a.behind ≤ p.offset := by
  rcases h with h | ⟨-, h⟩
  · exact Nat.le_of_eq h.behind
  · exact h

/-- The source text in front of a token is copied, or the spacing table decides. -/
theorem Near.gap_cases (h : a.Near p) {skipped cs : List Char}
    (hp : s.drop p.offset = skipped ++ cs) (piece : Piece) :
    let gap := a.state.gap (folding s) piece (some ((p.advance skipped).offset : Int))
    gap = skipped ∨ gap = spacing a.word.piece piece := by
  have hle : ¬ ((p.advance skipped).offset : Int) < p.offset := by
    rw [Position.advance_offset]
    omega
  have hsource : sourceGap (some s) (some (p.offset : Int)) (some ((p.advance skipped).offset : Int)) =
      some skipped ∨
      sourceGap (some s) (some (p.offset : Int)) (some ((p.advance skipped).offset : Int)) = none := by
    simp only [sourceGap, hle, if_false, slice_advance hp]
    split
    · exact .inl rfl
    · exact .inr rfl
  simp only [State.gap, h.state.gapDone, h.last, h.state.stop, folding]
  rcases hsource with hsource | hsource
  · rw [hsource]
    cases hfold : isFoldable skipped <;> simp [hfold]
  · rw [hsource]
    exact .inr rfl

/-- The gap in front of a tree of the source is that of the source, or the spacing table decides. -/
theorem Opens.seam (h : a.Opens s p) {gap cs : List Char} (hp : s.drop p.offset = gap ++ cs)
    (hg : Gap gap) (r : Word) : Seam a.near a.word (s.drop a.behind)
      (a.state.gap (folding s) r.piece (some ((p.advance gap).offset : Int))) r cs := by
  rcases h with h | ⟨h, hle⟩
  · rw [h.behind, hp]
    rcases h.gap_cases hp r.piece with hgap | hgap
    · rw [hgap]
      exact .inl ⟨h.near, hg, rfl⟩
    · exact .inr ⟨hgap, List.suffix_append _ _⟩
  · refine .inr ⟨h _ _, (List.suffix_append gap cs).trans ?_⟩
    rw [← hp]
    exact List.drop_suffix_drop_left _ hle

theorem near_token (r : Word) (p : Position) : (token r p).Near p := ⟨rfl, ⟨rfl, rfl, rfl⟩, rfl, rfl⟩

/-- A token of the source is printed behind a gap. -/
theorem steps_token {r : Word} {start : Option Int}
    (h : ∀ chunks words, Retold true r (s.drop p.offset) chunks words → a.Retells s
      (gapChunk (a.state.gap (folding s) r.piece start) ++ .token r.piece :: chunks) (r :: words)) :
    a.Steps s (token r p) r start (some (p.offset : Int)) := by
  refine ⟨rfl, fun chunks words hmore => ?_⟩
  rw [emitChunks, List.append_assoc]
  exact h chunks words hmore

/-- The next token of the source is printed. -/
theorem Opens.step (h : a.Opens s p) {r : Word} {gap rest : List Char}
    (hp : s.drop p.offset = gap ++ (r.2.toList ++ rest)) (hg : Gap gap)
    (ht : IsToken r.1 r.2.toList rest) :
    a.Steps s (token r ((p.advance gap).advance r.2.toList)) r (some ((p.advance gap).offset : Int))
      (some (((p.advance gap).advance r.2.toList).offset : Int)) := by
  refine steps_token fun chunks words hmore => ?_
  rw [Position.drop_advance (Position.drop_advance hp)] at hmore
  exact .token (h.seam hp hg r) ht hmore

/-- A mark is put in, and the source may be taken up again further on. -/
theorem TakesMark.step (h : a.TakesMark s) {r : Word} (hr : r ∈ declaredMarks) {n : Nat}
    (hn : a.behind ≤ n) : a.Steps s (made r n) r none none := by
  refine ⟨rfl, fun chunks words hmore => ?_⟩
  rw [emitChunks, h, List.append_assoc]
  exact .mark hr (List.drop_suffix_drop_left _ hn) hmore

theorem TakesMark.mark (h : a.TakesMark s) {op : String} (hop : (.punct, op) ∈ declaredMarks) {n : Nat}
    (hn : a.behind ≤ n) : a.Lays s (made (.punct, op) n) [.mark op] :=
  (h.step hop hn).leaf rfl rfl rfl rfl

end Spot

/-- How a token that is no bracket is printed. -/
theorem tree_lexeme (style : Style) (st : State) (file : Option String) {l : Lexeme}
    (hl : l.cls.isLeaf = true) :
    tree style (l.leaf file) st =
        emit style st l.word.piece (some (l.start.offset : Int)) (some (l.stop.offset : Int)) ∧
      treeChunks style (l.leaf file) st =
        emitChunks style st l.word.piece (some (l.start.offset : Int)) := by
  obtain ⟨cls, text, start, stop⟩ := l
  cases cls with
  | opening | closing => cases hl
  | _ => exact ⟨rfl, rfl⟩

theorem Spot.Steps.lexeme {l : Lexeme}
    (h : a.Steps s b l.word (some (l.start.offset : Int)) (some (l.stop.offset : Int)))
    (hl : l.cls.isLeaf = true) (file : Option String) : a.Lays s b [l.leaf file] :=
  h.leaf hl (Lexeme.bare_leaf file l) (tree_lexeme _ _ file hl).1 (tree_lexeme _ _ file hl).2

/-- Trees of the source are printed. -/
theorem Reads.lays {file : Option String} {cs rest : List Char} {ts : List Tree}
    (h : Reads file p cs ts q rest) (hp : s.drop p.offset = cs) (ha : a.Opens s p) :
    ∃ b, b.Opens s q ∧ a.Lays s b ts := by
  induction h generalizing a with
  | nil => exact ⟨a, ha, .nil⟩
  | @leaf p q gap text mid rest cls t ts hg ht hl he _ ih =>
    have hstep := ha.step (r := (cls, String.ofList text)) (by simpa using hp) hg (by simpa using ht)
    rw [String.toList_ofList] at hstep
    have hleaf := Spot.Steps.lexeme (l := ⟨cls, String.ofList text, p.advance gap, _⟩) hstep hl file
    obtain ⟨c, hc, hlays⟩ := ih (Position.drop_advance (Position.drop_advance hp))
      (.inl (Spot.near_token _ _))
    exact ⟨c, hc, he ▸ hleaf.append hlays⟩
  | @group p q r gap opening inner gap' closing mid rest d children ts hg ho hr hg' hc _ ihin ih =>
    obtain ⟨rfl, hd⟩ := ho.opening
    obtain ⟨rfl, -⟩ := hc.closing
    obtain ⟨hopen, hclose⟩ := ends_between file hd (p.advance gap) (q.advance gap')
    have hinner := Position.drop_advance (Position.drop_advance hp)
    have hq := hr.drop_stop hinner
    have hopened := ha.step (r := (.opening d, d.opening)) hp hg ho
    obtain ⟨c, hc', hlays⟩ := ihin hinner (.inl (Spot.near_token _ _))
    have hclosed := hc'.step (r := (.closing d, d.closing)) hq hg' hc
    obtain ⟨e, he, hrest⟩ := ih (Position.drop_advance (Position.drop_advance hq))
      (.inl (Spot.near_token _ _))
    refine ⟨e, he, .append (.group hd ?_ hlays ?_) hrest⟩
    · rw [hopen]
      exact hopened
    · rw [hclose]
      exact hclosed

/-! ## The parts of a declaration -/

/-- The printer is done with a part of a declaration that ends at a position of the source. -/
def Spot.Ends (s : List Char) (a : Spot) (q : Position) : Prop := a.TakesMark s ∧ a.behind ≤ q.offset

theorem Spot.Opens.ends (h : a.Opens s p) (hle : p.offset ≤ q.offset) : a.Ends s q :=
  ⟨h.takesMark, h.behind_le.trans hle⟩

/-- Where the first trees stand in the source, the second ones can be printed. -/
def Supplies (s : List Char) (file : Option String) (ts us : List Tree) : Prop :=
  ∀ (p q : Position) (cs rest : List Char) (a : Spot), Reads file p cs ts q rest →
    s.drop p.offset = cs → a.Opens s p → ∃ b : Spot, b.Ends s q ∧ a.Lays s b us

variable {file : Option String}

theorem supplies_nil (ts : List Tree) : Supplies s file ts [] :=
  fun _ _ _ _ a hr _ ha => ⟨a, ha.ends hr.offset_le, .nil⟩

/-- What comes behind the trees that are printed is passed over. -/
theorem Supplies.pass_over {ts us : List Tree} (h : Supplies s file ts us) (more : List Tree) :
    Supplies s file (ts ++ more) us := by
  intro p q cs rest a hr hp ha
  obtain ⟨q', mid, hts, hmore⟩ := hr.append_inv
  obtain ⟨b, hb, hlays⟩ := h _ _ _ _ a hts hp ha
  exact ⟨b, ⟨hb.1, hb.2.trans hmore.offset_le⟩, hlays⟩

/-- Trees of the source are printed themselves, with what comes behind them. -/
theorem Supplies.behind {ts us : List Tree} (h : Supplies s file ts us) (front : List Tree) :
    Supplies s file (front ++ ts) (front ++ us) := by
  intro p q cs rest a hr hp ha
  obtain ⟨q', mid, hfront, hts⟩ := hr.append_inv
  obtain ⟨b, hb, hlays⟩ := hfront.lays hp ha
  obtain ⟨c, hc, hlays'⟩ := h _ _ _ _ b hts (hfront.drop_stop hp) hb
  exact ⟨c, hc, hlays.append hlays'⟩

/-- A mark is put in for a tree of the source. -/
theorem Supplies.mark {ts us ts' us' : List Tree} {t : Tree} {op : String} (h : Supplies s file ts us)
    (hop : (.punct, op) ∈ declaredMarks) (h' : Supplies s file ts' us') :
    Supplies s file (ts ++ t :: ts') (us ++ .mark op :: us') := by
  intro p q cs rest a hr hp ha
  obtain ⟨p₁, cs₁, hts, hr⟩ := hr.append_inv
  obtain ⟨p₂, cs₂, ht, hts'⟩ := hr.cons_inv
  obtain ⟨b, hb, hlays⟩ := h _ _ _ _ a hts hp ha
  have hmark := hb.1.mark hop (hb.2.trans ht.offset_le)
  obtain ⟨c, hc, hlays'⟩ := h' _ _ _ _ _ hts' (ht.drop_stop (hts.drop_stop hp))
    (.inr ⟨Spot.loose_made _ _, Nat.le_refl _⟩)
  exact ⟨c, hc, hlays.append (hmark.append hlays')⟩

theorem supplies_self (ts : List Tree) : Supplies s file ts ts := by
  simpa using (supplies_nil []).behind ts

/-- There is no gap between two tokens that meet in the source. -/
theorem gap_next (left right : Piece) (n : Nat) :
    State.gap (folding s) ⟨some left, some (n : Int), false⟩ right (some (n : Int)) = [] := by
  have hgap : sourceGap (some s) (some (n : Int)) (some (n : Int)) = some [] := by
    simp [sourceGap, slice_natCast, isTrivia, Readings.initial, Readings.accepting]
  simp only [State.gap, folding, hgap]
  rfl

/-- The `>` of a glued token are printed without a gap between them. -/
theorem anglePieces_chunks {op : String} {n : Nat} (hop : gluedAngles? op = some n) (i j : Position)
    (file : Option String) (st : State) :
    treesChunks (folding s) (anglePieces (Span.between file i j) n) st =
        gapChunk (st.gap (folding s) angleWord.piece (some (i.offset : Int))) ++
          List.replicate n (.token angleWord.piece) ∧
      ∃ stop, (trees (folding s) (anglePieces (Span.between file i j) n) st).2 =
        ⟨some angleWord.piece, stop, false⟩ := by
  rcases gluedAngles?_cases hop with ⟨rfl, rfl⟩ | ⟨rfl, rfl⟩
  · refine ⟨?_, _, rfl⟩
    simp [anglePieces, treesChunks, treeChunks, emitChunks, Span.charAt, Span.between, angleWord,
      Word.piece]
  · have hgap := gap_next (s := s) ⟨.punct, ">"⟩ ⟨.punct, ">"⟩ (i.offset + 1)
    rw [Int.natCast_add, Int.natCast_one] at hgap
    refine ⟨?_, _, rfl⟩
    simp [anglePieces, List.range_succ, treesChunks, treeChunks, tree, emit, emitChunks, Span.charAt,
      Span.between, angleWord, Word.piece, hgap]

theorem spells_anglePieces (span : Span) (n : Nat) :
    Spells (List.replicate n angleWord) (anglePieces span n) := by
  have hmap (is : List Nat) : Spells (List.replicate is.length angleWord)
      (is.map fun i => .punct ">" (span.charAt i)) := by
    induction is with
    | nil => exact .nil
    | cons i is ih => exact .leaf rfl rfl ih
  simpa [anglePieces] using hmap (List.range n)

/-- The `>` of a glued token are printed in its place. -/
theorem supplies_anglePieces {op : String} {n : Nat} (hop : gluedAngles? op = some n) (span : Span) :
    Supplies s file [.punct op span] (anglePieces span n) := by
  intro p q cs rest a hr hp ha
  obtain ⟨gap, text, mid, cls, rfl, hg, ht, hl, he, hend⟩ := hr.leaf_inv (by simp)
  obtain ⟨rfl, rfl, rfl⟩ : cls = .punct ∧ op = String.ofList text ∧
      span = Span.between file (p.advance gap) ((p.advance gap).advance text) :=
    Lexeme.leaf_eq_punct (l := ⟨cls, _, _, _⟩) hl he.symm
  cases hend
  obtain ⟨hchunks, stop, hstate⟩ := anglePieces_chunks (s := s) hop (p.advance gap)
    ((p.advance gap).advance text) file a.state
  refine ⟨⟨⟨some angleWord.piece, stop, false⟩, false, angleWord,
    ((p.advance gap).advance text).offset⟩, ⟨fun piece => ?_, Nat.le_refl _⟩, hstate, _,
    spells_anglePieces _ n, fun chunks more hmore => ?_⟩
  · simp [State.gap, folding, sourceGap]
  · have hrest := Position.drop_advance (Position.drop_advance hp)
    have htold : Retold false angleWord rest chunks more := hrest ▸ hmore
    rw [hchunks, List.append_assoc]
    exact .angles hop (by simpa using ha.seam hp hg angleWord) (by simpa using ht) htold

/-- The type of an entry is printed. -/
theorem CutFrom.supplies {type value ts : List Tree} (h : CutFrom type value ts) :
    Supplies s file ts type := by
  cases h with
  | apart => exact (supplies_self type).pass_over _
  | @glued front op span n hop htype =>
    rw [htype, List.append_cons, List.append_assoc]
    exact ((supplies_anglePieces hop span).pass_over value).behind front

/-- The attributes, the name and the type of a named entry. -/
theorem NamedField.CutFrom.supplies {f : NamedField} {ts : List Tree} (h : f.CutFrom ts) :
    Supplies s file ts f.declared := by
  obtain ⟨colon, us, rfl, hus⟩ := h
  have hname : Supplies s file ([f.name.tree] ++ .punct ":" colon :: us)
      ([f.name.tree] ++ .mark ":" :: f.type) := (supplies_self _).mark (by decide) hus.supplies
  exact hname.behind (attributeTrees f.attributes)

theorem UnnamedField.CutFrom.supplies {f : UnnamedField} {ts : List Tree} (h : f.CutFrom ts) :
    Supplies s file ts f.declared := by
  obtain ⟨us, rfl, hus⟩ := h
  exact hus.supplies.behind (attributeTrees f.attributes)

section

variable {α : Type} {written : α → List Tree → Prop} {declared : α → List Tree} {xs : List α}
  (hentry : ∀ x ts, written x ts → Supplies s file ts (declared x))
include hentry

/-- Entries with commas between them. -/
theorem Joined.supplies {ts : List Tree} (h : Joined written xs ts) :
    Supplies s file ts (separated "," (xs.map declared)) := by
  induction h with
  | nil => exact supplies_nil []
  | last hx => exact hentry _ _ hx
  | trailing hx => exact (hentry _ _ hx).pass_over _
  | cons hx _ ih => exact (hentry _ _ hx).mark (by decide) ih

/-- A group of entries, with brackets that are put in. -/
theorem Joined.supplies_group {inner : List Tree} {d : Delimiter} {span : Span}
    (h : Joined written xs inner) (hd : d = .brace ∨ d = .paren) :
    Supplies s file [.group d inner span] [listGroup d (xs.map declared)] := by
  intro p q cs rest a hr hp ha
  obtain ⟨gap, opening, cs', q', gap', closing, mid, rfl, -, -, hinner, -, -, -, hend⟩ := hr.group_inv
  cases hend
  have hinside := Position.drop_advance (Position.drop_advance hp)
  have hopening : (.opening d, d.opening) ∈ declaredMarks := by rcases hd with rfl | rfl <;> decide
  have hclosing : (.closing d, d.closing) ∈ declaredMarks := by rcases hd with rfl | rfl <;> decide
  have hopen := ha.takesMark.step hopening (n := ((p.advance gap).advance opening).offset)
    (ha.behind_le.trans (by simp; omega))
  obtain ⟨c, hc, hlays⟩ := h.supplies hentry _ _ _ _ _ hinner hinside
    (.inr ⟨Spot.loose_made _ _, Nat.le_refl _⟩)
  have hclose := hc.1.step hclosing (n := ((q'.advance gap').advance closing).offset)
    (hc.2.trans (by simp; omega))
  refine ⟨_, ⟨?_, Nat.le_refl _⟩, .group (by rcases hd with rfl | rfl <;> decide) hopen hlays hclose⟩
  exact fun piece => Spot.loose_made _ _ piece none

end

theorem Fields.CutFrom.supplies {fields : Fields} {ts : List Tree} (h : fields.CutFrom ts) :
    Supplies s file ts fields.declared := by
  cases fields with
  | unit => exact supplies_nil ts
  | named fs =>
    obtain ⟨inner, span, rfl, hjoined⟩ := h
    show Supplies s file _ [listGroup .brace (fs.map NamedField.declared)]
    exact hjoined.supplies_group (fun _ _ hf => hf.supplies) (.inl rfl)
  | unnamed fs =>
    obtain ⟨inner, span, rfl, hjoined⟩ := h
    show Supplies s file _ [listGroup .paren (fs.map UnnamedField.declared)]
    exact hjoined.supplies_group (fun _ _ hf => hf.supplies) (.inr rfl)

theorem IsDiscriminant.supplies {v : Variant} {fields discriminant : List Tree} {group : List Tree}
    (h : IsDiscriminant v.discriminant discriminant) (hf : Supplies s file group fields) :
    Supplies s file (group ++ discriminant) (fields ++ v.declaredDiscriminant) := by
  unfold Variant.declaredDiscriminant
  cases hd : v.discriminant with
  | none =>
    rw [List.append_nil]
    exact hf.pass_over _
  | some value =>
    rw [hd] at h
    obtain ⟨-, span, rfl⟩ := h
    exact hf.mark (by decide) (supplies_self value)

/-! ## The name -/

theorem Lexeme.leaf_eq_ident {l : Lexeme} {name : String} {span : Span} (hl : l.cls.isLeaf = true)
    (h : .ident name span = l.leaf file) : l.cls = .name ∧ name = l.text := by
  obtain ⟨cls, text, start, stop⟩ := l
  cases cls with
  | name => exact ⟨rfl, (Tree.ident.inj h).1⟩
  | opening | closing => cases hl
  | _ => simp [Lexeme.leaf] at h

/-- A visibility that is not empty is read from a `pub` on. -/
theorem Reads.visibility_inv {visibility : List Tree} {p₁ : Position} {cs mid : List Char}
    (h : Reads file p cs visibility p₁ mid) (hv : IsVisibility visibility) (hne : visibility ≠ []) :
    ∃ gap more, Gap gap ∧ cs = gap ++ ("pub".toList ++ (more ++ mid)) ∧
      p₁ = p.advance (gap ++ ("pub".toList ++ more)) ∧ IsToken .name "pub".toList (more ++ mid) := by
  obtain ⟨t, us, rfl⟩ := List.exists_cons_of_ne_nil hne
  obtain ⟨span, rfl⟩ := hv.head_eq
  obtain ⟨gap, text, rest, cls, rfl, hg, ht, hl, he, hr⟩ := h.leaf_inv (by simp)
  obtain ⟨more, rfl, rfl⟩ := hr.exists_append
  obtain ⟨rfl, htext⟩ : cls = .name ∧ "pub" = String.ofList text :=
    Lexeme.leaf_eq_ident (l := ⟨cls, _, _, _⟩) hl he
  obtain rfl : text = "pub".toList := by rw [htext, String.toList_ofList]
  exact ⟨gap, more, hg, rfl, by rw [Position.advance_append, Position.advance_append], ht⟩

/-- A name is printed behind a visibility that is passed over. -/
theorem Spot.Opens.step_name {visibility : List Tree} {p₁ : Position} {cs gap rest : List Char}
    {name : String} (ha : a.Opens s p) (hv : IsVisibility visibility)
    (hr : Reads file p cs visibility p₁ (gap ++ (name.toList ++ rest))) (hp : s.drop p.offset = cs)
    (hg : Gap gap) (ht : IsToken .name name.toList rest) (hne : name ≠ "pub") :
    a.Steps s (token (.name, name) ((p₁.advance gap).advance name.toList)) (.name, name)
      (some ((p₁.advance gap).offset : Int))
      (some (((p₁.advance gap).advance name.toList).offset : Int)) := by
  have hp₁ := hr.drop_stop hp
  have hpast (h : a.Opens s p₁) := h.step (r := (.name, name)) hp₁ hg ht
  by_cases hnil : visibility = []
  · subst hnil
    cases hr
    exact hpast ha
  rcases ha with h | ⟨h, hle⟩
  · obtain ⟨gap₁, more, hg₁, rfl, rfl, hpub⟩ := hr.visibility_inv hv hnil
    have hskip : s.drop p.offset =
        ((gap₁ ++ ("pub".toList ++ more)) ++ gap) ++ (name.toList ++ rest) := by
      rw [hp]
      simp only [List.append_assoc]
    refine steps_token fun chunks words hmore => ?_
    rw [Position.drop_advance (Position.drop_advance hp₁)] at hmore
    have hcases := h.gap_cases hskip (Word.piece (.name, name))
    rw [Position.advance_append p] at hcases
    unfold Retells
    rcases hcases with hgap | hgap
    · -- the visibility is hidden in what looks like a comment
      rw [hgap, h.near, h.behind, hp]
      have hshown := @Retold.shown a.word gap₁ (more ++ gap) rest name chunks words hg₁
        (by simpa using hpub) ht hne hmore
      simpa [gapChunk] using hshown
    · refine .token (.inr ⟨hgap, ?_⟩) ht hmore
      rw [h.behind, hskip]
      exact List.suffix_append _ _
  · exact hpast (.inr ⟨h, hle.trans hr.offset_le⟩)

/-- The name of a variant is printed, and a visibility in front of it is passed over. -/
theorem Supplies.name {visibility ts us : List Tree} {name : Name} (h : Supplies s file ts us)
    (hv : IsVisibility visibility) (hk : isKeyword name.text = false) :
    Supplies s file (visibility ++ name.tree :: ts) (name.tree :: us) := by
  intro p q cs rest a hr hp ha
  obtain ⟨p₁, cs₁, hvisibility, hr⟩ := hr.append_inv
  obtain ⟨gap, text, mid, cls, rfl, hg, ht, hl, he, hr⟩ := hr.leaf_inv (by simp [Name.tree])
  obtain ⟨rfl, htext⟩ : cls = .name ∧ name.text = String.ofList text :=
    Lexeme.leaf_eq_ident (l := ⟨cls, _, _, _⟩) hl he
  have hp₁ := hvisibility.drop_stop hp
  have hstep : a.Steps s (.token (.name, String.ofList text) ((p₁.advance gap).advance text))
      (.name, String.ofList text) (some ((p₁.advance gap).offset : Int))
      (some (((p₁.advance gap).advance text).offset : Int)) := by
    have hpub : String.ofList text ≠ "pub" := by
      rintro hpub
      rw [htext, hpub] at hk
      exact absurd hk (by decide)
    simpa using ha.step_name hv (by simpa using hvisibility) hp hg (by simpa using ht) hpub
  have hlays := Spot.Steps.lexeme (l := ⟨.name, String.ofList text, p₁.advance gap, _⟩) hstep rfl file
  obtain ⟨c, hc, hrest⟩ := h _ _ _ _ _ hr (Position.drop_advance (Position.drop_advance hp₁))
    (.inl (Spot.near_token _ _))
  exact ⟨c, hc, he ▸ hlays.append hrest⟩

/-- The contents of a marker are printed as its declaration. -/
theorem Variant.CutFrom.supplies {v : Variant} {contents : List Tree} (h : v.CutFrom contents) :
    Supplies s file contents v.declaration.allTrees := by
  obtain ⟨visibility, group, discriminant, rfl, hv, hk, hfields, hd⟩ := h
  exact ((hd.supplies hfields.supplies).name hv hk).behind (attributeTrees v.attributes)

end

/-! ## Reading a declaration -/

/-- What is printed of a declaration, piece by piece. -/
def Declaration.chunks (d : Declaration) (s : List Char) : List Chunk :=
  treesChunks (folding s) d.allTrees {}

theorem Declaration.textOf_chunks (d : Declaration) (s : List Char) :
    textOf (d.chunks s) = d.render (some s) := textOf_treesChunks _ _ _

/-- A declaration is retold from the text of its marker. -/
theorem Variant.retold_declaration {s : List Char} {file : Option String} {v : Variant}
    (h : Variant.parseSource s file = .ok v) :
    ∃ words, Spells words v.declaration.allTrees ∧
      Retold false Spot.start.word s (v.declaration.chunks s) words := by
  unfold Variant.parseSource at h
  cases htrees : tokenize s file with
  | error e => simp [htrees] at h
  | ok contents =>
    rw [htrees] at h
    obtain ⟨q, rest, hr, -⟩ := tokenize_reads htrees
    obtain ⟨b, -, -, words, hspells, htold⟩ := (Variant.cutFrom_of_parse h).supplies (s := s) _ _ _ _
      Spot.start hr rfl (.inr ⟨Spot.loose_start, Nat.zero_le _⟩)
    have hnil := htold [] [] .nil
    rw [List.append_nil, List.append_nil] at hnil
    exact ⟨words, hspells, hnil⟩

/-- The text of a declaration is read as its trees, up to spans. -/
def Declaration.ReadsBack (d : Declaration) (s : List Char) (file : Option String) : Prop :=
  ∃ us, tokenize (d.render (some s)) file = .ok us ∧ bareOf us = bareOf d.allTrees

theorem Variant.readsBack_iff {s : List Char} {file : Option String} {v : Variant}
    (h : Variant.parseSource s file = .ok v) (hs : swallows (v.declaration.chunks s) = false)
    (file' : Option String) :
    v.declaration.ReadsBack s file' ↔ misread (v.declaration.chunks s) = false := by
  obtain ⟨words, hspells, htold⟩ := Variant.retold_declaration h
  rw [← htold.tokenize_iff hspells hs file', Declaration.textOf_chunks]
  rfl

/-- The text of a declaration is read as the trees of the declaration exactly if no token takes in what
is printed behind it and no gap shows tokens. This is so as long as no `/*` has become a comment that was
none, which cannot happen if every `/*` of the marker begins a comment. -/
theorem Variant.declaration_readsBack_iff {s : List Char} {file : Option String} {v : Variant}
    (h : Variant.parseSource s file = .ok v) :
    (swallows (v.declaration.chunks s) = false → ∀ file',
      (v.declaration.ReadsBack s file' ↔ misread (v.declaration.chunks s) = false)) ∧
    (CommentsClosed s → swallows (v.declaration.chunks s) = false) := by
  refine ⟨Variant.readsBack_iff h, fun hc => ?_⟩
  obtain ⟨words, -, htold⟩ := Variant.retold_declaration h
  exact htold.swallows_eq_false hc

/-- Line breaks in an attribute and in front of a visibility, and a type that ends in a glued `>>=`. -/
theorem Variant.declaration_readsBack_folded :
    let s := "#[a(b:\nc)]\npub A\x7bx:V<V<u8>>=1\x7d=2".toList
    ∃ v, Variant.parseSource s = .ok v ∧ CommentsClosed s ∧
      misread (v.declaration.chunks s) = false ∧
      String.ofList (v.declaration.render (some s)) = "#[a(b: c)] A \x7b x: V<V<u8>> \x7d = 2" ∧
      v.declaration.ReadsBack s none := by
  intro s
  have hc : CommentsClosed s := by
    intro rest hsuffix
    exact absurd (hsuffix.subset List.mem_cons_self) (by decide : '/' ∉ s)
  have hread : (Variant.parseSource s).map (fun v => (misread (v.declaration.chunks s),
      String.ofList (v.declaration.render (some s)))) =
        .ok (false, "#[a(b: c)] A \x7b x: V<V<u8>> \x7d = 2") := by
    decide +kernel
  cases hv : Variant.parseSource s with
  | error e =>
    rw [hv] at hread
    cases hread
  | ok v =>
    rw [hv] at hread
    obtain ⟨hmis, htext⟩ := Prod.mk.inj (Except.ok.inj hread)
    obtain ⟨hiff, hswallows⟩ := Variant.declaration_readsBack_iff hv
    exact ⟨v, rfl, hc, hmis, htext, (hiff (hswallows hc) none).2 hmis⟩

/-- A declaration in which something is misread, with the text that is printed. -/
theorem Variant.not_readsBack_of_misread {s : List Char} {text : String}
    (h : (Variant.parseSource s).map (fun v => (swallows (v.declaration.chunks s),
      misread (v.declaration.chunks s), String.ofList (v.declaration.render (some s)))) =
        .ok (false, true, text)) :
    ∃ v, Variant.parseSource s = .ok v ∧ String.ofList (v.declaration.render (some s)) = text ∧
      ¬ v.declaration.ReadsBack s none := by
  cases hv : Variant.parseSource s with
  | error e =>
    rw [hv] at h
    cases h
  | ok v =>
    rw [hv] at h
    obtain ⟨hs, hrest⟩ := Prod.mk.inj (Except.ok.inj h)
    obtain ⟨hmis, htext⟩ := Prod.mk.inj hrest
    refine ⟨v, rfl, htext, ?_⟩
    rw [Variant.readsBack_iff hv hs, hmis]
    exact Bool.noConfusion

/-- Two `:` become one token when the line break between them is folded; a visibility between comments is
copied with them; and a `/*` is closed when the value that opened another is left out. -/
theorem Variant.declaration_not_readsBack :
    (let s := "#[a(b:\n:c)] A".toList
     ∃ v, Variant.parseSource s = .ok v ∧
       String.ofList (v.declaration.render (some s)) = "#[a(b::c)] A" ∧
       ¬ v.declaration.ReadsBack s none) ∧
    (let s := "#[a] /*c*/ pub /*d*/ A".toList
     ∃ v, Variant.parseSource s = .ok v ∧
       String.ofList (v.declaration.render (some s)) = "#[a] /*c*/ pub /*d*/ A" ∧
       ¬ v.declaration.ReadsBack s none) ∧
    (let s := "#[a(/*)]A(u8=\"/*\",#[b(*/)]u8=2)".toList
     ∃ v, Variant.parseSource s = .ok v ∧
       String.ofList (v.declaration.render (some s)) = "#[a(/*)]A(u8, #[b(*/)]u8)" ∧
       ¬ v.declaration.ReadsBack s none) := by
  refine ⟨Variant.not_readsBack_of_misread (by decide +kernel),
    Variant.not_readsBack_of_misread (by decide +kernel), ?_⟩
  intro s
  have hread : (Variant.parseSource s).map (fun v => String.ofList (v.declaration.render (some s))) =
      .ok "#[a(/*)]A(u8, #[b(*/)]u8)" := by
    decide +kernel
  have hstuck : (tokenize "#[a(/*)]A(u8, #[b(*/)]u8)".toList).toBool = false := by decide +kernel
  cases hv : Variant.parseSource s with
  | error e =>
    rw [hv] at hread
    cases hread
  | ok v =>
    rw [hv] at hread
    have htext : String.ofList (v.declaration.render (some s)) = "#[a(/*)]A(u8, #[b(*/)]u8)" :=
      Except.ok.inj hread
    refine ⟨v, rfl, htext, ?_⟩
    rintro ⟨us, hus, -⟩
    rw [← htext, String.toList_ofList, hus] at hstuck
    cases hstuck

end InlineVariants
