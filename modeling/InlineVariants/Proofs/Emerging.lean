import InlineVariants.Proofs.Accounting
import InlineVariants.Proofs.Overlapping
import InlineVariants.Proofs.Rejoining

/-!
# The expanded text, piece by piece

An expanded text consists of stretches of the source and of what is put in for functions: an enum, and
the function itself with another body. `Emerges` says of the trees between two positions what becomes
of their text when the edits are made, and into which words it is then cut. It is put together tree by
tree: from a leaf, from a group around what has emerged inside, and from a function that is expanded.

Main statement: `Emerges.function`.
-/

namespace InlineVariants

open Text Lexeme

/-! ## What is put in -/

/-- The text can be read on its own, up to its end, and no token in it may grow. -/
def Legible (text : List Char) (ts : List Tree) : Prop :=
  Definite text ∧ ∃ q, Reads none .first text ts q []

/-- Legible text that ends with a group is cut in front of any text as it is on its own. -/
theorem Legible.cut {text : List Char} {ts : List Tree} (h : Legible text ts) {d : Delimiter}
    {inner : List Tree} {span : Span} (hlast : ts.getLast? = some (.group d inner span)) :
    ∃ words, Spells words ts ∧ ∀ new, Cut (text ++ new) words new := by
  obtain ⟨hd, q, hr⟩ := h
  obtain ⟨taken, words, htext, -, hspells, -, hcut⟩ := hr.run rfl hd
  rw [List.append_nil] at htext
  subst htext
  exact ⟨words, hspells, fun new => (hcut new (.inr ⟨d, inner, span, hlast⟩)).1⟩

namespace FunctionHeader

/-- The enum of a function. -/
def outline (header : FunctionHeader) (options : Options) (enum : String) : EnumOutline where
  name := enum
  options := options
  visibility := header.visibility
  declarations := (Walker.walk { enum } {} header.body).1.declarations

/-- The text of the new body of a function. -/
def bodyText (header : FunctionHeader) (source : List Char) (enum : String) : List Char :=
  render [.group .brace (Walker.walk { enum } {} header.body).2 header.bodySpan] (some source)

theorem bodyText_eq_cons (header : FunctionHeader) (source : List Char) (enum : String) :
    ∃ more, header.bodyText source enum = Delimiter.brace.opening.toList ++ more := ⟨_, rfl⟩

end FunctionHeader

theorem Item.replacement_expanded (item : Item) (source : List Char) (header : FunctionHeader)
    (options : Options) (enum : String) :
    (item.expanded source header options enum).edit.replacement =
      (header.outline options enum).text source (lineIndent source item.start) ++
        ('\n' :: '\n' :: lineIndent source item.start ++
          (slice source item.start item.pound.startOffset ++
            (slice source item.tagStop header.bodySpan.startOffset ++
              header.bodyText source enum))) := by
  simp [expanded, functionText, FunctionHeader.outline, FunctionHeader.bodyText]

theorem gap_lineIndent (source : List Char) (offset : Nat) :
    Gap ('\n' :: Item.lineIndent source offset) := by
  have hblank : ∀ cs : List Char, cs.all isBlank = true → Gap cs := by
    intro cs h
    induction cs with
    | nil => exact .nil
    | cons c cs ih =>
      rw [List.all_cons, Bool.and_eq_true] at h
      exact .blank h.1 (ih h.2)
  refine .blank (by decide) (hblank _ ?_)
  unfold Item.lineIndent
  simp only
  split
  · assumption
  · rfl

/-! ## What emerges -/

/-- Whether any text may follow a tree: it is a group or a `;`. -/
def Tree.isClosed : Tree → Bool
  | .group _ _ _ => true
  | t => t.isPunct ";"

/-- Whether any text may follow the trees in front of a place: there are none, or it may follow the last
one. -/
def Item.anyFollows : List Tree → Bool
  | [] => true
  | t :: _ => t.isClosed

/-- With the edits made, the text between two positions is cut into the words of the trees. -/
structure Emerges (s : List Char) (behind : List Tree) (p q : Position) (edits : List Edit)
    (us : List Tree) : Prop where
  within : Edit.Within q.offset p.offset edits
  cut : ∃ words, Spells words us ∧ ∀ tail, Sees (s.drop q.offset) tail →
    Cut (Edit.substituted s q.offset p.offset edits ++ tail) words tail ∧
    (Item.anyFollows behind = false →
      Sees (s.drop p.offset) (Edit.substituted s q.offset p.offset edits ++ tail))

namespace Emerges

variable {file : Option String} {s : List Char} {behind us us' : List Tree} {p q r : Position}
  {edits edits' : List Edit}

theorem nil (s : List Char) (behind : List Tree) (p : Position) : Emerges s behind p p [] [] where
  within := Nat.le_refl _
  cut := by
    refine ⟨[], .nil, fun tail htail => ?_⟩
    have hnil : Edit.substituted s p.offset p.offset [] = [] := by simp [Edit.substituted, slice_natCast]
    rw [hnil]
    exact ⟨.nil, fun _ => htail⟩

theorem of_nil {cs rest : List Char} (h : Reads file p cs [] q rest) : Emerges s behind p q [] [] := by
  cases h
  exact nil s behind p

/-- A leaf that any text may follow is a `;`. -/
theorem isClosed_leaf {cls : LexemeClass} {text : List Char} {a b : Position}
    (h : (Lexeme.leaf file ⟨cls, String.ofList text, a, b⟩).isClosed = true) : text = [';'] := by
  have hop : String.ofList text = ";" := by
    cases cls with
    | punct | opening _ | closing _ => simpa [Lexeme.leaf, Tree.isClosed, Tree.isPunct] using h
    | _ => simp [Lexeme.leaf, Tree.isClosed, Tree.isPunct] at h
  rw [← String.toList_ofList (l := text), hop]
  rfl

/-- A leaf is found in front of another text, if that tells the scanner no more than the old one did; a
`;` is found in front of any text. -/
theorem leaf_stays {cls : LexemeClass} {text mid new : List Char} {a b : Position}
    (ht : IsToken cls text mid) (hgrow : mayGrow text mid = false)
    (h : (Lexeme.leaf file ⟨cls, String.ofList text, a, b⟩).isClosed = false → Sees mid new) :
    IsToken cls text new ∧ Sees (text ++ mid) (text ++ new) := by
  by_cases hclosed : (Lexeme.leaf file ⟨cls, String.ofList text, a, b⟩).isClosed = true
  · obtain rfl := isClosed_leaf hclosed
    have hsole : (';', LexemeClass.punct) ∈ soleMarks := by decide
    have htoken := (isToken_sole hsole mid).token.symm.trans ht.token
    obtain ⟨rfl, -⟩ := Prod.mk.inj (Option.some.inj htoken)
    exact ⟨isToken_sole hsole _, .sole hsole⟩
  · have hsees := h (Bool.of_not_eq_true hclosed)
    exact ⟨ht.stays hsees hgrow, hsees.token_append ht⟩

theorem leaf {gap text mid : List Char} {cls : LexemeClass} {t : Tree} (hg : Gap gap)
    (ht : IsToken cls text mid) (hl : cls.isLeaf = true)
    (he : t = Lexeme.leaf file ⟨cls, String.ofList text, p.advance gap, (p.advance gap).advance text⟩)
    (hp : s.drop p.offset = gap ++ (text ++ mid)) (hgrow : mayGrow text mid = false)
    (h : Emerges s (t :: behind) ((p.advance gap).advance text) q edits us) :
    Emerges s behind p q edits (t :: us) := by
  have htext := Position.drop_advance hp
  have hmid := Position.drop_advance htext
  obtain ⟨hw, hsub⟩ := Edit.substituted_advance htext h.within
  obtain ⟨hw', hsub'⟩ := Edit.substituted_advance hp hw
  obtain ⟨words, hspells, hcut⟩ := h.cut
  refine ⟨hw', (cls, String.ofList text) :: words, .leaf hl (by rw [he, Lexeme.bare_leaf]; rfl) hspells,
    fun tail htail => ?_⟩
  obtain ⟨hcut, hsees⟩ := hcut tail htail
  rw [hmid, he] at hsees
  obtain ⟨htoken, hsees⟩ := leaf_stays ht hgrow hsees
  rw [hsub', hsub, hp]
  simp only [List.append_assoc]
  exact ⟨.gap hg (.token htoken hcut), fun _ => hsees.gap_append hg⟩

theorem group {gap inner gap' mid : List Char} {d : Delimiter} {children : List Tree} {span : Span}
    (hg : Gap gap) (hne : d ≠ .invisible) (hp : s.drop p.offset = gap ++ (d.opening.toList ++ inner))
    (hg' : Gap gap') (hr : s.drop r.offset = gap' ++ (d.closing.toList ++ mid))
    (hin : Emerges s [] ((p.advance gap).advance d.opening.toList) r edits us)
    (h : Emerges s (.group d children span :: behind) ((r.advance gap').advance d.closing.toList) q
      edits' us') :
    Emerges s behind p q (edits ++ edits') (.group d us span :: us') := by
  have hclosing := Position.drop_advance hr
  have hopening := Position.drop_advance hp
  obtain ⟨hw, hsub⟩ := Edit.substituted_advance hclosing h.within
  obtain ⟨hw, hsub'⟩ := Edit.substituted_advance hr hw
  have happend := Edit.substituted_append s hin.within hw
  obtain ⟨hw, hsub₁⟩ := Edit.substituted_advance hopening (hin.within.append hw)
  obtain ⟨hw, hsub₂⟩ := Edit.substituted_advance hp hw
  obtain ⟨words, hspells, hcut⟩ := hin.cut
  obtain ⟨words', hspells', hcut'⟩ := h.cut
  refine ⟨hw, _, .group hspells hspells', fun tail htail => ?_⟩
  have hinner := (hcut (gap' ++ (d.closing.toList ++ (Edit.substituted s q.offset
    ((r.advance gap').advance d.closing.toList).offset edits' ++ tail))) <| by
      rw [hr]
      exact Sees.gap_append (.closing hne) hg').1
  have hall := (Cut.group hne hg hg' hinner).append (hcut' tail htail).1
  rw [hsub₂, hsub₁, happend, hsub', hsub, hp]
  simp only [List.append_assoc, List.cons_append, List.nil_append] at hall ⊢
  exact ⟨hall, fun _ => Sees.gap_append (.opening hne) hg⟩

/-- Over a leaf that is read. -/
theorem over_leaf (behind : List Tree) {t : Tree} {ts : List Tree}
    (hr : Reads file p (s.drop p.offset) (t :: ts) q (s.drop q.offset))
    (ht : ∀ d inner span, t ≠ .group d inner span) (hd : DefiniteFrom s p (s.drop p.offset)) :
    ∃ r, t.span.stopOffset = r.offset ∧ Reads file r (s.drop r.offset) ts q (s.drop q.offset) ∧
      DefiniteFrom s r (s.drop r.offset) ∧
      ∀ edits us, Emerges s (t :: behind) r q edits us → Emerges s behind p q edits (t :: us) := by
  obtain ⟨gap, text, mid, cls, hp, hg, htoken, hleaf, he, hr⟩ :=
    hr.leaf_inv fun d inner span h => absurd h (ht d inner span)
  have htext := Position.drop_advance hp
  rw [hp] at hd
  obtain ⟨hgrow, hd⟩ := (hd.gap hg).token htoken htext
  rw [← Position.drop_advance htext] at hr hd
  exact ⟨_, by rw [he]; cases cls <;> rfl, hr, hd, fun edits us => leaf hg htoken hleaf he hp hgrow⟩

/-- Over a group that is read, with what emerges in it. -/
theorem over_group (behind : List Tree) {d : Delimiter} {inner ts : List Tree} {span : Span}
    (hr : Reads file p (s.drop p.offset) (.group d inner span :: ts) q (s.drop q.offset))
    (hd : DefiniteFrom s p (s.drop p.offset)) :
    ∃ a b r, Reads file a (s.drop a.offset) inner b (s.drop b.offset) ∧
      DefiniteFrom s a (s.drop a.offset) ∧ span.stopOffset = r.offset ∧
      Reads file r (s.drop r.offset) ts q (s.drop q.offset) ∧ DefiniteFrom s r (s.drop r.offset) ∧
      ∀ edits us edits' us', Emerges s [] a b edits us →
        Emerges s (.group d inner span :: behind) r q edits' us' →
        Emerges s behind p q (edits ++ edits') (.group d us span :: us') := by
  obtain ⟨gap, opening, inside, b, gap', closing, mid, hp, hg, ho, hin, hg', hc, hspan, hr⟩ :=
    hr.group_inv
  obtain ⟨rfl, hne⟩ := ho.opening
  obtain ⟨rfl, -⟩ := hc.closing
  have hopening := Position.drop_advance hp
  have hinside := Position.drop_advance hopening
  have hb := hin.drop_stop hinside
  have hclosing := Position.drop_advance hb
  have hmid := Position.drop_advance hclosing
  rw [hp] at hd
  have hda := ((hd.gap hg).token ho hopening).2
  have hdb := hin.definite hinside hda
  have hdr := ((hdb.gap hg').token hc hclosing).2
  rw [← hinside] at hin hda
  rw [← hb] at hin
  rw [← hmid] at hr hdr
  exact ⟨_, b, _, hin, hda, by rw [hspan]; rfl, hr, hdr,
    fun edits us edits' us' => group hg hne hp hg' hb⟩

/-- The text with the edits made is read as the trees that emerge. -/
theorem tokenize {taken rest : List Char} (hs : s = taken ++ rest) (hrest : scan rest = {})
    (h : Emerges s [] .first (Position.first.advance taken) edits us) (file : Option String) :
    ∃ vs, InlineVariants.tokenize (Edit.applyAll s edits) file = .ok vs ∧ bareOf vs = bareOf us := by
  have hoffset : (Position.first.advance taken).offset = taken.length := by
    rw [Position.advance_offset]
    exact Nat.zero_add _
  obtain ⟨hw, words, hspells, hcut⟩ := h
  rw [hoffset] at hw hcut
  have hle : Edit.Within s.length taken.length [] := by simp [Edit.Within, hs]
  have htext : Edit.applyAll s edits = Edit.substituted s taken.length 0 edits ++ rest := by
    have hall := hw.append hle
    have happend := Edit.substituted_append s hw hle
    rw [List.append_nil] at hall happend
    have hslice : Edit.substituted s s.length taken.length [] = rest := by
      rw [Edit.substituted, slice_natCast]
      simp [hs]
    rw [hslice] at happend
    exact (Edit.Within.applyAll_eq hall).trans happend
  obtain ⟨gap, tail, rfl, hg, ht⟩ := scan_eq_empty_iff.1 hrest
  obtain ⟨hcut, -⟩ := hcut (gap ++ tail) (by rw [hs, List.drop_left]; exact .passed hg ht)
  obtain ⟨p, hwords, hstuck⟩ := hcut.scanFrom_eq .first
  rw [scanFrom_trailing hg ht] at hwords hstuck
  rw [htext]
  refine Spells.tokenize ?_ hstuck file
  rwa [scan, hwords, List.map_nil, List.append_nil]

end Emerges

/-! ## A function that is expanded -/

/-- The trees are those of an enum: attributes, perhaps a visibility, and the variants in braces. -/
def IsEnum (name : String) (ts : List Tree) : Prop :=
  ∃ attributes visibility variants keyword word span, IsVisibility visibility ∧
    ts = attributeTrees attributes ++ (visibility ++
      [.ident "enum" keyword, .ident name word, .group .brace variants span])

/-- The enum and the new body of a function can be read on their own. -/
structure FunctionHeader.Printed (header : FunctionHeader) (source : List Char) (start : Nat)
    (options : Options) (enum : String) (declared body : List Tree) (span : Span) : Prop where
  enumText : Legible ((header.outline options enum).text source (Item.lineIndent source start)) declared
  isEnum : IsEnum enum declared
  bodyText : Legible (header.bodyText source enum) [.group .brace body span]

/-- Directly behind what stands in front of an offset any text may follow, or a space or a line break
stands there. -/
def Item.StandsFree (s : List Char) (behind : List Tree) (start : Nat) : Prop :=
  ∀ t ∈ behind.head?, t.isClosed = true ∨
    ∃ c ∈ [' ', '\n', '\t', '\r'], (slice s t.span.stopOffset start).getLast? = some c

/-- Of an item that stands free, the text behind the gap in front of it may differ. -/
theorem Item.StandsFree.sees {s gap old new : List Char} {behind : List Tree} {start offset : Nat}
    (h : StandsFree s behind start) (hfollows : anyFollows behind = false)
    (hbehind : ∀ t ∈ behind.head?, t.span.stopOffset = offset) (hslice : slice s offset start = gap)
    (hg : Gap gap) : Sees (gap ++ old) (gap ++ new) := by
  rcases behind with _ | ⟨t, behind⟩
  · simp [anyFollows] at hfollows
  · rcases h t rfl with hclosed | ⟨c, hc, hlast⟩
    · exact absurd hclosed (Bool.eq_false_iff.1 hfollows)
    · rw [hbehind t rfl, hslice] at hlast
      obtain ⟨before, rfl⟩ := List.getLast?_eq_some_iff.1 hlast
      simpa using Sees.gap_space hg hc

theorem IsEnum.getLast? {name : String} {ts : List Tree} (h : IsEnum name ts) :
    ∃ variants span, ts.getLast? = some (.group .brace variants span) := by
  obtain ⟨attributes, visibility, variants, keyword, word, span, -, rfl⟩ := h
  exact ⟨variants, span, by simp [← List.append_assoc]⟩

theorem attributeTrees_append (attributes : List Attribute) (a : Attribute) :
    attributeTrees (attributes ++ [a]) =
      attributeTrees attributes ++ [.punct "#" a.pound, .group .bracket a.inner a.brackets] := by
  simp [attributeTrees, Attribute.trees]

theorem reverse_attributeTrees_append (attributes : List Attribute) (a : Attribute)
    (behind : List Tree) :
    (attributeTrees (attributes ++ [a])).reverse ++ behind = .group .bracket a.inner a.brackets ::
      .punct "#" a.pound :: ((attributeTrees attributes).reverse ++ behind) := by
  simp [attributeTrees_append]

/-- An item begins with the first of the attributes in front of its tag. -/
theorem leadingStart_attributeTrees {behind : List Tree} (h : Item.leadingBrackets behind = [])
    (attributes : List Attribute) (pound : Span) (more : List Tree) :
    ∃ t ts, attributeTrees attributes ++ .punct "#" pound :: more = t :: ts ∧
      Item.leadingStart ((attributeTrees attributes).reverse ++ behind) pound.startOffset =
        t.span.startOffset := by
  induction attributes using List.reverseRecOn generalizing pound more with
  | nil => exact ⟨_, _, rfl, Item.leadingStart_of_leadingBrackets h _⟩
  | append_singleton attributes a ih =>
    obtain ⟨t, ts, hts, hstart⟩ :=
      ih a.pound (.group .bracket a.inner a.brackets :: .punct "#" pound :: more)
    refine ⟨t, ts, by simpa [attributeTrees_append] using hts, ?_⟩
    rw [← hstart, reverse_attributeTrees_append]
    rfl

theorem attributeTrees_getLast? (attributes : List Attribute) : attributeTrees attributes = [] ∨
    ∃ d inner span, (attributeTrees attributes).getLast? = some (.group d inner span) := by
  rcases List.eq_nil_or_concat attributes with rfl | ⟨attributes, a, rfl⟩
  · exact .inl rfl
  · exact .inr ⟨.bracket, a.inner, a.brackets, by simp [attributeTrees_append]⟩

namespace Reads

variable {file : Option String} {s rest : List Char} {p q : Position} {t : Tree} {ts us : List Tree}

theorem startOffset (h : Reads file p (s.drop p.offset) (t :: ts) q rest) :
    ∃ gap, Gap gap ∧ s.drop p.offset = gap ++ s.drop (p.advance gap).offset ∧
      t.span.startOffset = (p.advance gap).offset ∧
      Reads file (p.advance gap) (s.drop (p.advance gap).offset) (t :: ts) q rest := by
  obtain ⟨gap, cs, hcs, hg, hstart, hr⟩ := h.head_start
  have hdrop := Position.drop_advance hcs
  refine ⟨gap, hg, by rw [hdrop, hcs], ?_, by rwa [hdrop]⟩
  rw [Span.startOffset, hstart]
  rfl

/-- A definite text that is read as two lists is definite from where the second one is read. -/
theorem split (front : List Tree) (h : Reads file p (s.drop p.offset) (front ++ us) q rest)
    (hd : DefiniteFrom s p (s.drop p.offset)) :
    ∃ r, Reads file p (s.drop p.offset) front r (s.drop r.offset) ∧
      Reads file r (s.drop r.offset) us q rest ∧ DefiniteFrom s r (s.drop r.offset) := by
  obtain ⟨r, mid, hfront, hus⟩ := h.append_inv
  have hd := hfront.definite rfl hd
  obtain rfl := hfront.drop_stop (s := s) rfl
  exact ⟨r, hfront, hus, hd⟩

/-- The stretch of a definite text from one tree up to another is found in front of another text, if that
tells the scanner no more than what was there, or if the stretch ends with a group. -/
theorem stretch (h : Reads file p (s.drop p.offset) (ts ++ t :: us) q rest)
    (hd : DefiniteFrom s p (s.drop p.offset)) :
    ∃ r words, p.offset ≤ r.offset ∧ t.span.startOffset = r.offset ∧ Spells words ts ∧
      Reads file r (s.drop r.offset) (t :: us) q rest ∧ DefiniteFrom s r (s.drop r.offset) ∧
      ∀ new, Sees (s.drop r.offset) new ∨ ts = [] ∨
          (∃ d inner span, ts.getLast? = some (.group d inner span)) →
        Cut (slice s p.offset r.offset ++ new) words new := by
  obtain ⟨r, hts, hus, hdus⟩ := split ts h hd
  obtain ⟨gap, hg, hgap, hstart, hus⟩ := hus.startOffset
  obtain ⟨taken, words, htaken, rfl, hspells, hnil, hcut⟩ := hts.run rfl hd
  rw [hgap] at hdus
  have hslice : slice s p.offset ((p.advance taken).advance gap).offset = taken ++ gap := by
    rw [← Position.advance_append]
    apply slice_advance
    rw [List.append_assoc, ← hgap]
    exact htaken
  refine ⟨(p.advance taken).advance gap, words, ?_, hstart, hspells, hus, hdus.gap hg, ?_⟩
  · rw [Position.advance_offset, Position.advance_offset]
    omega
  · intro new hnew
    rw [hslice, List.append_assoc]
    have hgapCut : Cut (gap ++ new) [] new := .gap hg .nil
    have hrun : Cut (taken ++ (gap ++ new)) words (gap ++ new) := by
      rcases hnew with hnew | hts | hlast
      · refine (hcut (gap ++ new) (.inl ?_)).1
        rw [hgap]
        exact hnew.gap_append hg
      · obtain ⟨rfl, rfl⟩ := hnil hts
        exact .nil
      · exact (hcut (gap ++ new) (.inr hlast)).1
    simpa using hrun.append hgapCut

/-- From a tag's attribute on, a function reads on behind the attribute, up to its body. -/
theorem behind_tag {item : Item} {inner front : List Tree}
    (h : Reads file p (s.drop p.offset)
      (.punct "#" item.pound :: .group .bracket inner item.brackets :: item.rest) q rest)
    (hd : DefiniteFrom s p (s.drop p.offset)) (hrest : item.rest = front ++ t :: us) :
    ∃ r words, p.offset ≤ item.tagStop ∧ item.tagStop ≤ r.offset ∧ t.span.startOffset = r.offset ∧
      Spells words front ∧
      Reads file r (s.drop r.offset) (t :: us) q rest ∧ DefiniteFrom s r (s.drop r.offset) ∧
      ∀ new, Sees (s.drop r.offset) new → Cut (slice s item.tagStop r.offset ++ new) words new := by
  obtain ⟨r₁, htag, h, hd⟩ := split [.punct "#" item.pound, .group .bracket inner item.brackets] h hd
  obtain ⟨t', ts', hts⟩ : ∃ t' ts', item.rest = t' :: ts' := by
    rw [hrest]
    cases front <;> exact ⟨_, _, rfl⟩
  rw [hts] at h
  obtain ⟨gap, hg, hgap, hstop, h⟩ := h.startOffset
  have htagStop : item.tagStop = (r₁.advance gap).offset := by
    rw [Item.tagStop, hts]
    exact hstop
  rw [← hts, hrest] at h
  rw [hgap] at hd
  obtain ⟨r, words, hle, hstart, hspells, h, hd, hcut⟩ := h.stretch (hd.gap hg)
  rw [← htagStop] at hle hcut
  refine ⟨r, words, ?_, hle, hstart, hspells, h, hd, fun new hnew => hcut new (.inl hnew)⟩
  have := htag.offset_le
  rw [htagStop, Position.advance_offset]
  omega

/-- A group ends behind where it begins, and the rest is read from there. -/
theorem behind_group {d : Delimiter} {inner : List Tree} {span : Span}
    (h : Reads file p (s.drop p.offset) (.group d inner span :: ts) q rest)
    (hd : DefiniteFrom s p (s.drop p.offset)) :
    ∃ r, p.offset < r.offset ∧ span.stopOffset = r.offset ∧ Reads file r (s.drop r.offset) ts q rest ∧
      DefiniteFrom s r (s.drop r.offset) := by
  obtain ⟨r, hgroup, h, hd⟩ := split [.group d inner span] h hd
  obtain ⟨gap, opening, inside, r', gap', closing, mid', -, -, -, hinside, -, hclosing, rfl, hnil⟩ :=
    hgroup.group_inv
  cases hnil
  refine ⟨_, ?_, rfl, h, hd⟩
  have hpos := List.length_pos_iff.2 hclosing.ne_nil
  have hle := hinside.offset_le
  simp only [Position.advance_offset] at hle ⊢
  omega

/-- Behind a function the rest is read from where its body ends. -/
theorem behind_body {front inner : List Tree} {d : Delimiter} {span : Span}
    (h : Reads file p (s.drop p.offset) (front ++ .group d inner span :: ts) q rest)
    (hd : DefiniteFrom s p (s.drop p.offset)) :
    ∃ r, span.stopOffset = r.offset ∧ Reads file r (s.drop r.offset) ts q rest ∧
      DefiniteFrom s r (s.drop r.offset) := by
  obtain ⟨r, -, h, hd⟩ := split front h hd
  obtain ⟨r, -, h⟩ := h.behind_group hd
  exact ⟨r, h⟩

end Reads

/-- The text that is put in for a function is cut into the words of the enum and of the function with its
new body, in front of any text. -/
theorem Item.replacement_cut (item : Item) {s : List Char} {header : FunctionHeader}
    {options : Options} {enum : String} {declared body attributes front : List Tree} {span : Span}
    {words words' : List Word}
    (hprinted : header.Printed s item.start options enum declared body span)
    (hattributes : Spells words attributes)
    (hcut : ∀ new, Cut (slice s item.start item.pound.startOffset ++ new) words new)
    (hfront : Spells words' front)
    (hcut' : ∀ new, Cut (slice s item.tagStop header.bodySpan.startOffset ++
      (header.bodyText s enum ++ new)) words' (header.bodyText s enum ++ new)) :
    ∃ words, Spells words (declared ++ (attributes ++ (front ++ [.group .brace body span]))) ∧
      ∀ new, Cut ((item.expanded s header options enum).edit.replacement ++ new) words new := by
  obtain ⟨variants, variantsSpan, hlast⟩ := hprinted.isEnum.getLast?
  obtain ⟨enumWords, henum, henumCut⟩ := hprinted.enumText.cut hlast
  obtain ⟨bodyWords, hbody, hbodyCut⟩ := hprinted.bodyText.cut rfl
  refine ⟨_, henum.append (hattributes.append (hfront.append hbody)), fun new => ?_⟩
  rw [item.replacement_expanded]
  simp only [List.append_assoc]
  have hindent : Gap ('\n' :: '\n' :: lineIndent s item.start) :=
    .blank (by decide) (gap_lineIndent s item.start)
  exact (henumCut _).append (.gap hindent ((hcut _).append ((hcut' _).append (hbodyCut new))))

namespace Emerges

variable {file : Option String} {s : List Char} {behind : List Tree} {p q r : Position}

/-- A function that is expanded: its enum and the function with its new body take the place of all from
the first of its attributes to the end of its body. -/
theorem function {item : Item} {attributes : List Attribute} {inner front more declared body us : List Tree}
    {header : FunctionHeader} {options : Options} {enum : String} {span : Span} {edits : List Edit}
    (hr : Reads file p (s.drop p.offset) (attributeTrees attributes ++
      .punct "#" item.pound :: .group .bracket inner item.brackets :: item.rest) q (s.drop q.offset))
    (hd : DefiniteFrom s p (s.drop p.offset))
    (hbehind : ∀ t ∈ behind.head?, t.span.stopOffset = p.offset)
    (hlead : Item.leadingBrackets behind = [])
    (hstart : item.start = Item.leadingStart ((attributeTrees attributes).reverse ++ behind)
      item.pound.startOffset)
    (hfree : Item.StandsFree s behind item.start)
    (hrest : item.rest = front ++ .group .brace header.body header.bodySpan :: header.rest)
    (hprinted : header.Printed s item.start options enum declared body span)
    (hstop : header.bodySpan.stopOffset = r.offset)
    (h : Emerges s (.group .brace header.body header.bodySpan :: more) r q edits us) :
    Emerges s behind p q ((item.expanded s header options enum).edit :: edits)
      (declared ++ (attributeTrees attributes ++ (front ++ .group .brace body span :: us))) := by
  -- the item begins behind a gap, with the first of its attributes
  obtain ⟨t, ts, hts, hlead⟩ := leadingStart_attributeTrees hlead attributes item.pound
    (.group .bracket inner item.brackets :: item.rest)
  rw [hts] at hr
  obtain ⟨gap, hg, hgap, hat, hr⟩ := hr.startOffset
  rw [← hts] at hr
  rw [hgap] at hd
  obtain ⟨r₁, words, hle₁, hpound, hspells, hr, hd, hcut⟩ := hr.stretch (hd.gap hg)
  obtain ⟨r₂, words', hle₂, hle₃, hopens, hspells', hr, hd, hcut'⟩ := hr.behind_tag hd hrest
  obtain ⟨r₃, hlt, hcloses, -, -⟩ := hr.behind_group hd
  replace hstart : item.start = (p.advance gap).offset := by rw [hstart, hlead, hat]
  replace hpound : item.pound.startOffset = r₁.offset := hpound
  replace hopens : header.bodySpan.startOffset = r₂.offset := hopens
  -- the attributes end with a group, if there are any, and the new body begins like the old one
  have hattributes : ∀ new, Cut (slice s item.start item.pound.startOffset ++ new) words new := by
    intro new
    rw [hstart, hpound]
    exact hcut new (.inr (attributeTrees_getLast? attributes))
  have hfront : ∀ new, Cut (slice s item.tagStop header.bodySpan.startOffset ++
      (header.bodyText s enum ++ new)) words' (header.bodyText s enum ++ new) := by
    intro new
    obtain ⟨inside, hinside⟩ := header.bodyText_eq_cons s enum
    rw [hopens, hinside, List.append_assoc]
    exact hcut' _ (.opening (by decide))
  obtain ⟨words'', hspells'', hcut''⟩ := item.replacement_cut hprinted hspells hattributes hspells' hfront
  obtain ⟨hw, wordsRest, hspellsRest, hcutRest⟩ := h
  have hslice : slice s p.offset item.start = gap := by rw [hstart, slice_advance hgap]
  have hsub : Edit.substituted s q.offset p.offset
      ((item.expanded s header options enum).edit :: edits) =
      gap ++ ((item.expanded s header options enum).edit.replacement ++
        Edit.substituted s q.offset r.offset edits) := by
    rw [Edit.substituted, ← hstop, ← hslice]
    rfl
  rw [← hstop] at hw
  refine ⟨⟨?_, ?_, hw⟩, words'' ++ wordsRest, ?_, fun tail htail => ⟨?_, fun hfollows => ?_⟩⟩
  · exact Nat.le_trans (by rw [Position.advance_offset]; omega) hstart.ge
  · show item.start < header.bodySpan.stopOffset
    omega
  · simpa using hspells''.append hspellsRest
  · rw [hsub]
    simp only [List.append_assoc]
    exact .gap hg ((hcut'' _).append (hcutRest tail htail).1)
  · rw [hsub, hgap, List.append_assoc]
    exact hfree.sees hfollows hbehind hslice hg

end Emerges

end InlineVariants
