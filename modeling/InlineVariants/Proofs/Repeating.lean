import InlineVariants.Proofs.Legibility
import InlineVariants.Proofs.Tags
import Mathlib

/-!
# Expanding once more

An expansion without diagnostics has expanded every item that it found. It finds nothing behind the tag
of a function up to the end of its body, and it puts in an enum made from what it has not looked at
either. So a tag may be left there: a second tag on the function, a tag in its body, a tag among the
attributes and types of its markers. Whatever else stands in the expanded text has been searched.

`Becomes` says what an expansion makes of trees, and collects the parts in which a tag may be left.

Main statement: if no token of the source may grow, every function stands free, and what is put in for
it can be read on its own, then the expanded text is read as these trees, and expanding it once more is
silent exactly if none of these parts holds a tag (`expandSource_again_iff`). What is put in can be read if
the source is tidy (`Tidy.orderly`). Neither a tag that is left nor a token that grows is reported by the
first expansion (`expandSource_again_unsettled`).
-/

namespace InlineVariants

open Text Lexeme

/-! ## Tags in what is put together -/

theorem tagFree_append {tag : String} {ts us : List Tree}
    (h : ts.getLast?.any (·.isPunct "#") = false ∨ us.head?.any (Tree.bracketsTag tag) = false) :
    tagFree tag (ts ++ us) = (tagFree tag ts && tagFree tag us) := by
  induction ts with
  | nil => simp [tagFree]
  | cons t ts ih =>
    cases ts with
    | nil =>
      have hbegins : beginsTag tag (t :: us) = false := by
        rw [beginsTag, Bool.and_eq_false_iff]
        exact h.imp_left (by simp)
      have hsingle : beginsTag tag [t] = false := by simp [beginsTag]
      rw [List.singleton_append, tagFree, tagFree, hbegins, hsingle]
      simp [tagFree]
    | cons u ts =>
      have hbegins : beginsTag tag (t :: (u :: ts ++ us)) = beginsTag tag (t :: u :: ts) := rfl
      have hcons : ∀ ts, tagFree tag (t :: ts) =
          (!beginsTag tag (t :: ts) && (t.tagFree tag && tagFree tag ts)) := fun ts => by rw [tagFree]
      rw [List.cons_append, hcons, hcons, hbegins, ih (h.imp_left (by simp))]
      simp only [Bool.and_assoc]

/-- Attributes hold no tag if none of them is the tag and none has one inside. -/
theorem tagFree_attributeTrees {tag : String} {attributes : List Attribute}
    (h : ∀ a ∈ attributes, holdsTag tag a.inner = false)
    (h' : ∀ a ∈ attributes, tagFree tag a.inner = true) :
    tagFree tag (attributeTrees attributes) = true := by
  induction attributes with
  | nil => rfl
  | cons a attributes ih =>
    obtain ⟨ha, hattributes⟩ := List.forall_mem_cons.1 h
    obtain ⟨ha', hattributes'⟩ := List.forall_mem_cons.1 h'
    have htrees : a.trees = [.punct "#" a.pound, .group .bracket a.inner a.brackets] := rfl
    rw [attributeTrees, List.flatMap_cons, tagFree_append (.inl (by rw [htrees]; rfl)),
      ← attributeTrees, ih hattributes hattributes', htrees]
    simp [tagFree, Tree.tagFree, beginsTag, Tree.isPunct, Tree.bracketsTag, ha, ha']

/-- An enum does not begin with a group. -/
theorem IsEnum.head_bracketsTag {name : String} {ts : List Tree} (h : IsEnum name ts) (tag : String)
    (us : List Tree) : (ts ++ us).head?.any (Tree.bracketsTag tag) = false := by
  obtain ⟨attributes, visibility, variants, keyword, word, span, hvisibility, rfl⟩ := h
  cases attributes with
  | cons a attributes => rfl
  | nil =>
    rcases hvisibility with rfl | ⟨span, rfl⟩ | ⟨span, inner, span', rfl⟩ <;> rfl

/-! ## What becomes of trees -/

/-- What becomes of the trees behind a place when everything that is found is expanded, and the parts
of it in which nothing was searched for (`behind` holds the trees in front of the place, last one
first). -/
inductive Becomes (s : List Char) (tag : String) :
    (behind ahead us : List Tree) → (left : List (List Tree)) → Prop
  | nil {behind : List Tree} : Becomes s tag behind [] [] []
  | leaf {behind ahead us : List Tree} {left : List (List Tree)} {t : Tree} : ¬ t.IsGroup →
      beginsTag tag (t :: ahead) = false → Becomes s tag (t :: behind) ahead us left →
      Becomes s tag behind (t :: ahead) (t :: us) left
  | group {behind ahead inner us us' : List Tree} {left left' : List (List Tree)} {d : Delimiter}
      {span : Span} : Becomes s tag [] inner us left →
      Becomes s tag (.group d inner span :: behind) ahead us' left' →
      Becomes s tag behind (.group d inner span :: ahead) (.group d us span :: us') (left ++ left')
  | function {behind inner rest front declared body us : List Tree} {left : List (List Tree)}
      {attributes : List Attribute} {pound brackets span : Span} {header : FunctionHeader}
      {options : Options} {enum : Name} :
      Item.leadingBrackets behind = [] → tagFree tag (attributeTrees attributes) = true →
      holdsTag tag inner = true →
      Item.Expandable tag (TagMatch.ofBrackets tag inner).arguments rest front header options enum →
      header.Printed s (Item.leadingStart ((attributeTrees attributes).reverse ++ behind)
        pound.startOffset) options enum.text declared body span →
      Becomes s tag (.group .brace header.body header.bodySpan :: (front.reverse ++
        .group .bracket inner brackets :: .punct "#" pound ::
          ((attributeTrees attributes).reverse ++ behind))) header.rest us left →
      Becomes s tag behind
        (attributeTrees attributes ++ .punct "#" pound :: .group .bracket inner brackets :: rest)
        (declared ++ (attributeTrees attributes ++ (front ++ .group .brace body span :: us)))
        (declared :: front :: body :: left)

namespace Becomes

variable {s : List Char} {tag : String} {behind ahead us : List Tree} {left : List (List Tree)}

/-- Where a function was expanded, a group in braces has come to stand in front of something. -/
theorem outline_eq_or (h : Becomes s tag behind ahead us left) :
    us.map Tree.outline = ahead.map Tree.outline ∨ ∃ t ∈ us.dropLast, t.isGroup .brace = true := by
  have hcons {t : Tree} {us : List Tree} (h : ∃ t ∈ us.dropLast, t.isGroup .brace = true) :
      ∃ u ∈ (t :: us).dropLast, u.isGroup .brace = true := by
    obtain ⟨u, hu, hbrace⟩ := h
    refine ⟨u, ?_, hbrace⟩
    rw [List.dropLast_cons_of_ne_nil (by rintro rfl; cases hu)]
    exact List.mem_cons_of_mem _ hu
  induction h with
  | nil => exact .inl rfl
  | leaf _ _ _ ih => exact ih.imp (by rw [List.map_cons, List.map_cons]; exact congrArg _) hcons
  | group _ _ _ ih => exact ih.imp (by rw [List.map_cons, List.map_cons]; exact congrArg _) hcons
  | function _ _ _ _ hprinted _ _ =>
    obtain ⟨variants, span, hlast⟩ := hprinted.isEnum.getLast?
    refine .inr ⟨.group .brace variants span, ?_, rfl⟩
    rw [List.dropLast_append_of_ne_nil (by simp)]
    exact List.mem_append_left _ (List.mem_of_getLast? hlast)

theorem holdsTag_of (h : Becomes s tag behind ahead us left) (hholds : holdsTag tag us = true) :
    holdsTag tag ahead = true := by
  rcases h.outline_eq_or with heq | ⟨t, ht, hbrace⟩
  · rwa [← holdsTag_congr heq]
  · have hstep := (isStep_of_holdsTag hholds).1 t ht
    cases t <;> simp [Tree.isStep, Tree.isIdent, Tree.isPunct, Tree.isGroup] at hstep hbrace

/-- Nothing that was no tag has come to be one. -/
theorem head_bracketsTag (h : Becomes s tag behind ahead us left)
    (hhead : ahead.head?.any (Tree.bracketsTag tag) = false) :
    us.head?.any (Tree.bracketsTag tag) = false := by
  cases h with
  | nil => rfl
  | leaf => exact hhead
  | @group _ _ _ _ _ _ _ d _ hinner _ =>
    cases d with
    | bracket =>
      by_contra hne
      rw [Bool.not_eq_false] at hne
      exact absurd (hinner.holdsTag_of hne) (by rw [show holdsTag tag _ = false from hhead]; simp)
    | _ => rfl
  | function _ _ _ _ hprinted _ => exact hprinted.isEnum.head_bracketsTag tag _

/-- What becomes of trees holds no tag exactly if the parts in which nothing was searched for hold
none. -/
theorem tagFree_iff (h : Becomes s tag behind ahead us left) :
    tagFree tag us = true ↔ ∀ part ∈ left, tagFree tag part = true := by
  induction h with
  | nil => simp [tagFree]
  | @leaf behind ahead us left t ht hbegins hrest ih =>
    have hbegins' : beginsTag tag (t :: us) = false := by
      rw [beginsTag, Bool.and_eq_false_iff] at hbegins ⊢
      exact hbegins.imp_right hrest.head_bracketsTag
    have hfree : t.tagFree tag = true := by
      cases t with
      | group d inner span => exact absurd ⟨d, inner, span, rfl⟩ ht
      | _ => rfl
    rw [tagFree, hbegins', hfree, ← ih]
    simp
  | group _ _ ihinner ih =>
    rw [tagFree, Tree.tagFree, List.forall_mem_append, ← ihinner, ← ih]
    simp [beginsTag, Tree.isPunct]
  | @function _ _ _ front declared body us left attributes _ _ _ _ _ _ _ hfree _ _ hprinted _ ih =>
    obtain ⟨variants, _, hdeclared⟩ := hprinted.isEnum.getLast?
    have hlast : (attributeTrees attributes).getLast?.any (·.isPunct "#") = false := by
      rcases attributeTrees_getLast? attributes with hnil | ⟨d, inner, span, hlast⟩
      · rw [hnil]
        rfl
      · rw [hlast]
        rfl
    -- the enum and the attributes end with a group, and no tag begins with the body
    rw [tagFree_append (.inl (by rw [hdeclared]; rfl)), tagFree_append (.inl hlast), hfree,
      tagFree_append (.inr rfl), tagFree, Tree.tagFree, List.forall_mem_cons, List.forall_mem_cons,
      List.forall_mem_cons, ← ih]
    simp [beginsTag, Tree.isPunct]

end Becomes

/-! ## Functions in good order -/

namespace Item

/-- The trees in front of the attributes that end in front of a place. -/
def beforeAttributes : List Tree → List Tree
  | brackets :: pound :: before =>
    if pound.isPunct "#" && brackets.isGroup .bracket then beforeAttributes before
    else brackets :: pound :: before
  | before => before

theorem mem_leadingBrackets {a : Attribute} {attributes : List Attribute} (h : a ∈ attributes)
    (behind : List Tree) :
    .group .bracket a.inner a.brackets ∈
      leadingBrackets ((attributeTrees attributes).reverse ++ behind) := by
  induction attributes using List.reverseRecOn with
  | nil => cases h
  | append_singleton attributes b ih =>
    rw [reverse_attributeTrees_append, leadingBrackets_attribute]
    rcases List.mem_append.1 h with h | h
    · exact List.mem_cons_of_mem _ (ih h)
    · rw [List.mem_singleton.1 h]
      exact List.mem_cons_self

theorem beforeAttributes_attributeTrees {behind : List Tree} (h : leadingBrackets behind = [])
    (attributes : List Attribute) :
    beforeAttributes ((attributeTrees attributes).reverse ++ behind) = behind := by
  induction attributes using List.reverseRecOn with
  | nil =>
    show beforeAttributes behind = behind
    unfold beforeAttributes
    split
    · unfold leadingBrackets at h
      split at h
      · cases h
      · next hboth => rw [if_neg hboth]
    · rfl
  | append_singleton attributes a ih =>
    rw [reverse_attributeTrees_append]
    exact ih

/-- A tagged item is in good order: the attributes in front of the tag hold no further one, the item
stands free, and if it is a function that can be expanded, what is put in for it can be read. -/
structure Neat (s : List Char) (tag : String) (behind : List Tree) (pound : Span) (inner rest : List Tree) :
    Prop where
  attributes : ∀ t ∈ leadingBrackets behind, t.tagFree tag = true
  free : StandsFree s (beforeAttributes behind) (leadingStart behind pound.startOffset)
  printed : ∀ front header options enum,
    Expandable tag (TagMatch.ofBrackets tag inner).arguments rest front header options enum →
    ∃ declared body span, header.Printed s (leadingStart behind pound.startOffset) options enum.text
      declared body span

end Item

/-! ## The search makes it so -/

/-- The trees become others, and these emerge when the edits are made. -/
def Yields (s : List Char) (tag : String) (behind ahead : List Tree) (p q : Position)
    (edits : List Edit) : Prop :=
  ∃ us left, Becomes s tag behind ahead us left ∧ Emerges s behind p q edits us

/-- The edits of what is found in attributes. -/
def attributeEdits (s : List Char) (tag : String) (attributes : List Attribute) : List Edit :=
  (attributes.flatMap fun a => (Place.mk [] a.inner).items s tag).map ItemOutcome.edit

namespace Place

variable {file : Option String} {s : List Char} {tag : String} {place place' : Place} {p₀ p q : Position}
  {attributes : List Attribute} {behind ahead : List Tree}

/-- Nothing that is found from a place on is reported with a diagnostic, and all of it is in good
order. -/
structure Quiet (place : Place) (s : List Char) (tag : String) : Prop where
  diagnostics : ∀ outcome ∈ place.items s tag, outcome.diagnostics = []
  neat : ∀ behind pound inner brackets rest,
    Comes s tag place ⟨behind, .punct "#" pound :: .group .bracket inner brackets :: rest⟩ →
    holdsTag tag inner = true → Item.Neat s tag behind pound inner rest

namespace Quiet

theorem mono (h : place.Quiet s tag) (hitems : place'.items s tag ⊆ place.items s tag)
    (hcomes : ∀ r, Comes s tag place' r → Comes s tag place r) : place'.Quiet s tag where
  diagnostics outcome hmem := h.diagnostics outcome (hitems hmem)
  neat behind pound inner brackets rest hq := h.neat behind pound inner brackets rest (hcomes _ hq)

theorem past {outcome : ItemOutcome} {width : Nat} (hitem : place.item? s tag = some (outcome, width))
    (h : place.Quiet s tag) : (place.skip width).Quiet s tag :=
  h.mono (by rw [items_found hitem]; exact List.subset_cons_self _ _) fun _ => .past hitem

theorem beyond {t : Tree} (hitem : (Place.mk behind (t :: ahead)).item? s tag = none)
    (h : (Place.mk behind (t :: ahead)).Quiet s tag) : (Place.mk (t :: behind) ahead).Quiet s tag :=
  h.mono (by rw [items_over hitem]; exact List.subset_append_right _ _) fun _ => .beyond hitem

theorem into {inner : List Tree} {d : Delimiter} {span : Span}
    (h : (Place.mk behind (.group d inner span :: ahead)).Quiet s tag) :
    (Place.mk [] inner).Quiet s tag := by
  refine h.mono ?_ fun _ => .into
  rw [items_over (itemAt?_group s tag _ _ _ _ _), itemsInTree_group]
  exact List.subset_append_left _ _

end Quiet

/-- Where a function is expanded, the place behind it is the one behind its body. -/
theorem skip_expanded {inner rest front : List Tree} {pound brackets : Span}
    {arguments : List Tree × Span} {header : FunctionHeader} {options : Options} {enum : Name}
    (h : Item.Expandable tag arguments rest front header options enum) :
    (Place.mk behind (.punct "#" pound :: .group .bracket inner brackets :: rest)).skip
      (front.length + 1 + 2) =
      ⟨.group .brace header.body header.bodySpan :: (front.reverse ++
        .group .bracket inner brackets :: .punct "#" pound :: behind), header.rest⟩ := by
  have htake : rest.take (front.length + 1) = front ++ [.group .brace header.body header.bodySpan] := by
    rw [h.rest, List.take_append]
    simp
  have hdrop : rest.drop (front.length + 1) = header.rest := by
    rw [h.rest, List.drop_append]
    simp
  simp [skip, htake, hdrop]

/-- What is found without a diagnostic at a place is a function that can be expanded. -/
theorem Quiet.expandable {outcome : ItemOutcome} {width : Nat} (h : place.Quiet s tag)
    (hitem : place.item? s tag = some (outcome, width)) :
    ∃ pound inner brackets rest front header options enum,
      place.ahead = .punct "#" pound :: .group .bracket inner brackets :: rest ∧
      width = front.length + 1 + 2 ∧ holdsTag tag inner = true ∧
      Item.Expandable tag (TagMatch.ofBrackets tag inner).arguments rest front header options enum ∧
      outcome = Item.expanded ⟨Item.leadingStart place.behind pound.startOffset, pound, brackets, rest⟩
        s header options enum.text := by
  have hfirst := h.diagnostics outcome (by rw [items_found hitem]; exact List.mem_cons_self)
  obtain ⟨pound, inner, brackets, rest, count, hahead, rfl, hmatch, hsettles⟩ := itemAt?_eq_some hitem
  have hholds : holdsTag tag inner = true := by
    unfold holdsTag
    cases hofBrackets : TagMatch.ofBrackets tag inner with
    | other => exact absurd hofBrackets hmatch
    | _ => rfl
  cases hsettles with
  | refused _ hreported => exact absurd hfirst hreported
  | @expanded front header options enum hfunction =>
    exact ⟨pound, inner, brackets, rest, front, header, options, enum, hahead, rfl, hholds, hfunction,
      rfl⟩

/-- Just in front of the place stand these attributes, none of them the tag, and no others; they are
read from `p₀` on, and the trees behind the place from `p` on. -/
structure Follows (place : Place) (file : Option String) (s : List Char) (tag : String)
    (attributes : List Attribute) (behind : List Tree) (p₀ p q : Position) : Prop where
  behind_eq : place.behind = (attributeTrees attributes).reverse ++ behind
  lead : Item.leadingBrackets behind = []
  plain : ∀ a ∈ attributes, holdsTag tag a.inner = false
  stop : ∀ t ∈ behind.head?, t.span.stopOffset = p₀.offset
  reads : Reads file p₀ (s.drop p₀.offset) (attributeTrees attributes ++ place.ahead) q (s.drop q.offset)
  definite : DefiniteFrom s p₀ (s.drop p₀.offset)
  readsAhead : Reads file p (s.drop p.offset) place.ahead q (s.drop q.offset)
  definiteAhead : DefiniteFrom s p (s.drop p.offset)

theorem follows_nil (hlead : Item.leadingBrackets behind = [])
    (hstop : ∀ t ∈ behind.head?, t.span.stopOffset = p.offset)
    (hr : Reads file p (s.drop p.offset) ahead q (s.drop q.offset))
    (hd : DefiniteFrom s p (s.drop p.offset)) : Follows ⟨behind, ahead⟩ file s tag [] behind p p q where
  behind_eq := rfl
  lead := hlead
  plain := List.forall_mem_nil _
  stop := hstop
  reads := hr
  definite := hd
  readsAhead := hr
  definiteAhead := hd

theorem Follows.attribute {a : Attribute} {before : List Tree}
    (h : Follows ⟨behind, .punct "#" a.pound :: .group .bracket a.inner a.brackets :: ahead⟩ file s tag
      attributes before p₀ p q)
    (ha : holdsTag tag a.inner = false) {r : Position}
    (hr : Reads file r (s.drop r.offset) ahead q (s.drop q.offset))
    (hd : DefiniteFrom s r (s.drop r.offset)) :
    Follows ⟨.group .bracket a.inner a.brackets :: .punct "#" a.pound :: behind, ahead⟩ file s tag
      (attributes ++ [a]) before p₀ r q where
  behind_eq := by rw [reverse_attributeTrees_append, ← h.behind_eq]
  lead := h.lead
  plain := List.forall_mem_append.2 ⟨h.plain, by simpa using ha⟩
  stop := h.stop
  reads := by simpa [attributeTrees_append] using h.reads
  definite := h.definite
  readsAhead := hr
  definiteAhead := hd

theorem attributeEdits_append (s : List Char) (tag : String) (attributes : List Attribute)
    (a : Attribute) : attributeEdits s tag (attributes ++ [a]) =
      attributeEdits s tag attributes ++ ((Place.mk [] a.inner).items s tag).map ItemOutcome.edit := by
  simp [attributeEdits]

/-- Where a function is found, nothing is found in the attributes in front of it. -/
theorem attributeEdits_eq_nil (h : ∀ a ∈ attributes, tagFree tag a.inner = true) :
    attributeEdits s tag attributes = [] := by
  have hnil : attributes.flatMap (fun a => (Place.mk [] a.inner).items s tag) = [] :=
    List.flatMap_eq_nil_iff.2 fun a ha => (items_eq_nil_iff s tag [] a.inner).2 (h a ha)
  rw [attributeEdits, hnil]
  rfl

/-- A function is found: it is expanded, together with the attributes in front of it, and what follows
its body yields what it yields. -/
theorem Quiet.yields_found {outcome : ItemOutcome} {width : Nat} (h : place.Quiet s tag)
    (hitem : place.item? s tag = some (outcome, width))
    (hfollows : place.Follows file s tag attributes behind p₀ p q)
    (hnext : ∀ r, (∀ t ∈ (place.skip width).behind.head?, t.span.stopOffset = r.offset) →
      Item.leadingBrackets (place.skip width).behind = [] →
      Reads file r (s.drop r.offset) (place.skip width).ahead q (s.drop q.offset) →
      DefiniteFrom s r (s.drop r.offset) →
      Yields s tag (place.skip width).behind (place.skip width).ahead r q
        (((place.skip width).items s tag).map ItemOutcome.edit)) :
    Yields s tag behind (attributeTrees attributes ++ place.ahead) p₀ q
      (attributeEdits s tag attributes ++ (place.items s tag).map ItemOutcome.edit) := by
  obtain ⟨behind', ahead⟩ := place
  obtain ⟨rfl, hlead, hplain, hstop, hr, hd, -, -⟩ := hfollows
  obtain ⟨pound, inner, brackets, rest, front, header, options, enum, rfl, rfl, hholds, hfunction, rfl⟩ :=
    h.expandable hitem
  obtain ⟨hattributes, hfree, hprinted⟩ := h.neat _ pound inner brackets rest .here hholds
  rw [Item.beforeAttributes_attributeTrees hlead] at hfree
  obtain ⟨declared, body, span, hprinted⟩ := hprinted front header options enum hfunction
  have hinside : ∀ a ∈ attributes, tagFree tag a.inner = true := fun a ha => by
    have := hattributes _ (Item.mem_leadingBrackets ha behind)
    rwa [Tree.tagFree] at this
  have hbody := hr
  simp only [hfunction.rest, ← List.cons_append, ← List.append_assoc] at hbody
  obtain ⟨r, hcloses, hrest, hdrest⟩ := hbody.behind_body hd
  rw [items_found hitem, attributeEdits_eq_nil hinside]
  rw [skip_expanded hfunction] at hnext ⊢
  obtain ⟨us, left, hbecomes, hemerges⟩ := hnext r (by rintro t ⟨⟩; exact hcloses)
    (leadingBrackets_of_endsItem rfl _) hrest hdrest
  exact ⟨_, _, .function hlead (tagFree_attributeTrees hplain hinside) hholds hfunction hprinted hbecomes,
    .function hr hd hstop hlead rfl hfree hfunction.rest hprinted hcloses hemerges⟩

/-- What is expanded without a diagnostic yields what it should. The attributes in front of the place
are taken along, since the enum of a function is put in front of them; where no function follows they
have been gone over. -/
theorem Quiet.yields_behind (haligned : place.Aligned) (h : place.Quiet s tag)
    (hfollows : place.Follows file s tag attributes behind p₀ p q)
    (hover : ∀ edits, Yields s tag place.behind place.ahead p q edits →
      Yields s tag behind (attributeTrees attributes ++ place.ahead) p₀ q
        (attributeEdits s tag attributes ++ edits)) :
    Yields s tag behind (attributeTrees attributes ++ place.ahead) p₀ q
      (attributeEdits s tag attributes ++ (place.items s tag).map ItemOutcome.edit) := by
  induction place, haligned using search_induction s tag generalizing attributes behind p₀ p q with
  | nil before =>
    rw [items_nil]
    exact hover _ ⟨[], [], .nil, .of_nil hfollows.readsAhead⟩
  | found place outcome width hitem _ ih =>
    refine h.yields_found hitem hfollows fun r hstop hlead hr hd => ?_
    exact ih (h.past hitem) (follows_nil hlead hstop hr hd) fun edits h => h
  | attr before pound inner brackets rest _ hitem ihinner ih =>
    have hbrackets := h.beyond hitem
    have hbegins : beginsTag tag (.punct "#" pound :: .group .bracket inner brackets :: rest) = false :=
      itemAt?_eq_none_iff.1 hitem
    have hnot : holdsTag tag inner = false := by
      simpa [beginsTag, Tree.isPunct, Tree.bracketsTag] using hbegins
    obtain ⟨r, -, hr, hd, hpound⟩ :=
      Emerges.over_leaf before hfollows.readsAhead (by rintro _ _ _ ⟨⟩) hfollows.definiteAhead
    obtain ⟨a, b, r', hinner, hdinner, -, hr', hd', hgroup⟩ :=
      Emerges.over_group (.punct "#" pound :: before) hr hd
    obtain ⟨us, left, hbecomes, hemerges⟩ := ihinner hbrackets.into
      (follows_nil rfl (by rintro _ ⟨⟩) hinner hdinner) fun edits h => h
    have hnext := ih (hbrackets.beyond (itemAt?_group s tag _ _ _ _ _))
      (hfollows.attribute (a := ⟨pound, inner, brackets⟩) hnot hr' hd')
    rw [attributeTrees_append, attributeEdits_append] at hnext
    simp only [List.append_assoc] at hnext
    rw [items_attr hitem, List.map_append]
    refine hnext ?_
    -- if no function follows, the attribute is gone over
    rintro edits ⟨us', left', hbecomes', hemerges'⟩
    exact hover _ ⟨_, _, .leaf (by rintro ⟨_, _, _, ⟨⟩⟩) hbegins (.group hbecomes hbecomes'),
      hpound _ _ (hgroup _ _ _ _ hemerges hemerges')⟩
  | beyond before t rest _ _ hitem hlead ihinner ih =>
    rw [items_over hitem, List.map_append]
    cases t with
    | group d inner span =>
      obtain ⟨a, b, r, hinner, hdinner, hstop, hr, hd, hgroup⟩ :=
        Emerges.over_group before hfollows.readsAhead hfollows.definiteAhead
      obtain ⟨us, left, hbecomes, hemerges⟩ := ihinner d inner span rfl h.into
        (follows_nil rfl (by rintro _ ⟨⟩) hinner hdinner) fun edits h => h
      obtain ⟨us', left', hbecomes', hemerges'⟩ := ih (h.beyond hitem)
        (follows_nil hlead (by rintro t ⟨⟩; exact hstop) hr hd) fun edits h => h
      rw [itemsInTree_group]
      exact hover _ ⟨_, _, .group hbecomes hbecomes', hgroup _ _ _ _ hemerges hemerges'⟩
    | _ =>
      obtain ⟨r, hstop, hr, hd, hleaf⟩ :=
        Emerges.over_leaf before hfollows.readsAhead (by rintro _ _ _ ⟨⟩) hfollows.definiteAhead
      obtain ⟨us, left, hbecomes, hemerges⟩ := ih (h.beyond hitem)
        (follows_nil hlead (by rintro t ⟨⟩; exact hstop) hr hd) fun edits h => h
      exact hover _ ⟨_, _, .leaf (by rintro ⟨_, _, _, ⟨⟩⟩) (itemAt?_eq_none_iff.1 hitem) hbecomes,
        hleaf _ _ hemerges⟩

end Place

/-! ## The expanded text -/

/-- No token of a source may grow, and every tagged item that the search comes to is in good order. -/
structure Orderly (s : List Char) (tag : String) (trees : List Tree) : Prop where
  definite : Definite s
  neat : ∀ behind pound inner brackets rest,
    Place.Comes s tag ⟨[], trees⟩ ⟨behind, .punct "#" pound :: .group .bracket inner brackets :: rest⟩ →
    holdsTag tag inner = true → Item.Neat s tag behind pound inner rest

/-- The source is steady, and every tagged item that the search comes to is in good order as far as that can
be told from the item: the attributes in front of the tag hold no further one, the item stands free, and if
it is a function that can be expanded, it is tidy. -/
structure Tidy (s : List Char) (tag : String) (trees : List Tree) : Prop where
  steady : Steady s
  items : ∀ behind pound inner brackets rest,
    Place.Comes s tag ⟨[], trees⟩ ⟨behind, .punct "#" pound :: .group .bracket inner brackets :: rest⟩ →
    holdsTag tag inner = true →
      (∀ t ∈ Item.leadingBrackets behind, t.tagFree tag = true) ∧
      Item.StandsFree s (Item.beforeAttributes behind) (Item.leadingStart behind pound.startOffset) ∧
      ∀ front header options enum, Item.Expandable tag (TagMatch.ofBrackets tag inner).arguments rest front
        header options enum → header.Tidy s options enum.text

/-- What is put in for the functions of a tidy source can be read. -/
theorem Tidy.orderly {s : List Char} {file : Option String} {tag : String} {trees : List Tree}
    (h : Tidy s tag trees) (htrees : tokenize s file = .ok trees) : Orderly s tag trees where
  definite := h.steady.definite htrees
  neat behind pound inner brackets rest hcomes hholds := by
    obtain ⟨hattributes, hfree, htidy⟩ := h.items behind pound inner brackets rest hcomes hholds
    refine ⟨hattributes, hfree, fun front header options enum hfunction => ?_⟩
    exact hfunction.printed htrees h.steady hcomes.among (htidy front header options enum hfunction) _

theorem exists_tokenize_of_diagnostics {s : List Char} {file : Option String} {tag : String}
    (h : (expandSource s file tag).diagnostics = []) : ∃ trees, tokenize s file = .ok trees := by
  cases htokenize : tokenize s file with
  | ok trees => exact ⟨trees, rfl⟩
  | error e =>
    rw [expandSource, htokenize] at h
    simp [Expansion.unreadable] at h

theorem diagnostics_of_mem_items {s : List Char} {file : Option String} {tag : String}
    {trees : List Tree} (h : tokenize s file = .ok trees)
    (hquiet : (expandSource s file tag).diagnostics = []) :
    ∀ outcome ∈ (Place.mk [] trees).items s tag, outcome.diagnostics = [] := by
  rw [expandSource_of_tokenize h] at hquiet
  exact List.flatMap_eq_nil_iff.1 hquiet

/-- An item that is found without a diagnostic has been expanded. -/
theorem isExpanded_of_diagnostics {s : List Char} {tag : String} {trees : List Tree}
    {outcome : ItemOutcome} (hmem : outcome ∈ (Place.mk [] trees).items s tag)
    (hquiet : outcome.diagnostics = []) : outcome.isExpanded = true := by
  obtain ⟨q, width, -, hitem⟩ := Place.exists_of_mem_items (Place.aligned_start trees) hmem
  obtain ⟨_, _, _, _, _, -, -, -, hsettles⟩ := itemAt?_eq_some hitem
  cases hsettles with
  | refused _ hreported => exact absurd hquiet hreported
  | expanded => rfl

/-- What an orderly source becomes when it is expanded without a diagnostic emerges from the edits. -/
theorem Orderly.yields {s : List Char} {file : Option String} {tag : String} {trees : List Tree}
    {q : Position} {rest : List Char} (h : Orderly s tag trees)
    (hquiet : ∀ outcome ∈ (Place.mk [] trees).items s tag, outcome.diagnostics = [])
    (hr : Reads file .first s trees q rest) :
    Yields s tag [] trees .first q (((Place.mk [] trees).items s tag).map ItemOutcome.edit) := by
  have hr' : Reads file .first (s.drop Position.first.offset) trees q (s.drop q.offset) := by
    rw [hr.drop_stop (s := s) rfl]
    exact hr
  exact Place.Quiet.yields_behind (Place.aligned_start trees) ⟨hquiet, h.neat⟩
    (Place.follows_nil rfl (by rintro _ ⟨⟩) hr' h.definite) fun edits h => h

/-- An expansion without diagnostics has expanded every item that it found. If the source is orderly, as a
tidy one is, then the expanded text can be read, and expanding it once more finds nothing, reports nothing
and changes nothing exactly if no tag is left in what was put in or gone past: the enums, the functions up
to their bodies, and the bodies. -/
theorem expandSource_again_iff {s : List Char} {file : Option String} {tag : String}
    (hquiet : (expandSource s file tag).diagnostics = []) :
    ∃ trees, tokenize s file = .ok trees ∧
      (∀ outcome ∈ (Place.mk [] trees).items s tag, outcome.isExpanded = true) ∧
      (Tidy s tag trees → Orderly s tag trees) ∧
      (Orderly s tag trees → ∃ us left, Becomes s tag [] trees us left ∧
        ∀ file', (∃ vs, tokenize (expandSource s file tag).text file' = .ok vs ∧ bareOf vs = bareOf us) ∧
          ((expandSource (expandSource s file tag).text file' tag).Silent (expandSource s file tag).text ↔
            ∀ part ∈ left, tagFree tag part = true)) := by
  obtain ⟨trees, htrees⟩ := exists_tokenize_of_diagnostics hquiet
  have hitems := diagnostics_of_mem_items htrees hquiet
  refine ⟨trees, htrees, fun outcome hmem => isExpanded_of_diagnostics hmem (hitems outcome hmem),
    fun htidy => htidy.orderly htrees, fun horderly => ?_⟩
  obtain ⟨q, rest, hr, hrest⟩ := tokenize_reads htrees
  obtain ⟨us, left, hbecomes, hemerges⟩ := horderly.yields hitems hr
  obtain ⟨taken, hs, rfl⟩ := hr.exists_append
  refine ⟨us, left, hbecomes, fun file' => ?_⟩
  obtain ⟨vs, hvs, hbare⟩ := hemerges.tokenize hs hrest file'
  rw [expandSource_of_tokenize htrees]
  refine ⟨⟨vs, hvs, hbare⟩, (silent_iff hvs tag).trans ?_⟩
  rw [← tagFree_bareOf, hbare, tagFree_bareOf, hbecomes.tagFree_iff]

/-- A tagged function with a marker, behind another attribute. -/
def markedFunction : List Char := "#[a] #[t]fn f()->Result<(),E>\x7berr!(A)\x7d".toList

/-- The function behind its tag, up to its body. -/
def markedFront : List Tree :=
  [.ident "fn" (.inFirstLine 9 11), .ident "f" (.inFirstLine 12 13), .group .paren [] (.inFirstLine 13 15),
    .punct "->" (.inFirstLine 15 17), .ident "Result" (.inFirstLine 17 23),
    .punct "<" (.inFirstLine 23 24), .group .paren [] (.inFirstLine 24 26), .punct "," (.inFirstLine 26 27),
    .ident "E" (.inFirstLine 27 28), .punct ">" (.inFirstLine 28 29)]

/-- What its parser makes of it. -/
def markedHeader : FunctionHeader where
  name := ⟨"f", .inFirstLine 12 13⟩
  visibility := []
  returned := some (markedFront.drop 4)
  body := [.ident "err" (.inFirstLine 30 33), .punct "!" (.inFirstLine 33 34),
    .group .paren [.ident "A" (.inFirstLine 35 36)] (.inFirstLine 34 37)]
  bodySpan := .inFirstLine 29 38
  rest := []

/-- The place of the tag. -/
def markedPlace : Place where
  behind := [.group .bracket [.ident "a" (.inFirstLine 2 3)] (.inFirstLine 1 4),
    .punct "#" (.inFirstLine 0 1)]
  ahead := .punct "#" (.inFirstLine 5 6) ::
    .group .bracket [.ident "t" (.inFirstLine 7 8)] (.inFirstLine 6 9) ::
    (markedFront ++ [.group .brace markedHeader.body markedHeader.bodySpan])

theorem markedHeader_tidy : markedHeader.Tidy markedFunction {} "E" where
  parts := by decide +kernel
  discriminants := by
    -- there is one marker, and its definition is a name
    let x : Visit := ⟨[], .inFirstLine 30 33, [.ident "A" (.inFirstLine 35 36)], .inFirstLine 34 37⟩
    have hparsed : x.parsed? = some ⟨⟨"A", .inFirstLine 35 36⟩, [], .unit, none, .inFirstLine 35 36⟩ := by
      cbv
    have hvisits : Walker.visits { enum := "E" } none markedHeader.body = [x] := by
      refine (Walker.visits_marker { enum := "E" } rfl (by decide)).trans ?_
      rw [Visit.payloads, hparsed]
      simp [Variant.kindedPayloads, Fields.values, Walker.visits, x]
    intro y hy v hv value hvalue
    rw [hvisits, List.mem_singleton] at hy
    subst hy
    obtain rfl := Option.some.inj (hparsed.symm.trans hv)
    cases hvalue
  body := by decide +kernel

theorem markedFunction_read :
    tokenize markedFunction = .ok (markedPlace.behind.reverse ++ markedPlace.ahead) := by
  cbv

/-- The search comes to one tag. -/
theorem markedFunction_comes {place : Place} {outcome : ItemOutcome} {width : Nat}
    (h : Place.Comes markedFunction "t" ⟨[], markedPlace.behind.reverse ++ markedPlace.ahead⟩ place)
    (hitem : place.item? markedFunction "t" = some (outcome, width)) : place = markedPlace := by
  rcases h.over_inv rfl hitem with h | ⟨_, _, _, ⟨⟩, -⟩
  rcases h.over_inv rfl hitem with h | ⟨_, _, _, ⟨⟩, h⟩
  · obtain ⟨first, hfirst⟩ : ∃ first, markedPlace.item? markedFunction "t" = some (first, 13) := by
      have hwidth : (markedPlace.item? markedFunction "t").map (·.2) = some 13 := by decide +kernel
      obtain ⟨⟨first, width⟩, hfirst, rfl⟩ := Option.map_eq_some_iff.1 hwidth
      exact ⟨first, hfirst⟩
    rcases h.found_inv hfirst with h | h
    · exact h
    · cases (h.nil_inv rfl).symm.trans hitem
  · rcases h.over_inv rfl hitem with h | ⟨_, _, _, ⟨⟩, -⟩
    cases (h.nil_inv rfl).symm.trans hitem

theorem markedFunction_tidy :
    Tidy markedFunction "t" (markedPlace.behind.reverse ++ markedPlace.ahead) where
  steady := by decide +kernel
  items behind pound inner brackets rest hcomes hholds := by
    obtain ⟨⟨outcome, width⟩, hitem⟩ : ∃ found, itemAt? markedFunction "t" behind
        (.punct "#" pound :: .group .bracket inner brackets :: rest) = some found := by
      apply Option.ne_none_iff_exists'.1
      rw [Ne, itemAt?_eq_none_iff]
      simp [beginsTag, Tree.isPunct, Tree.bracketsTag, hholds]
    obtain ⟨rfl, hahead⟩ := Place.mk.inj (markedFunction_comes hcomes hitem)
    obtain ⟨rfl, rfl, rfl⟩ : pound = .inFirstLine 5 6 ∧ inner = [.ident "t" (.inFirstLine 7 8)] ∧
        rest = markedFront ++ [.group .brace markedHeader.body markedHeader.bodySpan] := by
      simp only [List.cons.injEq, Tree.punct.injEq, Tree.group.injEq, true_and] at hahead
      exact ⟨hahead.1, hahead.2.1.1, hahead.2.2⟩
    refine ⟨by decide, by rintro t ⟨⟩, ?_⟩
    rintro front header options enum ⟨hparse, -, hoptions, henum⟩
    obtain rfl : markedHeader = header := Except.ok.inj (Eq.trans (by cbv) hparse)
    obtain rfl : ({} : Options) = options := Except.ok.inj (Eq.trans rfl hoptions)
    obtain rfl : (⟨"E", .inFirstLine 27 28⟩ : Name) = enum := Option.some.inj (Eq.trans (by cbv) henum)
    exact markedHeader_tidy

/-- No tag is left in what becomes of it, so whatever the name of the file, nothing is left to do. -/
theorem expandSource_again_marked :
    (expandSource markedFunction none "t").diagnostics = [] ∧
    ∃ trees, tokenize markedFunction = .ok trees ∧ Tidy markedFunction "t" trees ∧
      Orderly markedFunction "t" trees ∧
      (∀ outcome ∈ (Place.mk [] trees).items markedFunction "t", outcome.isExpanded = true) ∧
      ∃ us left, Becomes markedFunction "t" [] trees us left ∧
        (∀ part ∈ left, tagFree "t" part = true) ∧ ∀ file',
        (∃ vs, tokenize (expandSource markedFunction none "t").text file' = .ok vs ∧
          bareOf vs = bareOf us) ∧
        (expandSource (expandSource markedFunction none "t").text file' "t").Silent
          (expandSource markedFunction none "t").text := by
  have hquiet : (expandSource markedFunction none "t").diagnostics = [] :=
    List.isEmpty_iff.1 (by decide +kernel)
  have hsilent : (expandSource (expandSource markedFunction none "t").text none "t").Silent
      (expandSource markedFunction none "t").text :=
    ⟨List.isEmpty_iff.1 (by decide +kernel), List.isEmpty_iff.1 (by decide +kernel), by decide +kernel⟩
  obtain ⟨trees, htrees, hexpanded, horderly, hagain⟩ := expandSource_again_iff hquiet
  have htidy := markedFunction_tidy
  rw [← Except.ok.inj (htrees.symm.trans markedFunction_read)] at htidy
  obtain ⟨us, left, hbecomes, hagain⟩ := hagain (horderly htidy)
  have hleft := (hagain none).2.1 hsilent
  exact ⟨hquiet, trees, htrees, htidy, horderly htidy, hexpanded, us, left, hbecomes, hleft, fun file' =>
    ⟨(hagain file').1, (hagain file').2.2 hleft⟩⟩

/-- Expanding the source reports nothing, and expanding the result finds or reports something. -/
def Unsettled (s : List Char) (tag : String) : Prop :=
  (expandSource s none tag).diagnostics = [] ∧
    ¬ (expandSource (expandSource s none tag).text none tag).Silent (expandSource s none tag).text

/-- Whether an expansion has anything to report. -/
def Expansion.reports (e : Expansion) : Bool := !e.functions.isEmpty || !e.diagnostics.isEmpty

theorem unsettled_of_reports {s : List Char} {tag : String}
    (h : (expandSource s none tag).diagnostics.isEmpty = true)
    (h' : (expandSource (expandSource s none tag).text none tag).reports = true) : Unsettled s tag := by
  refine ⟨List.isEmpty_iff.1 h, fun hsilent => ?_⟩
  rw [Expansion.reports, hsilent.1, hsilent.2.1] at h'
  cases h'

/-- A function with a second tag. -/
def taggedTwice : List Char := "#[t]#[t]fn f()->Result<(),E>\x7b\x7d".toList

/-- A tagged function in the body of another. -/
def taggedInside : List Char := "#[t]fn f()->Result<(),E>\x7b#[t]fn g()->Result<(),D>\x7b\x7d\x7d".toList

/-- A tag on a variant, which comes to stand in the enum. -/
def taggedVariant : List Char := "#[t]fn f()->Result<(),E>\x7berr!(#[t]A)\x7d".toList

/-- A `/` in front of a `*`, which open no comment as long as the marker stands behind them: the `/*` in it
would have to be closed as well. -/
def openComment : List Char := "#[t]fn f()->Result<(),E>\x7b/*err!(#[d=\"/*\"]A)\x7d*/".toList

/-- An expansion that reports nothing may leave a tag, or a text that cannot be read. -/
theorem expandSource_again_unsettled :
    Unsettled taggedTwice "t" ∧ Unsettled taggedInside "t" ∧ Unsettled taggedVariant "t" ∧
      Unsettled openComment "t" :=
  ⟨unsettled_of_reports (by decide +kernel) (by decide +kernel),
    unsettled_of_reports (by decide +kernel) (by decide +kernel),
    unsettled_of_reports (by decide +kernel) (by decide +kernel),
    unsettled_of_reports (by decide +kernel) (by decide +kernel)⟩

end InlineVariants
