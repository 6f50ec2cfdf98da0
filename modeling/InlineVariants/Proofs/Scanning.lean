import InlineVariants.Expansion.Basic
import Mathlib.Data.List.Infix

/-!
# Where annotated items are searched for

The search goes over a list of trees from the front. At each place it either finds an annotated item
there, and goes on behind the item, or it goes over one tree, after a look inside if that is a group
(`Place.Comes`). Whatever is found is found at a place that the search comes to
(`Place.exists_of_mem_items`).

An item ends with a group in braces or with a `;`, or it takes up all that is left. So what stands in
front of the next item can never be taken for a part of the one before.
-/

namespace InlineVariants

/-! ## The outline of a function -/

namespace FunctionHeader

theorem afterAttributes_suffix (ts : List Tree) : afterAttributes ts <:+ ts := by
  fun_induction afterAttributes ts with
  | case1 pound brackets rest _ ih =>
    exact ih.trans ((List.suffix_cons _ _).trans (List.suffix_cons _ _))
  | case2 => exact List.suffix_refl _
  | case3 => exact List.suffix_refl _

theorem visibilityRun_append (ts : List Tree) : (visibilityRun ts).1 ++ (visibilityRun ts).2 = ts := by
  unfold visibilityRun
  split
  · split
    · split
      · split <;> rfl
      · rfl
    · rfl
  · rfl

theorem afterQualifiers_suffix (ts : List Tree) : afterQualifiers ts <:+ ts := by
  fun_induction afterQualifiers ts with
  | case1 => exact List.suffix_refl _
  | case2 first rest _ ih => exact ih.trans (List.suffix_cons _ _)
  | case3 first _ _ second more _ ih =>
    exact ih.trans ((List.suffix_cons _ _).trans (List.suffix_cons _ _))
  | case4 first _ _ second more _ ih => exact ih.trans (List.suffix_cons _ _)
  | case5 => exact List.nil_suffix
  | case6 => exact List.suffix_refl _

theorem afterAngles_suffix (depth : Nat) (ts : List Tree) : afterAngles depth ts <:+ ts := by
  fun_induction afterAngles depth ts with
  | case1 => exact List.suffix_refl _
  | case2 depth t rest _ ih => exact ih.trans (List.suffix_cons _ _)
  | case3 => exact List.suffix_cons _ _
  | case4 depth t rest _ _ _ ih => exact ih.trans (List.suffix_cons _ _)
  | case5 depth t rest _ _ ih => exact ih.trans (List.suffix_cons _ _)

theorem afterGenerics_suffix (ts : List Tree) : afterGenerics ts <:+ ts := by
  unfold afterGenerics
  split
  · exact afterAngles_suffix 0 ts
  · exact List.suffix_refl _

theorem returnRun_append (depth : Int) (ts : List Tree) :
    (returnRun depth ts).1 ++ (returnRun depth ts).2 = ts := by
  fun_induction returnRun depth ts with
  | case1 => rfl
  | case2 => rfl
  | case3 depth t rest _ depth' run ih => rw [List.cons_append, ih]

theorem returnType_suffix (ts : List Tree) : (returnType ts).2 <:+ ts := by
  unfold returnType
  split
  · rename_i arrow rest
    split
    · have happend := returnRun_append 0 rest
      exact ⟨arrow :: (returnRun 0 rest).1, by rw [List.cons_append, happend]⟩
    · exact List.suffix_refl _
  · exact List.suffix_refl _

theorem afterWhere_suffix (ts : List Tree) : afterWhere ts <:+ ts := by
  unfold afterWhere
  split
  · exact List.dropWhile_suffix _
  · exact List.suffix_refl _

theorem parseRest_suffix {name : Name} {visibility ts : List Tree} {header : FunctionHeader}
    (h : parseRest name visibility ts = .ok header) :
    .group .brace header.body header.bodySpan :: header.rest <:+ ts := by
  unfold parseRest at h
  split at h
  · rename_i params paramsSpan afterParameters hgenerics
    have hgen : .group .paren params paramsSpan :: afterParameters <:+ ts :=
      hgenerics ▸ afterGenerics_suffix ts
    simp only at h
    split at h
    · rename_i body bodySpan rest hwhere
      have hbody : .group .brace body bodySpan :: rest <:+ afterParameters :=
        hwhere ▸ (afterWhere_suffix _).trans (returnType_suffix _)
      obtain rfl := Except.ok.inj h
      exact (hbody.trans (List.suffix_cons _ _)).trans hgen
    · cases h
  · cases h

/-- A function that can be read ends with its body. -/
theorem parse_suffix {tag : String} {ts : List Tree} {header : FunctionHeader}
    (h : parse tag ts = .ok header) :
    .group .brace header.body header.bodySpan :: header.rest <:+ ts := by
  have hvisibility : (visibilityRun (afterAttributes ts)).2 <:+ ts :=
    List.IsSuffix.trans ⟨_, visibilityRun_append _⟩ (afterAttributes_suffix ts)
  have hqualifiers := (afterQualifiers_suffix _).trans hvisibility
  unfold parse at h
  simp only at h
  split at h
  · rename_i keyword afterKeyword heq
    rw [heq] at hqualifiers
    split at h
    · split at h
      · exact (((parseRest_suffix h).trans (List.suffix_cons _ _)).trans
          (List.suffix_cons _ _)).trans hqualifiers
      · cases h
    · cases h
  · cases h

end FunctionHeader

/-! ## One item -/

/-- Whether the item was expanded. -/
def ItemOutcome.isExpanded (o : ItemOutcome) : Bool := o.function.any FunctionReport.expanded

/-- The arguments of the tag, and where their group stands. -/
def TagMatch.arguments : TagMatch → List Tree × Span
  | withArguments arguments span => (arguments, span)
  | _ => ([], Span.unknown)

namespace Item

/-- Whether a tree ends an item. -/
def endsItem (t : Tree) : Bool := t.isGroup .brace || t.isPunct ";"

/-- An item may take up so many of the trees: it takes up all of them, or it ends with a tree that ends
items. -/
def Stops (rest : List Tree) (count : Nat) : Prop :=
  rest.length ≤ count ∨ ∃ front last more, rest = front ++ last :: more ∧ endsItem last = true ∧
    count = front.length + 1

theorem stops_length (ts : List Tree) : Stops ts (length ts) := by
  induction ts with
  | nil => exact .inl (Nat.le_refl _)
  | cons t ts ih =>
    rw [length]
    split
    · next ht => exact .inr ⟨[], t, ts, rfl, ht, rfl⟩
    · rcases ih with h | ⟨front, last, more, hts, hlast, hcount⟩
      · exact .inl (by rw [List.length_cons]; omega)
      · exact .inr ⟨t :: front, last, more, by rw [hts, List.cons_append], hlast,
          by rw [hcount, List.length_cons]⟩

/-- The trees begin with a function that can be expanded: `front` stands in front of its body, the
arguments of its tag are options, and its return type names the enum. -/
structure Expandable (tag : String) (arguments : List Tree × Span) (rest front : List Tree)
    (header : FunctionHeader) (options : Options) (enum : Name) : Prop where
  parse : FunctionHeader.parse tag rest = .ok header
  rest : rest = front ++ .group .brace header.body header.bodySpan :: header.rest
  options : Options.parse arguments.1 arguments.2 = .ok options
  errorType : errorType? header.returned = some enum

/-- What can become of an item, and how many of the trees behind the tag it takes up: it is left as it
is without the tag, with a reason, or it is a function that ends with its body and is expanded. -/
inductive Settles (item : Item) (source : List Char) (tag : String) (arguments : List Tree × Span) :
    ItemOutcome → Nat → Prop
  | refused {outcome : ItemOutcome} {count : Nat} : outcome.edit = item.dropTag →
      outcome.diagnostics ≠ [] → outcome.isExpanded = false → Stops item.rest count →
      Settles item source tag arguments outcome count
  | expanded {front : List Tree} {header : FunctionHeader} {options : Options} {enum : Name} :
      Expandable tag arguments item.rest front header options enum →
      Settles item source tag arguments (item.expanded source header options enum.text)
        (front.length + 1)

theorem Settles.stops {item : Item} {source : List Char} {tag : String} {arguments : List Tree × Span}
    {outcome : ItemOutcome} {count : Nat} (h : item.Settles source tag arguments outcome count) :
    Stops item.rest count := by
  cases h with
  | refused _ _ _ hstops => exact hstops
  | expanded hfunction => exact .inr ⟨_, _, _, hfunction.rest, rfl, rfl⟩

theorem expand_settles (item : Item) (source : List Char) (tag : String)
    (arguments : List Tree × Span) :
    item.Settles source tag arguments (item.expand source tag arguments.1 arguments.2).1
      (item.expand source tag arguments.1 arguments.2).2 := by
  unfold expand
  split
  · exact .refused rfl (by simp [refused]) rfl (stops_length _)
  · next header hparse =>
    obtain ⟨front, hfront⟩ := FunctionHeader.parse_suffix hparse
    have hcount : item.rest.length - header.rest.length = front.length + 1 := by
      rw [← hfront, List.length_append, List.length_cons]
      omega
    have hstops : Stops item.rest (front.length + 1) := .inr ⟨_, _, _, hfront.symm, rfl, rfl⟩
    simp only [hcount]
    unfold expandFunction
    simp only
    split
    · exact .refused rfl (by simp [badOptions, refused]) rfl hstops
    · next options hoptions =>
      split
      · exact .refused rfl (by simp [refused]) rfl hstops
      · next enum henum => exact .expanded ⟨hparse, hfront.symm, hoptions, henum⟩

end Item

/-- An item is found where the tag's attribute stands. -/
theorem itemAt?_eq_some {source : List Char} {tag : String} {behind ahead : List Tree}
    {outcome : ItemOutcome} {width : Nat}
    (h : itemAt? source tag behind ahead = some (outcome, width)) :
    ∃ pound inner brackets rest count,
      ahead = .punct "#" pound :: .group .bracket inner brackets :: rest ∧ width = count + 2 ∧
      TagMatch.ofBrackets tag inner ≠ .other ∧
      Item.Settles ⟨Item.leadingStart behind pound.startOffset, pound, brackets, rest⟩ source tag
        (TagMatch.ofBrackets tag inner).arguments outcome count := by
  unfold itemAt? at h
  split at h
  · next op pound inner brackets rest =>
    split at h
    · cases h
    · next hop =>
      have hpound : op = "#" := by simpa using hop
      subst hpound
      simp only at h
      split at h
      · cases h
      · next span hmatch =>
        obtain ⟨rfl, rfl⟩ := Prod.mk.inj (Option.some.inj h)
        exact ⟨pound, inner, brackets, rest, _, rfl, rfl, by simp [hmatch],
          .refused rfl (by simp [Item.badOptions, Item.refused]) rfl (Item.stops_length _)⟩
      · next hmatch =>
        obtain ⟨rfl, rfl⟩ := Prod.mk.inj (Option.some.inj h)
        exact ⟨pound, inner, brackets, rest, _, rfl, rfl, by simp [hmatch],
          hmatch ▸ Item.expand_settles _ _ _ ([], Span.unknown)⟩
      · next arguments span hmatch =>
        obtain ⟨rfl, rfl⟩ := Prod.mk.inj (Option.some.inj h)
        exact ⟨pound, inner, brackets, rest, _, rfl, rfl, by simp [hmatch],
          hmatch ▸ Item.expand_settles _ _ _ (arguments, span)⟩
  · cases h

/-- No item begins with a group. -/
theorem itemAt?_group (source : List Char) (tag : String) (behind : List Tree) (d : Delimiter)
    (inner : List Tree) (span : Span) (rest : List Tree) :
    itemAt? source tag behind (.group d inner span :: rest) = none := rfl

/-! ## Attributes in front of a place -/

namespace Item

/-- The brackets of the attributes that end in front of a place, by the trees in front of it, last one
first. -/
def leadingBrackets : List Tree → List Tree
  | brackets :: pound :: before =>
    if pound.isPunct "#" && brackets.isGroup .bracket then brackets :: leadingBrackets before
    else []
  | _ => []

theorem leadingBrackets_attribute (pound brackets : Span) (inner before : List Tree) :
    leadingBrackets (.group .bracket inner brackets :: .punct "#" pound :: before) =
      .group .bracket inner brackets :: leadingBrackets before := rfl

theorem leadingBrackets_singleton (t : Tree) : leadingBrackets [t] = [] := rfl

/-- A tree that ends an attribute is a group in brackets, and the tree in front of it is a `#`. -/
theorem leadingBrackets_ne_nil {t : Tree} {before : List Tree} (h : leadingBrackets (t :: before) ≠ []) :
    ∃ inner brackets pound more, t = .group .bracket inner brackets ∧
      before = .punct "#" pound :: more := by
  unfold leadingBrackets at h
  split at h
  · next bracketsTree poundTree more heq =>
    split at h
    · next hboth =>
      obtain ⟨rfl, rfl⟩ := List.cons.inj heq
      rw [Bool.and_eq_true] at hboth
      cases t with
      | group d inner brackets =>
        cases poundTree with
        | punct op pound =>
          obtain rfl : op = "#" := by simpa [Tree.isPunct] using hboth.1
          obtain rfl : d = .bracket := by simpa [Tree.isGroup] using hboth.2
          exact ⟨inner, brackets, pound, more, rfl, rfl⟩
        | _ => simp [Tree.isPunct] at hboth
      | _ => simp [Tree.isGroup] at hboth
    · exact absurd rfl h
  · exact absurd rfl h

theorem leadingStart_of_leadingBrackets {before : List Tree} (h : leadingBrackets before = [])
    (start : Nat) : leadingStart before start = start := by
  unfold leadingStart
  split
  · unfold leadingBrackets at h
    split at h
    · cases h
    · next hboth => rw [if_neg hboth]
  · rfl

/-- Where attributes stand in front of two places, the first of them begins at one offset. -/
theorem leadingStart_congr {before : List Tree} (h : leadingBrackets before ≠ []) (start start' : Nat) :
    leadingStart before start = leadingStart before start' := by
  cases before with
  | nil => exact absurd rfl h
  | cons t before =>
    obtain ⟨inner, brackets, pound, more, rfl, rfl⟩ := leadingBrackets_ne_nil h
    rfl

end Item

/-! ## The places of a search -/

/-- A place in a list of trees: the trees in front of it, last one first, and the trees behind it. -/
structure Place where
  behind : List Tree
  ahead : List Tree

namespace Place

/-- The place so many trees further on. -/
def skip (p : Place) (count : Nat) : Place :=
  ⟨(p.ahead.take count).reverse ++ p.behind, p.ahead.drop count⟩

/-- What is found at a place. -/
def item? (p : Place) (source : List Char) (tag : String) : Option (ItemOutcome × Nat) :=
  itemAt? source tag p.behind p.ahead

/-- What a search finds from a place on. -/
def items (p : Place) (source : List Char) (tag : String) : List ItemOutcome :=
  itemsIn source tag 0 p.behind p.ahead

end Place

theorem itemsIn_eq_items_skip (source : List Char) (tag : String) (count : Nat) (behind ts : List Tree) :
    itemsIn source tag count behind ts = (Place.skip ⟨behind, ts⟩ count).items source tag := by
  induction ts generalizing count behind with
  | nil =>
    rw [Place.items, Place.skip, List.drop_nil]
    unfold itemsIn
    rfl
  | cons t ts ih =>
    cases count with
    | zero => rfl
    | succ count =>
      rw [itemsIn, ih]
      simp [Place.items, Place.skip]

namespace Place

section

variable {source : List Char} {tag : String} {behind ahead : List Tree} {t : Tree}

theorem itemsInTree_group (d : Delimiter) (inner : List Tree) (span : Span) :
    itemsInTree source tag (.group d inner span) = (Place.mk [] inner).items source tag := by
  rw [itemsInTree, items]

theorem items_nil : (Place.mk behind []).items source tag = [] := by
  rw [items, itemsIn]

theorem items_found {p : Place} {outcome : ItemOutcome} {width : Nat}
    (h : p.item? source tag = some (outcome, width)) :
    p.items source tag = outcome :: (p.skip width).items source tag := by
  obtain ⟨behind, ahead⟩ := p
  obtain ⟨pound, inner, brackets, rest, count, hahead, rfl, -⟩ := itemAt?_eq_some h
  simp only at hahead
  subst hahead
  have h' : itemAt? source tag behind
      (.punct "#" pound :: .group .bracket inner brackets :: rest) = some (outcome, count + 2) := h
  rw [items, itemsIn, h']
  simp only [itemsIn_eq_items_skip]
  simp [items, skip]

theorem items_over (h : (Place.mk behind (t :: ahead)).item? source tag = none) :
    (Place.mk behind (t :: ahead)).items source tag =
      itemsInTree source tag t ++ (Place.mk (t :: behind) ahead).items source tag := by
  have h' : itemAt? source tag behind (t :: ahead) = none := h
  rw [items, itemsIn, h']
  rfl

end

/-- The search comes from one place to another. -/
inductive Comes (source : List Char) (tag : String) : Place → Place → Prop
  | here {p : Place} : Comes source tag p p
  | past {p q : Place} {outcome : ItemOutcome} {width : Nat} :
      p.item? source tag = some (outcome, width) → Comes source tag (p.skip width) q →
      Comes source tag p q
  | beyond {behind ahead : List Tree} {t : Tree} {q : Place} :
      (Place.mk behind (t :: ahead)).item? source tag = none →
      Comes source tag ⟨t :: behind, ahead⟩ q → Comes source tag ⟨behind, t :: ahead⟩ q
  | into {behind ahead inner : List Tree} {d : Delimiter} {span : Span} {q : Place} :
      Comes source tag ⟨[], inner⟩ q → Comes source tag ⟨behind, .group d inner span :: ahead⟩ q

/-- The tree behind the place ends no attribute. -/
def Aligned (p : Place) : Prop := ∀ t ∈ p.ahead.head?, Item.leadingBrackets (t :: p.behind) = []

theorem aligned_start (ts : List Tree) : Aligned ⟨[], ts⟩ := fun t _ => Item.leadingBrackets_singleton t

/-- Behind a tree that is no `#` no attribute can end at once. -/
theorem aligned_of_not_pound {t : Tree} (h : t.isPunct "#" = false) (behind ahead : List Tree) :
    Aligned ⟨t :: behind, ahead⟩ := by
  intro u _
  by_contra hne
  obtain ⟨inner, brackets, pound, more, -, hpound⟩ := Item.leadingBrackets_ne_nil hne
  obtain ⟨rfl, -⟩ := List.cons.inj hpound
  simp [Tree.isPunct] at h

/-- Behind an item there is nothing, or the item ends with a tree that ends no attribute and begins
none. -/
theorem skip_cases {source : List Char} {tag : String} {p : Place} {outcome : ItemOutcome}
    {width : Nat} (h : p.item? source tag = some (outcome, width)) :
    (p.skip width).ahead = [] ∨
      ∃ last more, (p.skip width).behind = last :: more ∧ Item.endsItem last = true := by
  obtain ⟨pound, inner, brackets, rest, count, hahead, rfl, -, hsettles⟩ := itemAt?_eq_some h
  rcases hsettles.stops with hall | ⟨front, last, more, hrest, hlast, rfl⟩
  · left
    simpa [skip, hahead] using hall
  · right
    refine ⟨last, front.reverse ++ .group .bracket inner brackets :: .punct "#" pound :: p.behind, ?_,
      hlast⟩
    have htake : rest.take (front.length + 1) = front ++ [last] := by
      rw [show rest = front ++ last :: more from hrest, List.take_append]
      simp
    simp [skip, hahead, htake]

theorem not_pound_of_endsItem {t : Tree} (h : Item.endsItem t = true) : t.isPunct "#" = false := by
  cases t with
  | punct op span =>
    by_contra hne
    simp_all [Item.endsItem, Tree.isPunct, Tree.isGroup]
  | _ => rfl

theorem leadingBrackets_of_endsItem {t : Tree} (h : Item.endsItem t = true) (before : List Tree) :
    Item.leadingBrackets (t :: before) = [] := by
  by_contra hne
  obtain ⟨inner, brackets, pound, more, rfl, -⟩ := Item.leadingBrackets_ne_nil hne
  simp [Item.endsItem, Tree.isGroup, Tree.isPunct] at h

theorem aligned_skip {source : List Char} {tag : String} {p : Place} {outcome : ItemOutcome}
    {width : Nat} (h : p.item? source tag = some (outcome, width)) : (p.skip width).Aligned := by
  rcases skip_cases h with hnil | ⟨last, more, hbehind, hlast⟩
  · intro t ht
    rw [hnil] at ht
    cases ht
  · have := aligned_of_not_pound (not_pound_of_endsItem hlast) more (p.skip width).ahead
    rwa [← hbehind] at this

theorem sizeOf_le_of_suffix {ts us : List Tree} (h : ts <:+ us) : sizeOf ts ≤ sizeOf us := by
  obtain ⟨front, rfl⟩ := h
  induction front with
  | nil => exact Nat.le_refl _
  | cons t front ih =>
    rw [List.cons_append, List.cons.sizeOf_spec]
    omega

/-- Induction along a search, from a place behind which no attribute ends at once: over an item that
is found, over an attribute as a whole, and over any other tree. -/
theorem search_induction (source : List Char) (tag : String) {motive : (p : Place) → p.Aligned → Prop}
    (nil : ∀ behind h, motive ⟨behind, []⟩ h)
    (found : ∀ p outcome width (hitem : p.item? source tag = some (outcome, width)) h,
      motive (p.skip width) (aligned_skip hitem) → motive p h)
    (attr : ∀ behind pound inner brackets rest h,
      (Place.mk behind (.punct "#" pound :: .group .bracket inner brackets :: rest)).item? source tag =
        none → motive ⟨[], inner⟩ (aligned_start inner) →
      motive ⟨.group .bracket inner brackets :: .punct "#" pound :: behind, rest⟩
        (aligned_of_not_pound rfl _ rest) →
      motive ⟨behind, .punct "#" pound :: .group .bracket inner brackets :: rest⟩ h)
    (beyond : ∀ behind t rest h h', (Place.mk behind (t :: rest)).item? source tag = none →
      Item.leadingBrackets (t :: behind) = [] →
      (∀ d inner span, t = .group d inner span → motive ⟨[], inner⟩ (aligned_start inner)) →
      motive ⟨t :: behind, rest⟩ h' → motive ⟨behind, t :: rest⟩ h)
    (p : Place) (h : p.Aligned) : motive p h := by
  obtain ⟨behind, ahead⟩ := p
  induction hsize : sizeOf ahead using Nat.strongRecOn generalizing behind ahead with
  | _ size ih =>
    subst hsize
    cases ahead with
    | nil => exact nil behind h
    | cons t rest =>
      cases hitem : (Place.mk behind (t :: rest)).item? source tag with
      | some outcomeAndWidth =>
        obtain ⟨outcome, width⟩ := outcomeAndWidth
        refine found _ outcome width hitem h (ih _ ?_ _ _ (aligned_skip hitem) rfl)
        obtain ⟨_, _, _, _, count, -, rfl, -⟩ := itemAt?_eq_some hitem
        have hle := sizeOf_le_of_suffix (List.drop_suffix (count + 1) rest)
        simp only [List.drop_succ_cons, List.cons.sizeOf_spec] at hle ⊢
        omega
      | none =>
        by_cases hattr : ∃ u more, rest = u :: more ∧ Item.leadingBrackets (u :: t :: behind) ≠ []
        · obtain ⟨u, more, rfl, hne⟩ := hattr
          obtain ⟨inner, brackets, pound, _, rfl, hpound⟩ := Item.leadingBrackets_ne_nil hne
          obtain ⟨rfl, -⟩ := List.cons.inj hpound
          refine attr behind pound inner brackets more h hitem
            (ih _ ?_ _ _ (aligned_start inner) rfl)
            (ih _ ?_ _ _ (aligned_of_not_pound rfl _ more) rfl)
          all_goals
            simp only [List.cons.sizeOf_spec, Tree.group.sizeOf_spec]
            omega
        · have haligned : Aligned ⟨t :: behind, rest⟩ := by
            intro u hu
            by_contra hne
            obtain ⟨more, rfl⟩ := List.head?_eq_some_iff.1 hu
            exact hattr ⟨u, more, rfl, hne⟩
          refine beyond behind t rest h haligned hitem (h t rfl) ?_ (ih _ ?_ _ _ haligned rfl)
          · rintro d inner span rfl
            refine ih _ ?_ _ _ (aligned_start inner) rfl
            simp only [List.cons.sizeOf_spec, Tree.group.sizeOf_spec]
            omega
          · rw [List.cons.sizeOf_spec]
            omega

/-- What stands at a place that the search comes to is found. -/
theorem Comes.mem_items {source : List Char} {tag : String} {p q : Place} {outcome : ItemOutcome}
    {width : Nat} (h : Comes source tag p q) (hfound : q.item? source tag = some (outcome, width)) :
    outcome ∈ p.items source tag := by
  induction h with
  | here =>
    rw [items_found hfound]
    exact List.mem_cons_self
  | past hitem _ ih =>
    rw [items_found hitem]
    exact List.mem_cons_of_mem _ (ih hfound)
  | beyond hitem _ ih =>
    rw [items_over hitem]
    exact List.mem_append_right _ (ih hfound)
  | into _ ih =>
    rw [items_over (itemAt?_group source tag _ _ _ _ _)]
    exact List.mem_append_left _ (ih hfound)

theorem items_attr {source : List Char} {tag : String} {behind inner rest : List Tree}
    {pound brackets : Span}
    (h : (Place.mk behind (.punct "#" pound :: .group .bracket inner brackets :: rest)).item?
      source tag = none) :
    (Place.mk behind (.punct "#" pound :: .group .bracket inner brackets :: rest)).items source tag =
      (Place.mk [] inner).items source tag ++
      (Place.mk (.group .bracket inner brackets :: .punct "#" pound :: behind) rest).items
        source tag := by
  rw [items_over h, items_over (itemAt?_group source tag _ _ _ _ _), itemsInTree_group]
  simp [itemsInTree]

theorem Comes.over_attr {source : List Char} {tag : String} {behind inner rest : List Tree}
    {pound brackets : Span} {q : Place}
    (h : (Place.mk behind (.punct "#" pound :: .group .bracket inner brackets :: rest)).item?
      source tag = none)
    (hq : Comes source tag ⟨.group .bracket inner brackets :: .punct "#" pound :: behind, rest⟩ q) :
    Comes source tag ⟨behind, .punct "#" pound :: .group .bracket inner brackets :: rest⟩ q :=
  .beyond h (.beyond (itemAt?_group source tag _ _ _ _ _) hq)

/-- What a search finds stands at a place that it comes to. -/
theorem exists_of_mem_items {source : List Char} {tag : String} {p : Place} (h : p.Aligned)
    {outcome : ItemOutcome} (hmem : outcome ∈ p.items source tag) :
    ∃ q width, Comes source tag p q ∧ q.item? source tag = some (outcome, width) := by
  induction p, h using search_induction source tag with
  | nil behind =>
    rw [items_nil] at hmem
    cases hmem
  | found p first width hitem _ ih =>
    rw [items_found hitem] at hmem
    rcases List.mem_cons.1 hmem with rfl | hmem
    · exact ⟨p, width, .here, hitem⟩
    · obtain ⟨q, width', hcomes, hq⟩ := ih hmem
      exact ⟨q, width', .past hitem hcomes, hq⟩
  | attr behind pound inner brackets rest _ hitem ihinner ih =>
    rw [items_attr hitem] at hmem
    rcases List.mem_append.1 hmem with hmem | hmem
    · obtain ⟨q, width, hcomes, hq⟩ := ihinner hmem
      exact ⟨q, width, .beyond hitem (.into hcomes), hq⟩
    · obtain ⟨q, width, hcomes, hq⟩ := ih hmem
      exact ⟨q, width, hcomes.over_attr hitem, hq⟩
  | beyond behind t rest _ _ hitem _ ihinner ih =>
    rw [items_over hitem] at hmem
    rcases List.mem_append.1 hmem with hmem | hmem
    · cases t with
      | group d inner span =>
        rw [itemsInTree_group] at hmem
        obtain ⟨q, width, hcomes, hq⟩ := ihinner d inner span rfl hmem
        exact ⟨q, width, .into hcomes, hq⟩
      | _ => simp [itemsInTree] at hmem
    · obtain ⟨q, width, hcomes, hq⟩ := ih hmem
      exact ⟨q, width, .beyond hitem hcomes, hq⟩

end Place

theorem expandSource_of_tokenize {source : List Char} {file : Option String} {trees : List Tree}
    (h : tokenize source file = .ok trees) (tag : String) :
    expandSource source file tag = .ofItems source ((Place.mk [] trees).items source tag) := by
  rw [expandSource, h]
  rfl

/-- A function that is reported as expanded stands at a place that the search comes to. -/
theorem exists_of_expanded {source : List Char} {file : Option String} {tag : String}
    (h : (expandSource source file tag).functions.any FunctionReport.expanded = true) :
    ∃ trees p outcome width, tokenize source file = .ok trees ∧
      Place.Comes source tag ⟨[], trees⟩ p ∧ p.item? source tag = some (outcome, width) ∧
      outcome.isExpanded = true := by
  cases ht : tokenize source file with
  | error e =>
    rw [expandSource, ht] at h
    cases h
  | ok trees =>
    rw [expandSource_of_tokenize ht] at h
    obtain ⟨report, hreport, hexpanded⟩ := List.any_eq_true.1 h
    obtain ⟨outcome, hmem, hfunction⟩ := List.mem_filterMap.1 hreport
    obtain ⟨p, width, hp, hitem⟩ := Place.exists_of_mem_items (Place.aligned_start trees) hmem
    exact ⟨trees, p, outcome, width, rfl, hp, hitem, by
      rw [ItemOutcome.isExpanded, hfunction]
      exact hexpanded⟩

end InlineVariants
