import InlineVariants.Proofs.Relexing
import InlineVariants.Proofs.Scanning

/-!
# Trees without a tag

Whether a search finds anything depends on the trees alone, not on the text and not on what stands in
front: it finds nothing exactly if no attribute in the trees, at any depth, is the tag
(`Place.items_eq_nil_iff`). Spans do not matter for that.
-/

namespace InlineVariants

/-- Whether the brackets hold the tag. -/
def TagMatch.isTag : TagMatch → Bool
  | other => false
  | _ => true

/-- Whether the brackets of an attribute hold the tag. -/
def holdsTag (tag : String) (inner : List Tree) : Bool := (TagMatch.ofBrackets tag inner).isTag

/-- Whether a tree is a group in brackets that hold the tag. -/
def Tree.bracketsTag (tag : String) : Tree → Bool
  | .group .bracket inner _ => holdsTag tag inner
  | _ => false

/-- Whether the trees begin with the tag's attribute. -/
def beginsTag (tag : String) : List Tree → Bool
  | [] => false
  | t :: ts => t.isPunct "#" && ts.head?.any (Tree.bracketsTag tag)

mutual

/-- Whether no attribute inside a tree is the tag. -/
def Tree.tagFree (tag : String) : Tree → Bool
  | .group _ stream _ => InlineVariants.tagFree tag stream
  | .ident _ _ => true
  | .punct _ _ => true
  | .literal _ _ _ => true

/-- Whether no attribute in the trees, at any depth, is the tag. -/
def tagFree (tag : String) : List Tree → Bool
  | [] => true
  | t :: ts => !beginsTag tag (t :: ts) && (t.tagFree tag && tagFree tag ts)

end

/-! ## What a search finds -/

theorem exists_of_beginsTag {tag : String} {ts : List Tree} (h : beginsTag tag ts = true) :
    ∃ pound inner brackets rest, ts = .punct "#" pound :: .group .bracket inner brackets :: rest ∧
      holdsTag tag inner = true := by
  rcases ts with _ | ⟨t, _ | ⟨u, rest⟩⟩
  · cases h
  · simp [beginsTag] at h
  · simp only [beginsTag, List.head?_cons, Option.any_some, Bool.and_eq_true] at h
    obtain ⟨pound, rfl⟩ := Tree.eq_punct h.1
    cases u with
    | group d inner brackets =>
      cases d with
      | bracket => exact ⟨pound, inner, brackets, rest, rfl, h.2⟩
      | _ => simp [Tree.bracketsTag] at h
    | _ => simp [Tree.bracketsTag] at h

theorem itemAt?_eq_none_iff {source : List Char} {tag : String} {behind ahead : List Tree} :
    itemAt? source tag behind ahead = none ↔ beginsTag tag ahead = false := by
  unfold itemAt?
  split
  · rename_i op pound inner brackets rest
    simp only [beginsTag, Tree.isPunct, List.head?_cons, Option.any_some, Tree.bracketsTag, holdsTag]
    by_cases hop : op = "#"
    · subst hop
      simp only [bne_self_eq_false, Bool.false_eq_true, if_false, beq_self_eq_true, Bool.true_and]
      cases TagMatch.ofBrackets tag inner <;> simp [TagMatch.isTag]
    · simp [hop]
  · rename_i hne
    refine iff_of_true rfl (Bool.eq_false_iff.2 fun hbegins => ?_)
    obtain ⟨pound, inner, brackets, rest, rfl, -⟩ := exists_of_beginsTag hbegins
    exact hne "#" pound inner brackets rest rfl

mutual

theorem itemsInTree_eq_nil_iff (source : List Char) (tag : String) :
    ∀ t : Tree, itemsInTree source tag t = [] ↔ t.tagFree tag = true
  | .group d stream span => by
    rw [Place.itemsInTree_group, Place.items_eq_nil_iff source tag [] stream, Tree.tagFree]
  | .ident _ _ => by simp [itemsInTree, Tree.tagFree]
  | .punct _ _ => by simp [itemsInTree, Tree.tagFree]
  | .literal _ _ _ => by simp [itemsInTree, Tree.tagFree]

/-- A search finds nothing exactly where no attribute is the tag. -/
theorem Place.items_eq_nil_iff (source : List Char) (tag : String) :
    ∀ behind ts : List Tree, (Place.mk behind ts).items source tag = [] ↔ tagFree tag ts = true
  | behind, [] => by simp [Place.items_nil, tagFree]
  | behind, t :: ts => by
    cases hitem : (Place.mk behind (t :: ts)).item? source tag with
    | none =>
      have hbegins : beginsTag tag (t :: ts) = false := itemAt?_eq_none_iff.1 hitem
      rw [Place.items_over hitem, List.append_eq_nil_iff, itemsInTree_eq_nil_iff source tag t,
        Place.items_eq_nil_iff source tag (t :: behind) ts, tagFree, hbegins]
      simp
    | some found =>
      have hbegins : beginsTag tag (t :: ts) ≠ false := by
        intro hbegins
        cases (itemAt?_eq_none_iff.2 hbegins).symm.trans hitem
      rw [Place.items_found hitem, tagFree, Bool.of_not_eq_false hbegins]
      simp

end

/-- An expansion that has found nothing: it has nothing to report and gives the text back. -/
def Expansion.Silent (text : List Char) (e : Expansion) : Prop :=
  e.functions = [] ∧ e.diagnostics = [] ∧ e.text = text

/-- An item that is found is reported, as a function or with a diagnostic. -/
theorem reported_of_item? {source : List Char} {tag : String} {p : Place} {outcome : ItemOutcome}
    {width : Nat} (h : p.item? source tag = some (outcome, width)) :
    outcome.function ≠ none ∨ outcome.diagnostics ≠ [] := by
  obtain ⟨_, _, _, _, _, -, -, -, hsettles⟩ := itemAt?_eq_some h
  cases hsettles with
  | refused _ hreported => exact .inr hreported
  | expanded => exact .inl (by simp [Item.expanded])

/-- An expansion is silent exactly if the text can be read and holds no tag. -/
theorem silent_iff {text : List Char} {file : Option String} {trees : List Tree}
    (h : tokenize text file = .ok trees) (tag : String) :
    (expandSource text file tag).Silent text ↔ tagFree tag trees = true := by
  rw [expandSource_of_tokenize h, ← Place.items_eq_nil_iff text tag [] trees]
  constructor
  · rintro ⟨hfunctions, hdiagnostics, -⟩
    by_contra hne
    obtain ⟨outcome, hmem⟩ := List.exists_mem_of_ne_nil _ hne
    obtain ⟨p, width, -, hitem⟩ := Place.exists_of_mem_items (Place.aligned_start trees) hmem
    rcases reported_of_item? hitem with hfunction | hdiagnostic
    · obtain ⟨report, hreport⟩ := Option.ne_none_iff_exists'.1 hfunction
      have : report ∈ (Expansion.ofItems text ((Place.mk [] trees).items text tag)).functions :=
        List.mem_filterMap.2 ⟨outcome, hmem, hreport⟩
      rw [hfunctions] at this
      cases this
    · obtain ⟨d, hd⟩ := List.exists_mem_of_ne_nil _ hdiagnostic
      have : d ∈ (Expansion.ofItems text ((Place.mk [] trees).items text tag)).diagnostics :=
        List.mem_flatMap.2 ⟨outcome, hmem, hd⟩
      rw [hdiagnostics] at this
      cases this
  · intro hnil
    rw [hnil]
    exact ⟨rfl, rfl, by simp [Expansion.ofItems, Edit.applyAll]⟩

/-! ## What of the trees matters -/

/-- A tree without spans and without what is inside a group. -/
def Tree.outline : Tree → Tree
  | .group d _ _ => .group d [] Span.unknown
  | t => t.bare

section

variable {t : Tree} {ts us : List Tree}

@[simp] theorem isIdent_outline (t : Tree) : t.outline.isIdent = t.isIdent := by cases t <;> rfl

@[simp] theorem isWord_outline (word : String) (t : Tree) : t.outline.isWord word = t.isWord word := by
  cases t <;> rfl

@[simp] theorem isPunct_outline (op : String) (t : Tree) : t.outline.isPunct op = t.isPunct op := by
  cases t <;> rfl

theorem isPathTail_outline (ts : List Tree) : isPathTail (ts.map Tree.outline) = isPathTail ts := by
  fun_induction isPathTail ts with
  | case1 => rfl
  | case2 sep name rest ih => simp [isPathTail, ih]
  | case3 => rfl

theorem isRelativePath_outline (ts : List Tree) :
    isRelativePath (ts.map Tree.outline) = isRelativePath ts := by
  cases ts <;> simp [isRelativePath, isPathTail_outline]

theorem isTagPath_outline (tag : String) (ts : List Tree) :
    isTagPath tag (ts.map Tree.outline) = isTagPath tag ts := by
  have hpath : isPath (ts.map Tree.outline) = isPath ts := by
    cases ts with
    | nil => rfl
    | cons t ts =>
      rw [List.map_cons, isPath, isPath, isPunct_outline, isRelativePath_outline, ← List.map_cons,
        isRelativePath_outline]
  have hlast : (ts.map Tree.outline).getLast?.any (·.isWord tag) = ts.getLast?.any (·.isWord tag) := by
    rw [List.getLast?_map]
    cases ts.getLast? <;> simp
  rw [isTagPath, isTagPath, hpath, hlast]

/-- Whether brackets hold the tag does not depend on spans, nor on what is inside of groups. -/
theorem holdsTag_outline (tag : String) (ts : List Tree) :
    holdsTag tag (ts.map Tree.outline) = holdsTag tag ts := by
  unfold holdsTag TagMatch.ofBrackets
  rw [List.getLast?_map, ← List.map_dropLast]
  cases hlast : ts.getLast? with
  | none => simp only [Option.map_none, isTagPath_outline]
  | some t =>
    cases t with
    | group d inner span =>
      simp only [Option.map_some, Tree.outline, isTagPath_outline]
      split <;> [rfl; (split <;> rfl)]
    | ident | punct | literal => simp only [Option.map_some, Tree.outline, Tree.bare, isTagPath_outline]

theorem holdsTag_congr {tag : String} (h : ts.map Tree.outline = us.map Tree.outline) :
    holdsTag tag ts = holdsTag tag us := by
  rw [← holdsTag_outline, h, holdsTag_outline]

/-- Whether a tree may be a part of a path. -/
def Tree.isStep (t : Tree) : Bool := t.isIdent || t.isPunct "::"

theorem isStep_of_isPathTail (h : isPathTail ts = true) : ∀ t ∈ ts, t.isStep = true := by
  fun_induction isPathTail ts with
  | case1 => nofun
  | case2 sep name rest ih =>
    simp only [Bool.and_eq_true] at h
    rintro t (_ | ⟨_, _ | ⟨_, ht⟩⟩)
    · simp [Tree.isStep, h.1.1]
    · simp [Tree.isStep, h.1.2]
    · exact ih h.2 t ht
  | case3 => cases h

theorem isStep_of_isRelativePath (h : isRelativePath ts = true) : ∀ t ∈ ts, t.isStep = true := by
  cases ts with
  | nil => nofun
  | cons name rest =>
    simp only [isRelativePath, Bool.and_eq_true] at h
    rintro t (_ | ⟨_, ht⟩)
    · simp [Tree.isStep, h.1]
    · exact isStep_of_isPathTail h.2 t ht

theorem isStep_of_isPath (h : isPath ts = true) : ∀ t ∈ ts, t.isStep = true := by
  cases ts with
  | nil => nofun
  | cons first rest =>
    rw [isPath] at h
    split at h
    · next hfirst =>
      rintro t (_ | ⟨_, ht⟩)
      · simp [Tree.isStep, hfirst]
      · exact isStep_of_isRelativePath h t ht
    · exact isStep_of_isRelativePath h

/-- A tree that is a group. -/
def Tree.IsGroup (t : Tree) : Prop := ∃ d inner span, t = .group d inner span

/-- Brackets that hold the tag hold steps of a path, and perhaps a group behind them. -/
theorem isStep_of_holdsTag {tag : String} (h : holdsTag tag ts = true) :
    (∀ t ∈ ts.dropLast, t.isStep = true) ∧ ∀ t ∈ ts.getLast?, t.isStep = true ∨ t.IsGroup := by
  unfold holdsTag TagMatch.ofBrackets at h
  split at h
  · next d arguments span hlast =>
    split at h
    · cases h
    · next hpath =>
      simp only [Bool.not_eq_true', Bool.not_eq_false, isTagPath, Bool.and_eq_true] at hpath
      refine ⟨isStep_of_isPath hpath.1, ?_⟩
      intro t ht
      rw [hlast] at ht
      cases ht
      exact .inr ⟨d, arguments, span, rfl⟩
  · split at h
    · next hpath =>
      rw [isTagPath, Bool.and_eq_true] at hpath
      have hstep := isStep_of_isPath hpath.1
      exact ⟨fun t ht => hstep t (List.dropLast_subset _ ht),
        fun t ht => .inl (hstep t (List.mem_of_getLast? ht))⟩
    · cases h

end

/-! ## Spans -/

theorem outline_bare (t : Tree) : t.bare.outline = t.outline := by cases t <;> rfl

theorem map_outline_bareOf (ts : List Tree) : (bareOf ts).map Tree.outline = ts.map Tree.outline := by
  induction ts with
  | nil => rfl
  | cons t ts ih => rw [bareOf, List.map_cons, List.map_cons, outline_bare, ih]

theorem bracketsTag_bare (tag : String) (t : Tree) : t.bare.bracketsTag tag = t.bracketsTag tag := by
  cases t with
  | group d inner span =>
    cases d with
    | bracket => exact holdsTag_congr (map_outline_bareOf inner)
    | _ => rfl
  | _ => rfl

theorem beginsTag_bareOf (tag : String) (ts : List Tree) :
    beginsTag tag (bareOf ts) = beginsTag tag ts := by
  rcases ts with _ | ⟨t, _ | ⟨u, ts⟩⟩
  · rfl
  · simp [bareOf, beginsTag]
  · simp only [bareOf, beginsTag, List.head?_cons, Option.any_some, bracketsTag_bare]
    cases t <;> rfl

mutual

theorem tagFree_bare (tag : String) : ∀ t : Tree, t.bare.tagFree tag = t.tagFree tag
  | .group d stream span => by
    rw [Tree.bare, Tree.tagFree, Tree.tagFree, tagFree_bareOf tag stream]
  | .ident _ _ => rfl
  | .punct _ _ => rfl
  | .literal _ _ _ => rfl

theorem tagFree_bareOf (tag : String) : ∀ ts : List Tree, tagFree tag (bareOf ts) = tagFree tag ts
  | [] => rfl
  | t :: ts => by
    rw [tagFree, ← beginsTag_bareOf, bareOf, tagFree, tagFree_bare tag t, tagFree_bareOf tag ts]

end

end InlineVariants
