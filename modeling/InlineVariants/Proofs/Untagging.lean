import InlineVariants.Proofs.Emerging

/-!
# What goes with the tag

Whatever becomes of an annotated item, its tag is taken out of the text. What goes with it reaches up
to the next tree: the attribute, and then blanks and comments. Everything else in front of the body of
a function that is expanded is in the expanded text as it was, and so is everything of an item that is
not expanded. This is so unless the edits get into each other's way, which takes an item in an attribute
in front of the tag of a function.

Main statement: `expandSource_drops_tag`.
-/

namespace InlineVariants

open Text

/-! ## The text around one edit -/

namespace Edit

variable {s : List Char} {a b m : Nat} {e : Edit} {es fs : List Edit}

/-- The text with all edits made is what they make of the text in front of one of them, its replacement,
and what they make of the text behind it. -/
theorem Within.split (h : Within b a (es ++ e :: fs)) :
    Within e.start a es ∧ Within b e.stop fs ∧
      substituted s b a (es ++ e :: fs) =
        substituted s e.start a es ++ (e.replacement ++ substituted s b e.stop fs) := by
  induction es generalizing a with
  | nil => exact ⟨h.1, h.2.2, rfl⟩
  | cons d es ih =>
    obtain ⟨hstart, hlt, hrest⟩ := h
    obtain ⟨hes, hfs, heq⟩ := ih hrest
    refine ⟨⟨hstart, hlt, hes⟩, hfs, ?_⟩
    rw [List.cons_append, substituted, heq, substituted]
    simp only [List.append_assoc]

/-- Edits that begin behind an offset leave the text up to there as it is. -/
theorem Within.copy (h : Within b a es) (ham : a ≤ m) (hmb : m ≤ b) (hm : ∀ e ∈ es, m ≤ e.start) :
    Within b m es ∧ substituted s b a es = slice s a m ++ substituted s b m es := by
  have hes : Within b m es := by
    cases es with
    | nil => exact hmb
    | cons e es => exact ⟨hm e List.mem_cons_self, h.2⟩
  have hnone : Within m a [] := ham
  exact ⟨hes, substituted_append s hnone hes⟩

end Edit

/-! ## The place of an item among all items -/

namespace Place

variable {file : Option String} {s : List Char} {tag : String} {a m b : Nat} {p q : Place}
  {outcome : ItemOutcome} {width : Nat}

/-- An item that a search comes to: the items that are found behind it begin behind its end, or it stands
in an attribute in front of their tag. -/
theorem Comes.items_split (haligned : p.Aligned) (hp : p.Stands file s a m b) (h : Comes s tag p q)
    (hitem : q.item? s tag = some (outcome, width)) :
    ∃ front back a' m' b' last, p.items s tag = front ++ outcome :: back ∧ q.Stands file s a' m' b' ∧
      Stands ⟨q.behind, q.ahead.take width⟩ file s a' m' last ∧ last ≤ b ∧
      ∀ y ∈ back, last ≤ y.edit.start ∨ p.HeldBy s tag outcome y := by
  induction p, haligned using search_induction s tag generalizing a m b with
  | nil behind => cases (h.nil_inv rfl).symm.trans hitem
  | found p first count hfound _ ih =>
    rw [items_found hfound]
    rcases h.found_inv hfound with rfl | hpast
    · obtain ⟨rfl, rfl⟩ := Prod.mk.inj (Option.some.inj (hfound.symm.trans hitem))
      have hsplit := hp.ahead
      rw [← List.take_append_drop count q.ahead] at hsplit
      obtain ⟨last, htake, hdrop⟩ := hsplit.append_inv
      have hskip : (q.skip count).Stands file s a last b := by
        refine ⟨?_, hdrop⟩
        rw [Place.skip, List.reverse_append, List.reverse_reverse]
        exact hp.behind.append htake
      refine ⟨[], _, a, m, b, last, rfl, hp, ⟨hp.behind, htake⟩, hdrop.le, fun y hy => .inl ?_⟩
      exact (hskip.ranges (aligned_skip hfound) y hy).le_start_skip hfound hy
    · obtain ⟨m', -, hskip⟩ := hp.skip count
      obtain ⟨front, back, a', m'', b', last, hitems, hq, hown, hlast, hback⟩ := ih hskip hpast
      refine ⟨first :: front, back, a', m'', b', last, by rw [hitems]; rfl, hq, hown, hlast, fun y hy => ?_⟩
      exact (hback y hy).imp_right (HeldBy.mono fun _ => .past hfound)
  | attr behind pound inner brackets rest _ hnone ihinner ih =>
    obtain ⟨i, j, hi, -, hpound, hbetween⟩ := hp.over
    obtain ⟨k, l, hk, -, hbrackets, htail⟩ := hbetween.over
    rw [items_attr hnone]
    rcases h.over_inv hnone hitem with hover | ⟨d, stream, span, hgroup, -⟩
    · rcases hover.over_inv (itemAt?_group s tag _ _ _ _ _) hitem with
        hover | ⟨d, stream, span, hgroup, hinto⟩
      · obtain ⟨front, back, a', m', b', last, hitems, hq, hown, hlast, hback⟩ := ih htail hover
        refine ⟨_ ++ front, back, a', m', b', last, by rw [hitems, List.append_assoc], hq, hown, hlast,
          fun y hy => ?_⟩
        exact (hback y hy).imp_right (HeldBy.mono fun _ hr => hr.over_attr hnone)
      · obtain ⟨-, rfl, -⟩ := Tree.group.inj hgroup
        obtain ⟨front, back, a', m', b', last, hitems, hq, hown, hlast, hback⟩ :=
          ihinner (stands_inner hbrackets) hinto
        have hmem : outcome ∈ (Place.mk [] inner).items s tag := by rw [hitems]; simp
        have hbounds := hbrackets.bounds
        refine ⟨front, back ++ _, a', m', b', last, by rw [hitems, List.append_assoc]; rfl, hq, hown, ?_, ?_⟩
        · have := htail.ahead.le
          omega
        · intro y hy
          rcases List.mem_append.1 hy with hy | hy
          · exact (hback y hy).imp_right (HeldBy.mono fun _ hr => .beyond hnone (.into hr))
          · obtain ⟨-, hle | ⟨-, hheld⟩⟩ := hp.behind_attr hnone hpound hi htail hy
            · exact .inl (by omega)
            · exact .inr (hheld outcome hmem)
    · cases hgroup
  | beyond behind t rest _ haligned hnone hlead ihinner ih =>
    obtain ⟨i, j, hi, -, ht, htail⟩ := hp.over
    rw [items_over hnone]
    rcases h.over_inv hnone hitem with hover | ⟨d, inner, span, rfl, hinto⟩
    · obtain ⟨front, back, a', m', b', last, hitems, hq, hown, hlast, hback⟩ := ih htail hover
      refine ⟨_ ++ front, back, a', m', b', last, by rw [hitems, List.append_assoc], hq, hown, hlast,
        fun y hy => ?_⟩
      exact (hback y hy).imp_right (HeldBy.mono fun _ hr => .beyond hnone hr)
    · obtain ⟨front, back, a', m', b', last, hitems, hq, hown, hlast, hback⟩ :=
        ihinner d inner span rfl (stands_inner ht) hinto
      have hbounds := ht.bounds
      have hj := htail.ahead.le
      rw [itemsInTree_group]
      refine ⟨front, back ++ _, a', m', b', last, by rw [hitems, List.append_assoc]; rfl, hq, hown,
        by omega, ?_⟩
      intro y hy
      rcases List.mem_append.1 hy with hy | hy
      · exact (hback y hy).imp_right (HeldBy.mono fun _ hr => .into hr)
      · have hle := (htail.ranges haligned y hy).le_start hlead
        exact .inl (by omega)

end Place

/-! ## Blanks and comments -/

/-- Only a comment brings anything but blanks in front of the next tree. -/
theorem Skipped.blank_iff {cs rest : List Char} (h : Skipped cs rest) :
    ∃ gap, cs = gap ++ rest ∧ ((∀ c ∈ gap, isBlank c = true) ↔ '/' ∉ gap) := by
  have hslash : isBlank '/' = false := by decide
  induction h with
  | nil => exact ⟨[], rfl, by simp⟩
  | @blank c cs rest hc _ ih =>
    obtain ⟨gap, rfl, hgap⟩ := ih
    refine ⟨c :: gap, rfl, ?_⟩
    have hne : '/' ≠ c := by
      rintro rfl
      rw [hslash] at hc
      cases hc
    simp [hc, hne, hgap]
  | @line body cs rest _ _ _ ih =>
    obtain ⟨gap, rfl, -⟩ := ih
    exact ⟨'/' :: '/' :: (body ++ gap), by simp, by simp [hslash]⟩
  | @block body cs rest _ _ ih =>
    obtain ⟨gap, rfl, -⟩ := ih
    exact ⟨'/' :: '*' :: (body ++ gap), by simp, by simp [hslash]⟩

theorem Skipped.slice_blank_iff {s : List Char} {b c : Nat} (h : Skipped (s.drop b) (s.drop c))
    (hbc : b ≤ c) (hc : c ≤ s.length) :
    (∀ x ∈ slice s b c, isBlank x = true) ↔ '/' ∉ slice s b c := by
  obtain ⟨gap, hgap, hiff⟩ := h.blank_iff
  have hlen := congrArg List.length hgap
  rw [List.length_append, List.length_drop, List.length_drop] at hlen
  have hslice : slice s b c = gap := by
    rw [slice_natCast, hgap, show c - b = gap.length by omega, List.take_left]
  rw [hslice]
  exact hiff

theorem Place.TagStands.slice_blank_iff {p : Place} {file : Option String} {s : List Char} {a b c : Nat}
    (h : p.TagStands file s a b c) :
    (∀ x ∈ slice s b c, isBlank x = true) ↔ '/' ∉ slice s b c := by
  obtain ⟨_, _, _, _, _, _, -, -, -, -, hbrackets, hbc, hskip, hnext⟩ := h
  apply hskip.slice_blank_iff hbc
  rcases hnext with ⟨-, rfl⟩ | ⟨t, _, k, -, ht⟩
  · exact hbrackets.bounds.2
  · have := ht.bounds
    omega

/-! ## The expanded text -/

namespace Place

variable {file : Option String} {s : List Char} {tag : String} {p : Place} {outcome : ItemOutcome} {width : Nat}

/-- Of the text of an item that is not expanded everything is there but what stands between `a` and `c`:
around it the items in front of it and those behind it have made their edits. -/
def LeftAlone (p : Place) (file : Option String) (s : List Char) (width a c : Nat) (front back : List Edit)
    (text : List Char) : Prop :=
  ∃ last, LieBetween file s c last ((p.ahead.take width).drop 2) ∧
    Edit.Within a 0 front ∧ Edit.Within s.length last back ∧
    text = Edit.substituted s a 0 front ++ (slice s c last ++ Edit.substituted s s.length last back)

/-- Of the text from the first attribute of a function up to its body, which stands between `first` and
`last`, everything is there but what stands between `a` and `c`. The enum stands in front, and the body has
its markers replaced. -/
def Untagged (p : Place) (file : Option String) (s : List Char) (tag : String) (a c : Nat)
    (front back : List Edit) (text : List Char) : Prop :=
  ∃ pound inner brackets rest lead header options enum start first last,
    p.ahead = .punct "#" pound :: .group .bracket inner brackets :: rest ∧
    Item.Expandable tag (TagMatch.ofBrackets tag inner).arguments rest lead header options enum ∧
    (Tree.group .brace header.body header.bodySpan).LiesAt file s first last ∧
    start = Item.leadingStart p.behind a ∧ start ≤ a ∧ c ≤ first ∧
    Edit.Within start 0 front ∧ Edit.Within s.length last back ∧
    text = Edit.substituted s start 0 front ++
      (header.outline options enum.text).text s (Item.lineIndent s start) ++
      '\n' :: '\n' :: Item.lineIndent s start ++
      (slice s start a ++ slice s c first ++ header.bodyText s enum.text) ++
      Edit.substituted s s.length last back

end Place

/-- Where no item stands in an attribute in front of the tag of a function that is expanded, the expanded
text has of every item what it had but for the tag, and the blanks and comments behind it; of a function
that is expanded this is so up to its body. What goes behind the tag is blank exactly if it has no
comment. -/
theorem expandSource_drops_tag {s : List Char} {file : Option String} {trees : List Tree} {tag : String}
    {p : Place} {outcome : ItemOutcome} {width : Nat} (h : tokenize s file = .ok trees)
    (hfree : ∀ x y, ¬ Place.HeldBy ⟨[], trees⟩ s tag x y) (hp : Place.Comes s tag ⟨[], trees⟩ p)
    (hitem : p.item? s tag = some (outcome, width)) :
    ∃ front back a b c, itemsIn s tag 0 [] trees = front ++ outcome :: back ∧ p.TagStands file s a b c ∧
      (outcome.isExpanded = false → p.LeftAlone file s width a c (front.map ItemOutcome.edit)
        (back.map ItemOutcome.edit) (expandSource s file tag).text) ∧
      (outcome.isExpanded = true → p.Untagged file s tag a c (front.map ItemOutcome.edit)
        (back.map ItemOutcome.edit) (expandSource s file tag).text) ∧
      ((∀ x ∈ slice s b c, isBlank x = true) ↔ '/' ∉ slice s b c) := by
  obtain ⟨q, rest, hr, hrest⟩ := tokenize_reads h
  have hroot : Place.Stands ⟨[], trees⟩ file s 0 0 s.length := ⟨.nil 0, hr.lieBetween_ends hrest⟩
  obtain ⟨front, back, lo, m, hi, last, hitems, hstands, hown, hlast, hback⟩ :=
    hp.items_split (Place.aligned_start trees) hroot hitem
  replace hitems : itemsIn s tag 0 [] trees = front ++ outcome :: back := hitems
  obtain ⟨-, hordered⟩ := items_located h tag
  have hdisjoint : ((itemsIn s tag 0 [] trees).map ItemOutcome.edit).Pairwise fun e f => e.stop ≤ f.start :=
    List.pairwise_map.2 (hordered.imp fun hxy => hxy.resolve_right fun hin => hfree _ _ hin.2)
  obtain ⟨hwithin, htext⟩ := expandSource_substituted h hdisjoint
  rw [hitems, List.map_append, List.map_cons] at hwithin htext
  obtain ⟨hfront, hbehind, hsplit⟩ := hwithin.split (s := s)
  obtain ⟨pound, inner, brackets, rest, count, hahead, rfl, -, hsettles⟩ := itemAt?_eq_some hitem
  obtain ⟨b, hm, htag, -⟩ := hstands.tagStands hahead (Item.leadingStart p.behind pound.startOffset)
  obtain ⟨-, -, -, hrest⟩ := hown.tagStands (by rw [hahead]; rfl)
    (Item.leadingStart p.behind pound.startOffset)
  rw [Place.tagStop_take hsettles.stops] at hrest
  refine ⟨front, back, _, b, _, hitems, htag, ?_, ?_, htag.slice_blank_iff⟩
  · intro hnot
    cases hsettles with
    | expanded => cases hnot
    | refused hedit =>
      rw [hedit] at hfront hbehind hsplit
      obtain ⟨hback, hcopy⟩ := hbehind.copy (s := s) hrest.le hlast <|
        List.forall_mem_map.2 fun y hy => (hback y hy).resolve_right (hfree _ _)
      refine ⟨last, by rw [hahead]; exact hrest, hfront, hback, ?_⟩
      rw [htext, hedit, hsplit, hcopy]
      rfl
  · intro hexpanded
    cases hsettles with
    | refused _ _ hnot => cases hnot.symm.trans hexpanded
    | @expanded lead header options enum hfunction =>
      have hbody : rest.take (lead.length + 1) =
          lead ++ [.group .brace header.body header.bodySpan] := by
        have heq : rest = lead ++ .group .brace header.body header.bodySpan :: header.rest :=
          hfunction.rest
        simp [heq, List.take_append]
      rw [hbody] at hrest
      obtain ⟨k, hlead, first, stop, hk, -, -, hlies, -⟩ := hrest.append_inv
      obtain rfl : header.bodySpan.startOffset = first := hlies.startOffset
      obtain rfl : header.bodySpan.stopOffset = stop := hlies.stopOffset
      refine ⟨pound, inner, brackets, rest, lead, header, options, enum, _, _, _, hahead, hfunction, hlies,
        rfl, (Place.leadingStart_le hstands.behind hm).2, Nat.le_trans hlead.le hk, hfront, hbehind, ?_⟩
      rw [htext, hsplit, Item.replacement_expanded]
      simp only [List.append_assoc]
      rfl

/-- An item that is not expanded, and a function behind another attribute; both have a comment behind the
tag. -/
def itemsWithComments : List Char :=
  "#[t]/*c*/struct S; #[a]#[t]/*d*/fn f()->Result<(),E>\x7b\x7d".toList

theorem expandSource_drops_tag_commented :
    ∃ trees p outcome width, tokenize itemsWithComments = .ok trees ∧
      (∀ x y, ¬ Place.HeldBy ⟨[], trees⟩ itemsWithComments "t" x y) ∧
      Place.Comes itemsWithComments "t" ⟨[], trees⟩ p ∧
      p.item? itemsWithComments "t" = some (outcome, width) ∧ outcome.isExpanded = true ∧
      ∃ front back a b c, itemsIn itemsWithComments "t" 0 [] trees = front ++ outcome :: back ∧
        p.TagStands none itemsWithComments a b c ∧
        p.Untagged none itemsWithComments "t" a c (front.map ItemOutcome.edit)
          (back.map ItemOutcome.edit) (expandSource itemsWithComments none "t").text := by
  have hexpanded : (expandSource itemsWithComments none "t").functions.any FunctionReport.expanded =
      true := by decide +kernel
  obtain ⟨trees, p, outcome, width, h, hp, hitem, houtcome⟩ := exists_of_expanded hexpanded
  have hdisjoint : ((tokenize itemsWithComments).map fun trees =>
      decide (((itemsIn itemsWithComments "t" 0 [] trees).map ItemOutcome.edit).Pairwise
        Edit.Disjoint)) = .ok true := by decide +kernel
  rw [h] at hdisjoint
  have hfree := not_heldBy_of_disjoint h (of_decide_eq_true (Except.ok.inj hdisjoint))
  obtain ⟨front, back, a, b, c, hitems, htag, -, huntagged, -⟩ := expandSource_drops_tag h hfree hp hitem
  exact ⟨trees, p, outcome, width, h, hfree, hp, hitem, houtcome, front, back, a, b, c, hitems, htag,
    huntagged houtcome⟩

/-- A comment behind the tag is lost, whether the item is expanded or not. -/
theorem expandSource_drops_comment :
    (expandSource "#[t]/*c*/struct S;".toList none "t").text = "struct S;".toList ∧
    (expandSource "#[t]/*c*/fn f()->Result<(),E>\x7b\x7d".toList none "t").text =
      "enum E \x7b\x7d\n\nfn f()->Result<(),E>\x7b\x7d".toList := by
  decide +kernel

end InlineVariants
