import InlineVariants.Proofs.Standing
import Mathlib

/-!
# Edits that overlap

Every annotated item gives one edit, and the edits are spliced into the text from right to left. The
edit of a function that is expanded begins with the attributes in front of its tag, and these were
searched for items before the function was found. So an edit may lie inside a later one, which then
puts back the old text around it. Otherwise every edit lies in front of every later one, and the
splicing substitutes each of them in its own place.

Main statements: of two items the first lies in front of the second, or in an attribute in front of its
tag (`Place.Stands.items_ordered`); the edits are all disjoint exactly if the latter never happens
(`edits_disjoint_iff`).
-/

namespace InlineVariants

open Text

/-! ## Splicing -/

namespace Edit

/-- The ranges of two edits have no offset in common. -/
def Disjoint (e f : Edit) : Prop := e.stop ≤ f.start ∨ f.stop ≤ e.start

/-- The range of an edit lies inside that of another one. -/
def Inside (e f : Edit) : Prop := f.start < e.start ∧ e.stop < f.stop

instance (e f : Edit) : Decidable (e.Disjoint f) := inferInstanceAs (Decidable (_ ∨ _))

instance : Std.Symm Disjoint := ⟨fun _ _ h => h.symm⟩

theorem Inside.not_disjoint {e f : Edit} (h : e.Inside f) (hlt : e.start < e.stop) :
    ¬ e.Disjoint f := by
  unfold Inside at h
  unfold Disjoint
  omega

theorem textLe_total (as bs : List Char) : (textLe as bs || textLe bs as) = true := by
  fun_induction textLe as bs with
  | case1 => rfl
  | case2 => rfl
  | case3 a as bs ih => simpa [textLe] using ih
  | case4 a as b bs hne =>
    have hval : a.toNat ≠ b.toNat := fun h => hne (Char.toNat_inj.1 h)
    rw [textLe, if_neg (Ne.symm hne)]
    simp only [Bool.or_eq_true, decide_eq_true_eq]
    omega

theorem textLe_trans {as bs cs : List Char} (h : textLe as bs = true) (h' : textLe bs cs = true) :
    textLe as cs = true := by
  induction as generalizing bs cs with
  | nil => rfl
  | cons a as ih =>
    cases bs with
    | nil => cases h
    | cons b bs =>
      cases cs with
      | nil => cases h'
      | cons c cs =>
        rw [textLe] at h h' ⊢
        grind

theorem textLe_antisymm {as bs : List Char} (h : textLe as bs = true) (h' : textLe bs as = true) :
    as = bs := by
  induction as generalizing bs with
  | nil =>
    cases bs with
    | nil => rfl
    | cons b bs => cases h'
  | cons a as ih =>
    cases bs with
    | nil => cases h
    | cons b bs =>
      rw [textLe] at h h'
      grind

theorem le_total (e f : Edit) : (e.le f || f.le e) = true := by
  have := textLe_total e.replacement f.replacement
  unfold le
  grind

theorem le_trans {e f g : Edit} (h : e.le f = true) (h' : f.le g = true) : e.le g = true := by
  have := @textLe_trans e.replacement f.replacement g.replacement
  unfold le at *
  grind

theorem le_antisymm {e f : Edit} (h : e.le f = true) (h' : f.le e = true) : e = f := by
  have := @textLe_antisymm e.replacement f.replacement
  cases e
  cases f
  unfold le at *
  grind

theorem le_of_start_lt {e f : Edit} (h : e.start < f.start) : e.le f = true := by
  rw [le, if_pos (Nat.ne_of_lt h)]
  exact decide_eq_true h

theorem Within.start_le {a b : Nat} {es : List Edit} (h : Within b a es) :
    ∀ e ∈ es, a ≤ e.start ∧ e.start < e.stop ∧ e.stop ≤ b := by
  induction es generalizing a with
  | nil => nofun
  | cons f es ih =>
    obtain ⟨hstart, hlt, hes⟩ := h
    have hle : f.stop ≤ b := by
      cases es with
      | nil => exact hes
      | cons g es =>
        have := ih hes g List.mem_cons_self
        omega
    rintro e (_ | ⟨_, he⟩)
    · exact ⟨hstart, hlt, hle⟩
    · have := ih hes e he
      omega

/-- The edits are sorted from right to left. -/
theorem mergeSort_pairwise (es : List Edit) :
    (es.mergeSort fun e f => f.le e).Pairwise fun e f => f.le e = true := by
  apply List.pairwise_mergeSort
  · intro e f g h h'
    exact le_trans h' h
  · intro e f
    exact le_total f e

/-- Edits that come one behind the other are spliced in from the last one to the first. -/
theorem Within.mergeSort_eq {a b : Nat} {es : List Edit} (h : Within b a es) :
    es.mergeSort (fun e f => f.le e) = es.reverse := by
  have hsorted : es.Pairwise fun e f => e.start < f.start := by
    induction es generalizing a with
    | nil => exact .nil
    | cons e es ih =>
      refine .cons (fun f hf => ?_) (ih h.2.2)
      have := h.2.2.start_le f hf
      have := h.2.1
      omega
  have hreverse : es.reverse.Pairwise fun e f => f.le e = true :=
    List.pairwise_reverse.2 (hsorted.imp le_of_start_lt)
  exact List.Perm.eq_of_pairwise (fun _ _ _ _ h h' => le_antisymm h' h) (mergeSort_pairwise es)
    hreverse ((List.mergeSort_perm es _).trans (List.reverse_perm es).symm)

/-- Splicing in edits that come one behind the other substitutes each of them in its place. -/
theorem Within.applyAll_eq {s : List Char} {es : List Edit} (h : Within s.length 0 es) :
    applyAll s es = substituted s s.length 0 es := by
  have hfoldr : ∀ a, Within s.length a es →
      es.foldr (fun e text => apply text e) s = s.take a ++ substituted s s.length a es := by
    clear h
    induction es with
    | nil =>
      intro a h
      have hall : (s.drop a).take (s.length - a) = s.drop a :=
        List.take_of_length_le (by rw [List.length_drop])
      rw [List.foldr_nil, substituted, slice_natCast, hall, List.take_append_drop]
    | cons e es ih =>
      intro a h
      obtain ⟨hstart, hlt, hstop⟩ := h.start_le e List.mem_cons_self
      have hlen : (s.take e.stop).length = e.stop := by
        rw [List.length_take]
        omega
      have hfront : s.take a ++ slice s a e.start = s.take e.start := by
        rw [slice_natCast, ← List.take_add]
        congr 1
        omega
      rw [List.foldr_cons, ih e.stop h.2.2, apply, List.drop_left' hlen, substituted,
        ← List.append_assoc, hfront, List.take_append_of_le_length (by omega), List.take_take,
        Nat.min_eq_left (Nat.le_of_lt hlt), List.append_assoc]
  rw [applyAll, h.mergeSort_eq, List.foldl_reverse, hfoldr 0 h, List.take_zero, List.nil_append]

end Edit

/-! ## The range of one item -/

namespace Place

section

variable {file : Option String} {s : List Char} {tag : String} {a m b : Nat} {p q : Place}
  {behind ahead : List Tree} {t : Tree} {outcome : ItemOutcome} {width : Nat}

theorem TagStands.lt {c : Nat} (h : p.TagStands file s a b c) : a < c := by
  obtain ⟨_, _, _, _, i, j, -, hpound, hij, -, hbrackets, hbc, -⟩ := h
  have hpoundBounds := hpound.bounds
  have hbracketsBounds := hbrackets.bounds
  omega

theorem tagStop_take {rest : List Tree} {count : Nat} (h : Item.Stops rest count) (start : Nat)
    (pound brackets : Span) :
    Item.tagStop ⟨start, pound, brackets, rest.take count⟩ =
      Item.tagStop ⟨start, pound, brackets, rest⟩ := by
  cases rest with
  | nil => rw [List.take_nil]
  | cons t rest =>
    obtain ⟨n, rfl⟩ : ∃ n, count = n + 1 := by
      rcases h with hall | ⟨front, _, _, -, -, rfl⟩
      · exact ⟨count - 1, by rw [List.length_cons] at hall; omega⟩
      · exact ⟨front.length, rfl⟩
    rfl

/-- The edit of an item ends where the item ends, or in front of that. It begins behind the place,
unless the item is expanded: then it begins with the attributes in front of the place. -/
theorem Stands.item (h : p.Stands file s a m b) (hitem : p.item? s tag = some (outcome, width)) :
    ∃ m', (p.skip width).Stands file s a m' b ∧ outcome.edit.start < outcome.edit.stop ∧
      m < outcome.edit.stop ∧ outcome.edit.stop ≤ m' ∧
      (m ≤ outcome.edit.start ∨ outcome.isExpanded = true ∧
        outcome.edit.start = Item.leadingStart p.behind m) := by
  obtain ⟨pound, inner, brackets, rest, count, hahead, rfl, -, hsettles⟩ := itemAt?_eq_some hitem
  have hsplit : LieBetween file s m b (p.ahead.take (count + 2) ++ p.ahead.drop (count + 2)) := by
    rw [List.take_append_drop]
    exact h.ahead
  obtain ⟨m', htake, hdrop⟩ := hsplit.append_inv
  have hbehind : LieBetween file s a m' (p.skip (count + 2)).behind.reverse := by
    rw [Place.skip, List.reverse_append, List.reverse_reverse]
    exact h.behind.append htake
  refine ⟨m', ⟨hbehind, hdrop⟩, ?_⟩
  -- the item alone, without what follows it
  have halone : Stands ⟨p.behind, p.ahead.take (count + 2)⟩ file s a m m' := ⟨h.behind, htake⟩
  obtain ⟨stop, hm, htag, hrest⟩ := halone.tagStands (by rw [hahead]; rfl)
    (Item.leadingStart p.behind pound.startOffset)
  rw [tagStop_take hsettles.stops] at htag hrest
  have hlt := htag.lt
  cases hsettles with
  | refused hedit =>
    rw [hedit]
    exact ⟨hlt, Nat.lt_of_le_of_lt hm hlt, hrest.le, .inl hm⟩
  | @expanded front header _ _ hfunction =>
    have hbody : rest.take (front.length + 1) =
        front ++ [.group .brace header.body header.bodySpan] := by
      rw [show rest = _ from hfunction.rest, List.take_append]
      simp
    rw [hbody] at hrest
    obtain ⟨k, hbefore, i, j, hki, hj, -, hbodyAt, -⟩ := hrest.append_inv
    have hk := hbefore.le
    have hij := hbodyAt.bounds
    have hstop : header.bodySpan.stopOffset = j := hbodyAt.stopOffset
    have hstart := (leadingStart_le h.behind hm).2
    have hbounds : Item.leadingStart p.behind pound.startOffset < j ∧ m < j ∧ j ≤ m' := by omega
    rw [← hstop] at hbounds
    refine ⟨hbounds.1, hbounds.2.1, hbounds.2.2, ?_⟩
    by_cases hlead : Item.leadingBrackets p.behind = []
    · left
      exact (Item.leadingStart_of_leadingBrackets hlead pound.startOffset).symm ▸ hm
    · exact .inr ⟨rfl, Item.leadingStart_congr hlead _ _⟩

/-- The edit of an item that is expanded begins with the attributes in front of the tag. -/
theorem expanded_start (hitem : p.item? s tag = some (outcome, width))
    (h : outcome.isExpanded = true) :
    ∃ start, outcome.edit.start = Item.leadingStart p.behind start := by
  obtain ⟨pound, inner, brackets, rest, count, -, -, -, hsettles⟩ := itemAt?_eq_some hitem
  cases hsettles with
  | refused _ _ hnot => cases hnot.symm.trans h
  | expanded => exact ⟨pound.startOffset, rfl⟩

/-! ## The ranges of all items -/

/-- The range of an item that is found from a place on: it ends behind the place. If it begins in front
of the place, then with the attributes there, and these stand in front of the item. -/
structure Ranges (p : Place) (s : List Char) (tag : String) (m b : Nat) (outcome : ItemOutcome) :
    Prop where
  start_lt : outcome.edit.start < outcome.edit.stop
  lt_stop : m < outcome.edit.stop
  stop_le : outcome.edit.stop ≤ b
  start : m ≤ outcome.edit.start ∨ outcome.edit.start = Item.leadingStart p.behind m ∧
    ∃ q width, Comes s tag p q ∧ q.item? s tag = some (outcome, width) ∧
      outcome.isExpanded = true ∧ Item.leadingBrackets p.behind ⊆ Item.leadingBrackets q.behind

theorem Ranges.le_start (h : p.Ranges s tag m b outcome) (hlead : Item.leadingBrackets p.behind = []) :
    m ≤ outcome.edit.start := by
  rcases h.start with hm | ⟨heq, -⟩
  · exact hm
  · rw [heq, Item.leadingStart_of_leadingBrackets hlead]

/-- What is found behind an item begins behind it. -/
theorem Ranges.le_start_skip {first : ItemOutcome} (hitem : p.item? s tag = some (first, width))
    (hmem : outcome ∈ (p.skip width).items s tag) (h : (p.skip width).Ranges s tag m b outcome) :
    m ≤ outcome.edit.start := by
  rcases skip_cases hitem with hnil | ⟨last, more, hbehind, hlast⟩
  · rw [items, hnil, itemsIn] at hmem
    cases hmem
  · apply h.le_start
    rw [hbehind]
    exact leadingBrackets_of_endsItem hlast more

/-- What begins behind a later place has a range from an earlier place on, whatever stands there. -/
theorem Ranges.widen {m' b' : Nat} (h : q.Ranges s tag m' b' outcome) (hstart : m' ≤ outcome.edit.start)
    (hm : m ≤ m') (hb : b' ≤ b) : p.Ranges s tag m b outcome :=
  ⟨h.start_lt, Nat.lt_of_le_of_lt hm h.lt_stop, Nat.le_trans h.stop_le hb,
    .inl (Nat.le_trans hm hstart)⟩

/-- Step over an attribute: what begins with it begins with the attributes in front of it too. -/
theorem Ranges.over_attr {inner rest : List Tree} {pound brackets : Span} {i j : Nat}
    (hitem : (Place.mk behind (.punct "#" pound :: .group .bracket inner brackets :: rest)).item?
      s tag = none)
    (hpound : (Tree.punct "#" pound).LiesAt file s i j) (hi : m ≤ i) {m' : Nat} (hm : m ≤ m')
    (h : Ranges ⟨.group .bracket inner brackets :: .punct "#" pound :: behind, rest⟩ s tag m' b
      outcome) :
    Ranges ⟨behind, .punct "#" pound :: .group .bracket inner brackets :: rest⟩ s tag m b outcome := by
  rcases h.start with hle | ⟨heq, q, width, hcomes, hq, hexpanded, hsubset⟩
  · exact h.widen hle hm (Nat.le_refl b)
  · refine ⟨h.start_lt, Nat.lt_of_le_of_lt hm h.lt_stop, h.stop_le, ?_⟩
    have hstart : outcome.edit.start = Item.leadingStart behind pound.startOffset := heq
    by_cases hlead : Item.leadingBrackets behind = []
    · left
      rw [hstart, Item.leadingStart_of_leadingBrackets hlead]
      exact Nat.le_trans hi (Nat.le_of_eq hpound.startOffset.symm)
    · refine .inr ⟨hstart.trans (Item.leadingStart_congr hlead _ _), q, width,
        hcomes.over_attr hitem, hq, hexpanded, ?_⟩
      exact fun t ht => hsubset (List.mem_cons_of_mem _ ht)

/-- Every item that is found from a place on has its range. -/
theorem Stands.ranges (haligned : p.Aligned) (h : p.Stands file s a m b) :
    ∀ outcome ∈ p.items s tag, p.Ranges s tag m b outcome := by
  induction p, haligned using search_induction s tag generalizing a m b with
  | nil behind =>
    rw [items_nil]
    nofun
  | found p first width hitem _ ih =>
    obtain ⟨m', hskip, hlt, hm, hstop, hstart⟩ := h.item hitem
    have hm' := hskip.ahead.le
    intro outcome hmem
    rw [items_found hitem] at hmem
    rcases List.mem_cons.1 hmem with rfl | hmem
    · refine ⟨hlt, hm, by omega, ?_⟩
      rcases hstart with hstart | ⟨hexpanded, hstart⟩
      · exact .inl hstart
      · exact .inr ⟨hstart, p, width, .here, hitem, hexpanded, List.Subset.refl _⟩
    · have hranges := ih hskip outcome hmem
      exact hranges.widen (hranges.le_start_skip hitem hmem) (by omega) (Nat.le_refl b)
  | attr behind pound inner brackets rest _ hitem ihinner ih =>
    obtain ⟨i, j, hi, -, hpound, hbetween⟩ := h.over
    obtain ⟨k, l, hk, -, hbrackets, htail⟩ := hbetween.over
    have hpoundBounds := hpound.bounds
    have hbracketsBounds := hbrackets.bounds
    have hl := htail.ahead.le
    intro outcome hmem
    rw [items_attr hitem] at hmem
    rcases List.mem_append.1 hmem with hmem | hmem
    · have hranges := ihinner (stands_inner hbrackets) outcome hmem
      exact hranges.widen (hranges.le_start rfl) (by omega) (by omega)
    · exact (ih htail outcome hmem).over_attr hitem hpound hi (by omega)
  | beyond behind t rest _ _ hitem hlead ihinner ih =>
    obtain ⟨i, j, hi, -, ht, htail⟩ := h.over
    have hbounds := ht.bounds
    have hj := htail.ahead.le
    intro outcome hmem
    rw [items_over hitem] at hmem
    rcases List.mem_append.1 hmem with hmem | hmem
    · cases t with
      | group d inner span =>
        rw [itemsInTree_group] at hmem
        have hranges := ihinner d inner span rfl (stands_inner ht) outcome hmem
        exact hranges.widen (hranges.le_start rfl) (by omega) (by omega)
      | _ => simp [itemsInTree] at hmem
    · have hranges := ih htail outcome hmem
      exact hranges.widen (hranges.le_start hlead) (by omega) (Nat.le_refl b)

/-- What is found inside a tree lies inside it. -/
theorem itemsInTree_inside {i j : Nat} (ht : t.LiesAt file s i j) :
    ∀ outcome ∈ itemsInTree s tag t, i < outcome.edit.start ∧ outcome.edit.stop < j := by
  intro outcome hmem
  cases t with
  | group d inner span =>
    rw [itemsInTree_group] at hmem
    have hranges := (stands_inner ht).ranges (aligned_start inner) outcome hmem
    have hstart := hranges.le_start rfl
    have hstop := hranges.stop_le
    have hbounds := ht.1
    omega
  | _ => simp [itemsInTree] at hmem

/-! ## Items in front of a tag -/

/-- One item stands in an attribute in front of the tag of another one, which is expanded. -/
def HeldBy (p : Place) (s : List Char) (tag : String) (x y : ItemOutcome) : Prop :=
  ∃ q width t, Comes s tag p q ∧ q.item? s tag = some (y, width) ∧ y.isExpanded = true ∧
    t ∈ Item.leadingBrackets q.behind ∧ x ∈ itemsInTree s tag t

/-- Two items, in the order in which they are found: the first lies in front of the second, or in an
attribute in front of its tag. -/
def Ordered (p : Place) (s : List Char) (tag : String) (x y : ItemOutcome) : Prop :=
  x.edit.stop ≤ y.edit.start ∨ x.edit.Inside y.edit ∧ p.HeldBy s tag x y

theorem HeldBy.mono (h : ∀ r, Comes s tag q r → Comes s tag p r) {x y : ItemOutcome}
    (hxy : q.HeldBy s tag x y) : p.HeldBy s tag x y := by
  obtain ⟨r, width, t, hr, hrest⟩ := hxy
  exact ⟨r, width, t, h r hr, hrest⟩

theorem Ordered.mono (h : ∀ r, Comes s tag q r → Comes s tag p r) {x y : ItemOutcome}
    (hxy : q.Ordered s tag x y) : p.Ordered s tag x y :=
  hxy.imp_right fun ⟨hinside, hheld⟩ => ⟨hinside, hheld.mono h⟩

/-- What is found behind an attribute begins behind it, or its tag has the attribute in front of it, and
then it begins in front of the attribute. -/
theorem Stands.behind_attr {inner rest : List Tree} {pound brackets : Span} {i j l : Nat}
    (h : Stands ⟨behind, .punct "#" pound :: .group .bracket inner brackets :: rest⟩ file s a m b)
    (hitem : (Place.mk behind (.punct "#" pound :: .group .bracket inner brackets :: rest)).item?
      s tag = none)
    (hpound : (Tree.punct "#" pound).LiesAt file s i j) (hi : m ≤ i)
    (htail : Stands ⟨.group .bracket inner brackets :: .punct "#" pound :: behind, rest⟩ file s a l b)
    {y : ItemOutcome}
    (hy : y ∈ (Place.mk (.group .bracket inner brackets :: .punct "#" pound :: behind) rest).items s tag) :
    l < y.edit.stop ∧ (l ≤ y.edit.start ∨ y.edit.start ≤ i ∧
      ∀ x ∈ (Place.mk [] inner).items s tag,
        HeldBy ⟨behind, .punct "#" pound :: .group .bracket inner brackets :: rest⟩ s tag x y) := by
  have hranges := htail.ranges (aligned_of_not_pound rfl _ rest) y hy
  refine ⟨hranges.lt_stop, ?_⟩
  rcases hranges.start with hle | ⟨heq, q, width, hcomes, hq, hexpanded, hsubset⟩
  · exact .inl hle
  · -- the attribute itself is one of those in front of the tag
    have hstart : y.edit.start ≤ i := by
      have hle := (leadingStart_le h.behind hi).2
      rw [heq]
      exact hpound.startOffset.symm ▸ hle
    refine .inr ⟨hstart, fun x hx => ⟨q, width, _, hcomes.over_attr hitem, hq, hexpanded,
      hsubset List.mem_cons_self, ?_⟩⟩
    rw [itemsInTree_group]
    exact hx

/-- All items that are found from a place on lie in front of each other, or in an attribute in front
of a tag. -/
theorem Stands.items_ordered (haligned : p.Aligned) (h : p.Stands file s a m b) :
    (p.items s tag).Pairwise (p.Ordered s tag) := by
  induction p, haligned using search_induction s tag generalizing a m b with
  | nil behind =>
    rw [items_nil]
    exact .nil
  | found p first width hitem _ ih =>
    obtain ⟨m', hskip, -, -, hstop, -⟩ := h.item hitem
    rw [items_found hitem]
    refine .cons (fun y hy => .inl ?_) ((ih hskip).imp (Ordered.mono fun _ => .past hitem))
    have hranges := hskip.ranges (aligned_skip hitem) y hy
    exact Nat.le_trans hstop (hranges.le_start_skip hitem hy)
  | attr behind pound inner brackets rest _ hitem ihinner ih =>
    obtain ⟨i, j, hi, -, hpound, hbetween⟩ := h.over
    obtain ⟨k, l, hk, -, hbrackets, htail⟩ := hbetween.over
    have hpoundBounds := hpound.bounds
    rw [items_attr hitem]
    refine List.pairwise_append.2
      ⟨(ihinner (stands_inner hbrackets)).imp (Ordered.mono fun _ hr => .beyond hitem (.into hr)),
        (ih htail).imp (Ordered.mono fun _ hr => hr.over_attr hitem), ?_⟩
    intro x hx y hy
    have hinside := itemsInTree_inside hbrackets x (by rw [itemsInTree_group]; exact hx)
    obtain ⟨hstop, hle | ⟨hstart, hheld⟩⟩ := h.behind_attr hitem hpound hi htail hy
    · exact .inl (by omega)
    · exact .inr ⟨⟨by omega, by omega⟩, hheld x hx⟩
  | beyond behind t rest _ haligned hitem hlead ihinner ih =>
    obtain ⟨i, j, hi, -, ht, htail⟩ := h.over
    rw [items_over hitem]
    refine List.pairwise_append.2 ⟨?_, (ih htail).imp (Ordered.mono fun _ hr => .beyond hitem hr), ?_⟩
    · cases t with
      | group d inner span =>
        rw [itemsInTree_group]
        exact (ihinner d inner span rfl (stands_inner ht)).imp (Ordered.mono fun _ hr => .into hr)
      | _ => simp [itemsInTree]
    · intro x hx y hy
      have hinside := itemsInTree_inside ht x hx
      have hle := (htail.ranges haligned y hy).le_start hlead
      exact .inl (by omega)

/-- The brackets of an attribute in front of a place stand behind the beginning of the first of these
attributes. -/
theorem leadingBrackets_liesAt (h : LieBetween file s a m behind.reverse)
    (ht : t ∈ Item.leadingBrackets behind) :
    ∃ i j, t.LiesAt file s i j ∧ j ≤ m ∧ ∀ start, Item.leadingStart behind start < i := by
  fun_induction Item.leadingBrackets behind generalizing m with
  | case1 brackets pound before hboth ih =>
    have hrev : (brackets :: pound :: before).reverse = before.reverse ++ [pound, brackets] := by simp
    rw [hrev] at h
    obtain ⟨k, hbefore, i, j, hi, -, -, hpound, i', j', hi', hj', -, hbrackets, -⟩ := h.append_inv
    have hpoundBounds := hpound.bounds
    have hbracketsBounds := hbrackets.bounds
    have hlead : ∀ start, Item.leadingStart (brackets :: pound :: before) start =
        Item.leadingStart before i := by
      intro start
      rw [Item.leadingStart, if_pos hboth, hpound.startOffset]
    rcases List.mem_cons.1 ht with rfl | ht
    · refine ⟨i', j', hbrackets, hj', fun start => ?_⟩
      have := (leadingStart_le hbefore hi).2
      rw [hlead]
      omega
    · obtain ⟨i'', j'', hlies, hk, hstart⟩ := ih hbefore ht
      exact ⟨i'', j'', hlies, by omega, fun start => by rw [hlead]; exact hstart i⟩
  | case2 => cases ht
  | case3 => cases ht

theorem Comes.nil_inv (hnil : p.ahead = []) (h : Comes s tag p q) : q.item? s tag = none := by
  have hnone : p.item? s tag = none := by
    rw [item?, hnil]
    rfl
  cases h with
  | here => exact hnone
  | past hitem _ => cases hnone.symm.trans hitem
  | beyond => cases hnil
  | into => cases hnil

theorem Comes.found_inv (hitem : p.item? s tag = some (outcome, width)) (h : Comes s tag p q) :
    q = p ∨ Comes s tag (p.skip width) q := by
  cases h with
  | here => exact .inl rfl
  | past hitem' hq =>
    obtain ⟨-, rfl⟩ := Prod.mk.inj (Option.some.inj (hitem.symm.trans hitem'))
    exact .inr hq
  | beyond hnone => cases hnone.symm.trans hitem
  | into => cases hitem

theorem Comes.over_inv (hnone : (Place.mk behind (t :: ahead)).item? s tag = none)
    (h : Comes s tag ⟨behind, t :: ahead⟩ q) (hitem : q.item? s tag = some (outcome, width)) :
    Comes s tag ⟨t :: behind, ahead⟩ q ∨
      ∃ d inner span, t = .group d inner span ∧ Comes s tag ⟨[], inner⟩ q := by
  cases h with
  | here => cases hnone.symm.trans hitem
  | past hitem' => cases hnone.symm.trans hitem'
  | beyond _ hq => exact .inl hq
  | into hq => exact .inr ⟨_, _, _, rfl, hq⟩

/-- The attributes in front of an item that is found from a place on stand in front of the place, or
the search has looked into them. -/
theorem Comes.leadingBrackets_searched (haligned : p.Aligned) (h : Comes s tag p q)
    (hitem : q.item? s tag = some (outcome, width)) (ht : t ∈ Item.leadingBrackets q.behind) :
    t ∈ Item.leadingBrackets p.behind ∨ itemsInTree s tag t ⊆ p.items s tag := by
  induction p, haligned using search_induction s tag with
  | nil behind => cases (h.nil_inv rfl).symm.trans hitem
  | found p first count hfound _ ih =>
    rcases h.found_inv hfound with rfl | hpast
    · exact .inl ht
    · rw [items_found hfound]
      rcases ih hpast with hlead | hsubset
      · rcases skip_cases hfound with hnil | ⟨last, more, hbehind, hlast⟩
        · cases (hpast.nil_inv hnil).symm.trans hitem
        · rw [hbehind, leadingBrackets_of_endsItem hlast] at hlead
          cases hlead
      · exact .inr (List.Subset.trans hsubset (List.subset_cons_self _ _))
  | attr behind pound inner brackets rest _ hnone ihinner ih =>
    rw [items_attr hnone]
    rcases h.over_inv hnone hitem with hover | ⟨d, stream, span, hpound, -⟩
    · rcases hover.over_inv (itemAt?_group s tag _ _ _ _ _) hitem with
        hover | ⟨d, stream, span, hgroup, hinto⟩
      · rcases ih hover with hlead | hsubset
        · rcases List.mem_cons.1 hlead with rfl | hlead
          · rw [itemsInTree_group]
            exact .inr (List.subset_append_left _ _)
          · exact .inl hlead
        · exact .inr (List.Subset.trans hsubset (List.subset_append_right _ _))
      · obtain ⟨-, rfl, -⟩ := Tree.group.inj hgroup
        rcases ihinner hinto with hlead | hsubset
        · cases hlead
        · exact .inr (List.Subset.trans hsubset (List.subset_append_left _ _))
    · cases hpound
  | beyond behind u rest _ _ hnone hlead ihinner ih =>
    rw [items_over hnone]
    rcases h.over_inv hnone hitem with hover | ⟨d, inner, span, rfl, hinto⟩
    · rcases ih hover with hmem | hsubset
      · rw [hlead] at hmem
        cases hmem
      · exact .inr (List.Subset.trans hsubset (List.subset_append_right _ _))
    · rcases ihinner d inner span rfl hinto with hmem | hsubset
      · cases hmem
      · rw [itemsInTree_group]
        exact .inr (List.Subset.trans hsubset (List.subset_append_left _ _))

/-- An item in an attribute in front of a tag is found too, and its range lies inside that of the item
behind the tag. -/
theorem HeldBy.inside {trees : List Tree} (h : LieBetween file s a b trees) {x y : ItemOutcome}
    (hxy : HeldBy ⟨[], trees⟩ s tag x y) :
    x ∈ itemsIn s tag 0 [] trees ∧ y ∈ itemsIn s tag 0 [] trees ∧ x.edit.Inside y.edit := by
  obtain ⟨q, width, t, hq, hitem, hexpanded, ht, hx⟩ := hxy
  rcases hq.leadingBrackets_searched (aligned_start trees) hitem ht with hmem | hsubset
  · cases hmem
  · refine ⟨hsubset hx, hq.mem_items hitem, ?_⟩
    obtain ⟨a', m', b', hstands⟩ := hq.stands ⟨.nil a, h⟩
    obtain ⟨i, j, hlies, hj, hlead⟩ := leadingBrackets_liesAt hstands.behind ht
    have hinside := itemsInTree_inside hlies x hx
    have hbounds := hlies.bounds
    obtain ⟨start, hstart⟩ := expanded_start hitem hexpanded
    obtain ⟨-, -, -, hstop, -⟩ := hstands.item hitem
    exact ⟨by have := hlead start; omega, by omega⟩

end

end Place

/-! ## All edits of a text -/

/-- Edits that all lie in front of each other come one behind the other. -/
theorem Edit.within_of_pairwise {a b : Nat} {es : List Edit} (hab : a ≤ b)
    (h : ∀ e ∈ es, a ≤ e.start ∧ e.start < e.stop ∧ e.stop ≤ b)
    (hpair : es.Pairwise fun e f => e.stop ≤ f.start) : Edit.Within b a es := by
  induction es generalizing a with
  | nil => exact hab
  | cons e es ih =>
    obtain ⟨hstart, hlt, hstop⟩ := h e List.mem_cons_self
    obtain ⟨hbefore, hrest⟩ := List.pairwise_cons.1 hpair
    refine ⟨hstart, hlt, ih hstop (fun f hf => ?_) hrest⟩
    have := h f (List.mem_cons_of_mem _ hf)
    exact ⟨hbefore f hf, this.2⟩

/-- The items of a text have their ranges in it, and of two of them the first lies in front of the second
or in an attribute in front of its tag. -/
theorem items_located {s : List Char} {file : Option String} {trees : List Tree}
    (h : tokenize s file = .ok trees) (tag : String) :
    (∀ x ∈ itemsIn s tag 0 [] trees, x.edit.start < x.edit.stop ∧ x.edit.stop ≤ s.length) ∧
      (itemsIn s tag 0 [] trees).Pairwise (Place.Ordered ⟨[], trees⟩ s tag) := by
  obtain ⟨q, rest, hr, hrest⟩ := tokenize_reads h
  have hstands : Place.Stands ⟨[], trees⟩ file s 0 0 s.length := ⟨.nil 0, hr.lieBetween_ends hrest⟩
  refine ⟨fun x hx => ?_, hstands.items_ordered (Place.aligned_start trees)⟩
  have hranges := hstands.ranges (Place.aligned_start trees) x hx
  exact ⟨hranges.start_lt, hranges.stop_le⟩

/-- Where every edit lies in front of every later one, the expanded text is the source with each edit made
in its place. -/
theorem expandSource_substituted {s : List Char} {file : Option String} {trees : List Tree} {tag : String}
    (h : tokenize s file = .ok trees)
    (hbefore : ((itemsIn s tag 0 [] trees).map ItemOutcome.edit).Pairwise fun e f => e.stop ≤ f.start) :
    Edit.Within s.length 0 ((itemsIn s tag 0 [] trees).map ItemOutcome.edit) ∧
      (expandSource s file tag).text =
        Edit.substituted s s.length 0 ((itemsIn s tag 0 [] trees).map ItemOutcome.edit) := by
  have hbounds := (items_located h tag).1
  have hwithin : Edit.Within s.length 0 ((itemsIn s tag 0 [] trees).map ItemOutcome.edit) :=
    Edit.within_of_pairwise (Nat.zero_le _)
      (List.forall_mem_map.2 fun x hx => ⟨Nat.zero_le _, hbounds x hx⟩) hbefore
  refine ⟨hwithin, ?_⟩
  rw [expandSource_of_tokenize h]
  exact hwithin.applyAll_eq

/-- Where the edits are disjoint, no item stands in an attribute in front of the tag of another one. -/
theorem not_heldBy_of_disjoint {s : List Char} {file : Option String} {trees : List Tree} {tag : String}
    (h : tokenize s file = .ok trees)
    (hdisjoint : ((itemsIn s tag 0 [] trees).map ItemOutcome.edit).Pairwise Edit.Disjoint)
    (x y : ItemOutcome) : ¬ Place.HeldBy ⟨[], trees⟩ s tag x y := by
  intro hxy
  obtain ⟨q, rest, hr, hrest⟩ := tokenize_reads h
  obtain ⟨hx, hy, hinside⟩ := hxy.inside (hr.lieBetween_ends hrest)
  have hne : x.edit ≠ y.edit := fun heq => absurd hinside.1 (by rw [heq]; omega)
  exact hinside.not_disjoint ((items_located h tag).1 x hx).1
    (hdisjoint.forall (List.mem_map_of_mem hx) (List.mem_map_of_mem hy) hne)

/-- The edits of a text are ranges of the text, none of them empty, and two of them have no offset in
common or one lies inside the other. They are all disjoint exactly if no item stands in an attribute
in front of the tag of a function that is expanded, and then the expanded text is the source with each
edit made in its place. -/
theorem edits_disjoint_iff {s : List Char} {file : Option String} {trees : List Tree}
    (h : tokenize s file = .ok trees) (tag : String) :
    let edits := (itemsIn s tag 0 [] trees).map ItemOutcome.edit
    (∀ e ∈ edits, e.start < e.stop ∧ e.stop ≤ s.length) ∧
    edits.Pairwise (fun e f => e.stop ≤ f.start ∨ e.Inside f) ∧
    (edits.Pairwise Edit.Disjoint ↔ ∀ x y, ¬ Place.HeldBy ⟨[], trees⟩ s tag x y) ∧
    (edits.Pairwise Edit.Disjoint → Edit.Within s.length 0 edits ∧
      (expandSource s file tag).text = Edit.substituted s s.length 0 edits) := by
  intro edits
  obtain ⟨hranges, hordered⟩ := items_located h tag
  have hbounds : ∀ e ∈ edits, e.start < e.stop ∧ e.stop ≤ s.length := List.forall_mem_map.2 hranges
  have hnested : edits.Pairwise fun e f => e.stop ≤ f.start ∨ e.Inside f :=
    List.pairwise_map.2 (hordered.imp fun hxy => hxy.imp_right And.left)
  refine ⟨hbounds, hnested, ⟨not_heldBy_of_disjoint h, ?_⟩, ?_⟩
  · intro hfree
    refine List.pairwise_map.2 (hordered.imp fun hxy => ?_)
    rcases hxy with hle | ⟨-, hheld⟩
    · exact .inl hle
    · exact absurd hheld (hfree _ _)
  · intro hdisjoint
    refine expandSource_substituted h ((hnested.and hdisjoint).imp_of_mem fun he _ hef => ?_)
    rcases hef.1 with hle | hinside
    · exact hle
    · exact absurd hef.2 (hinside.not_disjoint (hbounds _ he).1)

/-- Two items, one of them in a group and behind another attribute. -/
def itemsSideBySide : List Char := "#[t]fn f()->Result<(),E>\x7b\x7d mod m\x7b#[a]#[t]struct S;\x7d".toList

theorem edits_disjoint_side_by_side :
    ∃ trees, tokenize itemsSideBySide = .ok trees ∧
      (itemsIn itemsSideBySide "t" 0 [] trees).map ItemOutcome.edit =
        [⟨0, 26, "enum E \x7b\x7d\n\nfn f()->Result<(),E>\x7b\x7d".toList⟩, ⟨37, 41, []⟩] ∧
      (∀ x y, ¬ Place.HeldBy ⟨[], trees⟩ itemsSideBySide "t" x y) ∧
      (expandSource itemsSideBySide none "t").text =
        Edit.substituted itemsSideBySide itemsSideBySide.length 0
          [⟨0, 26, "enum E \x7b\x7d\n\nfn f()->Result<(),E>\x7b\x7d".toList⟩, ⟨37, 41, []⟩] := by
  have hedits : ((tokenize itemsSideBySide).map fun trees =>
      (itemsIn itemsSideBySide "t" 0 [] trees).map ItemOutcome.edit) =
        .ok [⟨0, 26, "enum E \x7b\x7d\n\nfn f()->Result<(),E>\x7b\x7d".toList⟩, ⟨37, 41, []⟩] := by
    decide +kernel
  cases h : tokenize itemsSideBySide with
  | error =>
    rw [h] at hedits
    cases hedits
  | ok trees =>
    rw [h] at hedits
    simp only [Except.map, Except.ok.injEq] at hedits
    obtain ⟨-, -, hiff, htext⟩ := edits_disjoint_iff h "t"
    simp only [hedits] at hiff htext
    exact ⟨trees, rfl, hedits, hiff.1 (by decide), (htext (by decide)).2⟩

/-- An item in an attribute in front of a tag. -/
def itemInAttribute : List Char :=
  "#[a(#[t]fn g()->Result<(),D>\x7b\x7d)]#[t]fn f()->Result<(),E>\x7b\x7d".toList

/-- The edit of the inner item lies inside that of the outer one, and the end of the text is spoiled. -/
theorem edits_overlap :
    ∃ trees, tokenize itemInAttribute = .ok trees ∧
      ¬ ((itemsIn itemInAttribute "t" 0 [] trees).map ItemOutcome.edit).Pairwise Edit.Disjoint ∧
      (expandSource itemInAttribute none "t").text =
        ("enum E \x7b\x7d\n\n#[a(#[t]fn g()->Result<(),D>\x7b\x7d)]fn f()->Result<(),E>\x7b\x7d" ++
          "(),E>\x7b\x7d").toList := by
  have hedits : ((tokenize itemInAttribute).map fun trees =>
      (itemsIn itemInAttribute "t" 0 [] trees).map ItemOutcome.edit) =
        .ok [⟨4, 30, "enum D \x7b\x7d\n\nfn g()->Result<(),D>\x7b\x7d".toList⟩,
          ⟨0, 58, ("enum E \x7b\x7d\n\n#[a(#[t]fn g()->Result<(),D>\x7b\x7d)]" ++
            "fn f()->Result<(),E>\x7b\x7d").toList⟩] := by
    decide +kernel
  cases h : tokenize itemInAttribute with
  | error =>
    rw [h] at hedits
    cases hedits
  | ok trees =>
    rw [h] at hedits
    simp only [Except.map, Except.ok.injEq] at hedits
    refine ⟨trees, rfl, by rw [hedits]; decide, ?_⟩
    rw [expandSource_of_tokenize h]
    show Edit.applyAll itemInAttribute ((itemsIn itemInAttribute "t" 0 [] trees).map _) = _
    rw [hedits]
    cbv

end InlineVariants
