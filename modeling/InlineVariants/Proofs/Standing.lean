import InlineVariants.Proofs.Locating
import InlineVariants.Proofs.Rewriting
import InlineVariants.Proofs.Scanning

/-!
# Where a search stands in the text

A search for annotated items goes over trees, and the trees lie in the text. `Place.Stands` says where a
place of the search lies, and it holds wherever the search comes to. Of a tag that it comes to, the
attribute lies there too, and behind it blanks and comments up to the next tree (`Place.TagStands`).

Main statement: `Place.Stands.tagStands`.
-/

namespace InlineVariants

open Text

namespace Place

/-- The trees in front of a place lie between the first two offsets, those behind it between the last
two. -/
structure Stands (p : Place) (file : Option String) (s : List Char) (a m b : Nat) : Prop where
  behind : LieBetween file s a m p.behind.reverse
  ahead : LieBetween file s m b p.ahead

section

variable {file : Option String} {s : List Char} {tag : String} {a m b : Nat} {p q : Place}
  {behind ahead : List Tree} {t : Tree}

theorem Stands.skip (h : p.Stands file s a m b) (count : Nat) :
    ∃ m', m ≤ m' ∧ (p.skip count).Stands file s a m' b := by
  have hsplit : LieBetween file s m b (p.ahead.take count ++ p.ahead.drop count) := by
    rw [List.take_append_drop]
    exact h.ahead
  obtain ⟨m', htake, hdrop⟩ := hsplit.append_inv
  refine ⟨m', htake.le, ?_, hdrop⟩
  rw [Place.skip, List.reverse_append, List.reverse_reverse]
  exact h.behind.append htake

theorem Stands.over (h : Stands ⟨behind, t :: ahead⟩ file s a m b) :
    ∃ i j, m ≤ i ∧ Skipped (s.drop m) (s.drop i) ∧ t.LiesAt file s i j ∧
      Stands ⟨t :: behind, ahead⟩ file s a j b := by
  obtain ⟨i, j, hi, -, hgap, ht, hahead⟩ := h.ahead
  refine ⟨i, j, hi, hgap, ht, ?_, hahead⟩
  rw [List.reverse_cons]
  exact h.behind.append ⟨i, j, hi, Nat.le_refl j, hgap, ht, .nil j⟩

theorem stands_inner {i j : Nat} {d : Delimiter} {inner : List Tree} {span : Span}
    (h : (Tree.group d inner span).LiesAt file s i j) :
    Stands ⟨[], inner⟩ file s (i + 1) (i + 1) (j - 1) := ⟨.nil _, h.inner⟩

/-- Wherever a search comes to in a text, it stands in the text. -/
theorem Comes.stands (h : Comes s tag p q) (hp : p.Stands file s a m b) :
    ∃ a' m' b', q.Stands file s a' m' b' := by
  induction h generalizing a m b with
  | here => exact ⟨a, m, b, hp⟩
  | @past p q outcome width hitem _ ih =>
    obtain ⟨m', -, hskip⟩ := hp.skip width
    exact ih hskip
  | beyond hitem _ ih =>
    obtain ⟨i, j, -, -, -, hover⟩ := hp.over
    exact ih hover
  | into _ ih =>
    obtain ⟨i, j, -, -, ht, -⟩ := hp.over
    exact ih (stands_inner ht)

/-- The first of the attributes in front of a place begins in front of it. -/
theorem leadingStart_le (h : LieBetween file s a m behind.reverse) {start : Nat} (hm : m ≤ start) :
    a ≤ Item.leadingStart behind start ∧ Item.leadingStart behind start ≤ start := by
  fun_induction Item.leadingStart behind start generalizing m with
  | case1 brackets pound before start hboth ih =>
    have hrev : (brackets :: pound :: before).reverse = before.reverse ++ [pound, brackets] := by simp
    rw [hrev] at h
    obtain ⟨k, hbefore, i, j, hi, hj, -, hpound, -⟩ := h.append_inv
    have hstart := hpound.startOffset
    have hlt := hpound.bounds
    have := ih hbefore (by omega)
    omega
  | case2 => exact ⟨Nat.le_trans h.le hm, Nat.le_refl _⟩
  | case3 => exact ⟨Nat.le_trans h.le hm, Nat.le_refl _⟩

/-- The attribute of the tag stands between the first two offsets. Behind it there are only blanks and
comments up to the third one, where the next tree begins, if there is one. -/
def TagStands (p : Place) (file : Option String) (s : List Char) (a b c : Nat) : Prop :=
  ∃ pound inner brackets rest i j,
    p.ahead = .punct "#" pound :: .group .bracket inner brackets :: rest ∧
    (Tree.punct "#" pound).LiesAt file s a i ∧ i ≤ j ∧ Skipped (s.drop i) (s.drop j) ∧
    (Tree.group .bracket inner brackets).LiesAt file s j b ∧
    b ≤ c ∧ Skipped (s.drop b) (s.drop c) ∧
    ((rest = [] ∧ c = b) ∨ ∃ t more k, rest = t :: more ∧ t.LiesAt file s c k)

/-- Behind the attribute of a tag the text goes on where the next tree begins. -/
theorem Stands.tagStands {pound brackets : Span} {inner rest : List Tree} (h : p.Stands file s a m b)
    (hahead : p.ahead = .punct "#" pound :: .group .bracket inner brackets :: rest) (start : Nat) :
    ∃ stop, m ≤ pound.startOffset ∧
      p.TagStands file s pound.startOffset stop (Item.tagStop ⟨start, pound, brackets, rest⟩) ∧
      LieBetween file s (Item.tagStop ⟨start, pound, brackets, rest⟩) b rest := by
  have htrees := h.ahead
  rw [hahead] at htrees
  obtain ⟨i, j, hi, -, -, hpound, k, stop, hjk, -, hgap, hbrackets, hrest⟩ := htrees
  have hstart : pound.startOffset = i := hpound.startOffset
  have hstop : brackets.stopOffset = stop := hbrackets.stopOffset
  refine ⟨stop, by omega, ?_⟩
  rw [hstart]
  cases rest with
  | nil =>
    have htag : Item.tagStop ⟨start, pound, brackets, []⟩ = stop := hstop
    rw [htag]
    exact ⟨⟨pound, inner, brackets, [], j, k, hahead, hpound, hjk, hgap, hbrackets, Nat.le_refl _, .nil,
      .inl ⟨rfl, rfl⟩⟩, hrest⟩
  | cons t more =>
    obtain ⟨c, l, hc, hl, hskip, ht, hmore⟩ := hrest
    have htag : Item.tagStop ⟨start, pound, brackets, t :: more⟩ = c := ht.startOffset
    rw [htag]
    exact ⟨⟨pound, inner, brackets, t :: more, j, k, hahead, hpound, hjk, hgap, hbrackets, hc, hskip,
      .inr ⟨t, more, l, rfl, ht⟩⟩, c, l, Nat.le_refl c, hl, .nil, ht, hmore⟩

end

end Place

end InlineVariants
