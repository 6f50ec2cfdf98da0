import InlineVariants.Proofs.Locating
import Mathlib.Data.List.Induction
import Mathlib.Order.Bounds.Basic

/-!
# What joined spans cover

The join of some spans begins where the first of them begins and ends where the last of them ends; a
span that is not known is absorbed. Line and column of the beginning go with the offset. Those of the
end need not: the offset is the greatest one, while line and column are taken from the span that begins
later. In a fold that is the last known span that does not begin in front of all known ones before it
(`Span.ShowsEnd`), and a longer span that was there earlier is forgotten.

Main statement: the join is right about its text exactly if that span is one that ends last
(`Span.joinAll_consistent_iff`).
-/

namespace InlineVariants

open Text

/-! ## Lines and columns tell offsets apart -/

namespace Text

theorem columnAt_of_same_line {s : List Char} {i j : Nat} (hij : i ≤ j) (hj : j ≤ s.length)
    (hline : lineAt s i = lineAt s j) : columnAt s j = columnAt s i + (j - i) := by
  have htake : s.take j = s.take i ++ (s.drop i).take (j - i) := by
    rw [← List.take_add, Nat.add_sub_cancel' hij]
  have hnone : ((s.drop i).take (j - i)).count '\n' = 0 := by
    unfold lineAt at hline
    rw [htake, List.count_append] at hline
    omega
  have hall : ∀ c ∈ ((s.drop i).take (j - i)).reverse, (c != '\n') = true := by
    intro c hc
    have hne : c ≠ '\n' := by
      rintro rfl
      exact List.count_eq_zero.1 hnone (List.mem_reverse.1 hc)
    simpa using hne
  unfold columnAt
  rw [htake, List.reverse_append, List.takeWhile_append_of_pos hall]
  simp only [List.length_append, List.length_reverse, List.length_take, List.length_drop]
  omega

/-- No two offsets of a text have line and column in common. -/
theorem offset_unique {s : List Char} {i j : Nat} (hi : i ≤ s.length) (hj : j ≤ s.length)
    (hline : lineAt s i = lineAt s j) (hcolumn : columnAt s i = columnAt s j) : i = j := by
  rcases Nat.le_total i j with hij | hij
  · have := columnAt_of_same_line hij hj hline
    omega
  · have := columnAt_of_same_line hij hi hline.symm
    omega

end Text

namespace Span

/-! ## What a join shows -/

/-- The span is that of a stretch of the text, with its lines and columns. -/
def ConsistentWith (s : List Char) (span : Span) : Prop :=
  ∃ a b : Nat, a ≤ b ∧ b ≤ s.length ∧ span = covering span.file s a b

/-- The beginnings, or the ends, of the known ones of some spans. -/
def knownOffsets (offset : Span → Option Int) (spans : List Span) : Set Nat :=
  {i | ∃ t ∈ spans, t.known = true ∧ offset t = some (i : Int)}

/-- Of the known spans, this one is the last that does not begin in front of all those before it. -/
def ShowsEnd (spans : List Span) (t : Span) : Prop :=
  ∃ before after, spans.filter known = before ++ t :: after ∧
    (before = [] ∨ ∃ u ∈ before, u.startOffset ≤ t.startOffset) ∧
    after.Pairwise (fun u v => v.startOffset < u.startOffset) ∧
    ∀ v ∈ after, ∀ u ∈ before ++ [t], v.startOffset < u.startOffset

/-- What the join of some spans shows: it covers the known ones from `a` to `b`, and where it says that
it ends is the offset `c`. -/
structure Shows (s : List Char) (spans : List Span) (span : Span) (a b c : Nat) : Prop where
  eq : span = { covering span.file s a c with stop := some (b : Int) }
  least : IsLeast (knownOffsets start spans) a
  greatest : IsGreatest (knownOffsets stop spans) b
  last : ∃ t, ShowsEnd spans t ∧ t.stop = some (c : Int)
  le : a ≤ c ∧ c ≤ b ∧ b ≤ s.length

section

variable {s : List Char} {spans : List Span} {span t : Span} {a b c i j : Nat}

/-! ## One more span -/

theorem knownOffsets_concat_of_unknown (offset : Span → Option Int) (ht : t.known = false) :
    knownOffsets offset (spans ++ [t]) = knownOffsets offset spans := by
  ext k
  simp [knownOffsets, or_and_right, exists_or, ht]

theorem knownOffsets_concat {offset : Span → Option Int} (ht : t.known = true)
    (hi : offset t = some (i : Int)) :
    knownOffsets offset (spans ++ [t]) = insert i (knownOffsets offset spans) := by
  ext k
  simp only [knownOffsets, List.mem_append, List.mem_singleton, Set.mem_ofPred_eq, Set.mem_insert_iff,
    or_and_right, exists_or, exists_eq_left, ht, hi, true_and, Option.some.injEq, Int.natCast_inj]
  rw [or_comm, eq_comm]

theorem filter_known_concat_of_unknown (ht : t.known = false) :
    (spans ++ [t]).filter known = spans.filter known := by
  simp [ht]

theorem ShowsEnd.concat_of_unknown {u : Span} (h : ShowsEnd spans u) (ht : t.known = false) :
    ShowsEnd (spans ++ [t]) u := by
  unfold ShowsEnd
  rw [filter_known_concat_of_unknown ht]
  exact h

/-- A span that begins in front of all others does not show its end. -/
theorem ShowsEnd.concat_of_lt {u : Span} (h : ShowsEnd spans u) (ht : t.known = true)
    (hlt : ∀ v ∈ spans.filter known, t.startOffset < v.startOffset) : ShowsEnd (spans ++ [t]) u := by
  obtain ⟨before, after, he, hbefore, hafter, hcross⟩ := h
  rw [he] at hlt
  refine ⟨before, after ++ [t], by simp [he, ht], hbefore, ?_, ?_⟩
  · rw [List.pairwise_append]
    refine ⟨hafter, List.pairwise_singleton _ _, ?_⟩
    rintro v hv t' ht'
    rw [List.mem_singleton.1 ht']
    exact hlt v (by simp [hv])
  · intro v hv u' hu'
    rcases List.mem_append.1 hv with hv | hv
    · exact hcross v hv u' hu'
    · rw [List.mem_singleton.1 hv]
      exact hlt u' (by simp only [List.mem_append, List.mem_cons, List.not_mem_nil, or_false] at hu' ⊢; tauto)

/-- A span that does not begin in front of all others shows its end, and so does the first one. -/
theorem ShowsEnd.concat_self (ht : t.known = true)
    (hle : spans.filter known = [] ∨ ∃ u ∈ spans.filter known, u.startOffset ≤ t.startOffset) :
    ShowsEnd (spans ++ [t]) t :=
  ⟨spans.filter known, [], by simp [ht], hle, .nil, List.forall_mem_nil _⟩

theorem Shows.start_le (h : Shows s spans span a b c) {u : Span} (hu : u ∈ spans)
    (hc : u.ConsistentWith s) : a ≤ u.startOffset := by
  obtain ⟨i, j, -, -, he⟩ := hc
  rw [he]
  exact h.least.2 ⟨u, hu, by rw [he]; rfl, by rw [he]; rfl⟩

theorem Shows.known_eq (h : Shows s spans span a b c) : span.known = true := by
  rw [h.eq]
  rfl

theorem Shows.exists_first (h : Shows s spans span a b c) :
    ∃ u ∈ spans.filter known, u.startOffset = a := by
  obtain ⟨u, hu, hknown, hstart⟩ := h.least.1
  exact ⟨u, List.mem_filter.2 ⟨hu, hknown⟩, by simp [startOffset, hstart]⟩

theorem Shows.single (ht : t = covering t.file s i j) (hij : i ≤ j) (hj : j ≤ s.length)
    (hspans : spans.filter known = []) : Shows s (spans ++ [t]) t i j j := by
  have hknown : t.known = true := by rw [ht]; rfl
  have hstart : t.start = some (i : Int) := by rw [ht]; rfl
  have hstop : t.stop = some (j : Int) := by rw [ht]; rfl
  have hempty (offset : Span → Option Int) : knownOffsets offset spans = ∅ := by
    refine Set.eq_empty_iff_forall_notMem.2 ?_
    rintro k ⟨u, hu, hku, -⟩
    exact List.filter_eq_nil_iff.1 hspans u hu hku
  refine ⟨ht, ?_, ?_, ⟨t, .concat_self hknown (.inl hspans), hstop⟩, hij, Nat.le_refl j, hj⟩
  · rw [knownOffsets_concat hknown hstart, hempty, insert_empty_eq]
    exact isLeast_singleton
  · rw [knownOffsets_concat hknown hstop, hempty, insert_empty_eq]
    exact isGreatest_singleton

theorem Shows.join_unknown (h : Shows s spans span a b c) (ht : t.known = false) :
    Shows s (spans ++ [t]) (span.join t) a b c := by
  have hjoin : span.join t = span := by
    rw [h.eq, join]
    simp only [known, Bool.and_eq_false_iff, Option.isSome_eq_false_iff, Option.isNone_iff_eq_none] at ht
    split <;> simp_all [covering]
  obtain ⟨u, hu, hstop⟩ := h.last
  rw [hjoin]
  exact {
    eq := h.eq
    least := by rw [knownOffsets_concat_of_unknown _ ht]; exact h.least
    greatest := by rw [knownOffsets_concat_of_unknown _ ht]; exact h.greatest
    last := ⟨u, hu.concat_of_unknown ht, hstop⟩
    le := h.le }

/-- The step of the fold. Where the new span begins in front of all others, the end that was shown
stays; otherwise the end of the new span is shown. -/
theorem Shows.join (h : Shows s spans span a b c)
    (hspans : ∀ u ∈ spans, u.known = false ∨ u.ConsistentWith s)
    (ht : t = covering t.file s i j) (hij : i ≤ j) (hj : j ≤ s.length) :
    Shows s (spans ++ [t]) (span.join t) (min i a) (max j b) (if a ≤ i then j else c) := by
  have hknown : t.known = true := by rw [ht]; rfl
  have hstart : t.start = some (i : Int) := by rw [ht]; rfl
  have hstop : t.stop = some (j : Int) := by rw [ht]; rfl
  have hoffset : t.startOffset = i := by simp [startOffset, hstart]
  obtain ⟨hac, hcb, hb⟩ := h.le
  have hleast : IsLeast (knownOffsets start (spans ++ [t])) (min i a) := by
    rw [knownOffsets_concat hknown hstart]
    exact h.least.insert i
  have hgreatest : IsGreatest (knownOffsets stop (spans ++ [t])) (max j b) := by
    rw [knownOffsets_concat hknown hstop]
    exact h.greatest.insert j
  by_cases hai : a ≤ i
  · refine ⟨?_, hleast, hgreatest, ⟨t, .concat_self hknown (.inr ?_), ?_⟩, ?_⟩
    · have hmax : max (b : Int) j = ((max j b : Nat) : Int) := by omega
      rw [h.eq, ht]
      simp [Span.join, covering, hai, hmax]
    · obtain ⟨u, hu, hfirst⟩ := h.exists_first
      exact ⟨u, hu, by rw [hfirst, hoffset]; exact hai⟩
    · rw [if_pos hai, hstop]
    · rw [if_pos hai]; omega
  · obtain ⟨u, hu, hshown⟩ := h.last
    refine ⟨?_, hleast, hgreatest, ⟨u, hu.concat_of_lt hknown ?_, ?_⟩, ?_⟩
    · have hmax : max (b : Int) j = ((max j b : Nat) : Int) := by omega
      have hmin : min i a = i := by omega
      rw [h.eq, ht]
      simp [Span.join, covering, hai, hmax, hmin]
    · intro v hv
      obtain ⟨hmem, hv⟩ := List.mem_filter.1 hv
      have hle := h.start_le hmem ((hspans v hmem).resolve_left (by simp [hv]))
      omega
    · rw [if_neg hai, hshown]
    · rw [if_neg hai]; omega

end

/-! ## The fold -/

theorem joinAll_concat (spans : List Span) (t : Span) :
    joinAll (spans ++ [t]) = (joinAll spans).join t := by
  simp [joinAll]

theorem unknown_join {span : Span} (t : Span) (h : span.known = false) : span.join t = t := by
  simp only [known, Bool.and_eq_false_iff, Option.isSome_eq_false_iff, Option.isNone_iff_eq_none] at h
  unfold join
  split <;> simp_all

/-- The join of some spans is unknown with all of them, or shows what the known ones cover. -/
theorem joinAll_shows {s : List Char} {spans : List Span}
    (h : ∀ t ∈ spans, t.known = false ∨ t.ConsistentWith s) :
    ((joinAll spans).known = false ∧ ∀ t ∈ spans, t.known = false) ∨
      ∃ a b c, Shows s spans (joinAll spans) a b c := by
  induction spans using List.reverseRecOn with
  | nil => exact .inl ⟨rfl, List.forall_mem_nil _⟩
  | append_singleton spans t ih =>
    have hspans : ∀ u ∈ spans, u.known = false ∨ u.ConsistentWith s :=
      fun u hu => h u (List.mem_append_left _ hu)
    rw [joinAll_concat]
    rcases ih hspans with ⟨hnone, hall⟩ | ⟨a, b, c, hshows⟩
    · rw [unknown_join t hnone]
      rcases h t (by simp) with ht | ⟨i, j, hij, hj, ht⟩
      · exact .inl ⟨ht, by simpa [or_imp, forall_and, ht] using hall⟩
      · refine .inr ⟨i, j, j, .single ht hij hj ?_⟩
        exact List.filter_eq_nil_iff.2 fun u hu => by simp [hall u hu]
    · rcases h t (by simp) with ht | ⟨i, j, hij, hj, ht⟩
      · exact .inr ⟨a, b, c, hshows.join_unknown ht⟩
      · exact .inr ⟨_, _, _, hshows.join hspans ht hij hj⟩

/-- A span that shows another end than its offset says is wrong about its text. -/
theorem Shows.consistent_iff {s : List Char} {spans : List Span} {span : Span} {a b c : Nat}
    (h : Shows s spans span a b c) : span.ConsistentWith s ↔ c = b := by
  obtain ⟨hac, hcb, hb⟩ := h.le
  constructor
  · rintro ⟨i, j, -, hj, hcons⟩
    have hshown := h.eq
    have hstop : (j : Int) = b := by
      have := congrArg stop (hcons.symm.trans hshown)
      simpa [covering] using this
    have hline : (lineAt s j : Int) = lineAt s c := by
      have := congrArg endLine (hcons.symm.trans hshown)
      simpa [covering] using this
    have hcolumn : (columnAt s j : Int) = columnAt s c := by
      have := congrArg endColumn (hcons.symm.trans hshown)
      simpa [covering] using this
    have : j = c := offset_unique hj (by omega) (by omega) (by omega)
    omega
  · rintro rfl
    exact ⟨a, c, hac, hb, h.eq⟩

/-- The join of spans that are right about a text, or unknown, is unknown exactly if all of them are.
Otherwise it begins with the first of them, line and column included, and its last offset is the
greatest; the last line and column are those of the end that is shown. So it is right about the text
exactly if the span that shows its end is one that ends last. -/
theorem joinAll_consistent_iff {s : List Char} {spans : List Span}
    (h : ∀ t ∈ spans, t.known = false ∨ t.ConsistentWith s) :
    ((joinAll spans).known = false ↔ ∀ t ∈ spans, t.known = false) ∧
    ((joinAll spans).known = true → ∃ (a b c : Nat) (last : Span),
      IsLeast (knownOffsets start spans) a ∧ IsGreatest (knownOffsets stop spans) b ∧
      a ≤ b ∧ b ≤ s.length ∧ ShowsEnd spans last ∧ last.stop = some (c : Int) ∧
      joinAll spans = { covering (joinAll spans).file s a c with stop := some (b : Int) } ∧
      ((joinAll spans).ConsistentWith s ↔ c = b)) := by
  rcases joinAll_shows h with ⟨hnone, hall⟩ | ⟨a, b, c, hshows⟩
  · exact ⟨iff_of_true hnone hall, fun hknown => absurd hknown (by simp [hnone])⟩
  · refine ⟨iff_of_false (by simp [hshows.known_eq]) ?_, fun _ => ?_⟩
    · obtain ⟨u, hu, hknown, -⟩ := hshows.least.1
      exact fun hall => absurd hknown (by simp [hall u hu])
    · obtain ⟨hac, hcb, hb⟩ := hshows.le
      obtain ⟨last, hlast, hstop⟩ := hshows.last
      exact ⟨a, b, c, last, hshows.least, hshows.greatest, hac.trans hcb, hb, hlast, hstop, hshows.eq,
        hshows.consistent_iff⟩

/-- Two spans that overlap, the later one first, with an unknown one between them. -/
theorem joinAll_consistent_overlapping :
    let s := "a\nbc".toList
    let spans := [covering none s 2 4, unknown, covering none s 0 3]
    (∀ t ∈ spans, t.known = false ∨ t.ConsistentWith s) ∧
      joinAll spans = covering none s 0 4 ∧ (joinAll spans).known = true ∧
      ∃ (a b c : Nat) (last : Span),
        IsLeast (knownOffsets start spans) a ∧ IsGreatest (knownOffsets stop spans) b ∧
        a ≤ b ∧ b ≤ s.length ∧ ShowsEnd spans last ∧ last.stop = some (c : Int) ∧
        joinAll spans = { covering (joinAll spans).file s a c with stop := some (b : Int) } ∧
        ((joinAll spans).ConsistentWith s ↔ c = b) := by
  intro s spans
  have h : ∀ t ∈ spans, t.known = false ∨ t.ConsistentWith s := by
    simp only [spans, List.mem_cons, List.not_mem_nil, or_false, forall_eq_or_imp, forall_eq]
    exact ⟨.inr ⟨2, 4, by decide, by decide, rfl⟩, .inl rfl, .inr ⟨0, 3, by decide, by decide, rfl⟩⟩
  exact ⟨h, rfl, rfl, (joinAll_consistent_iff h).2 rfl⟩

/-- A span that lies inside the one before it leaves its own last line and column in the join. -/
theorem joinAll_nested_inconsistent :
    let s := "abc".toList
    (covering none s 0 3).ConsistentWith s ∧ (covering none s 1 2).ConsistentWith s ∧
      ¬ (joinAll [covering none s 0 3, covering none s 1 2]).ConsistentWith s := by
  refine ⟨⟨0, 3, by decide, by decide, rfl⟩, ⟨1, 2, by decide, by decide, rfl⟩, ?_⟩
  rintro ⟨a, b, -, -, h⟩
  have hstop : some (3 : Int) = some (b : Int) := congrArg stop h
  obtain rfl : b = 3 := by
    have := Option.some.inj hstop
    omega
  have hcolumn : some (3 : Int) = some (4 : Int) := congrArg endColumn h
  exact absurd hcolumn (by decide)

end Span

end InlineVariants
