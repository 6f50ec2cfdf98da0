import InlineVariants.Proofs.Overlapping

/-!
# Splicing is simultaneous substitution

Edits are spliced in one after the other, and each of them changes the text that the next one is applied
to. Sorted from right to left they do not get into each other's way: an edit leaves the text in front of
it as it was, and that is where the later ones are. Which edit comes next is decided by a total order, so
the order in which the edits were collected is forgotten.

Main statement: edits that do not overlap are all made at once, each in its own place, whatever their
replacements are (`Edit.applyAll_simultaneous`).
-/

namespace InlineVariants

namespace Edit

/-- The edit of the same range with another replacement. -/
def retext (text : Edit → List Char) (e : Edit) : Edit := { e with replacement := text e }

section

variable {s : List Char} {es fs : List Edit}

/-- The order in which the edits were collected does not matter. -/
theorem applyAll_perm (h : fs.Perm es) : applyAll s fs = applyAll s es := by
  have hperm : (fs.mergeSort fun e f => f.le e).Perm (es.mergeSort fun e f => f.le e) :=
    (List.mergeSort_perm fs _).trans (h.trans (List.mergeSort_perm es _).symm)
  have hsort : (fs.mergeSort fun e f => f.le e) = es.mergeSort fun e f => f.le e :=
    List.Perm.eq_of_pairwise (fun _ _ _ _ h h' => le_antisymm h' h) (mergeSort_pairwise fs)
      (mergeSort_pairwise es) hperm
  rw [applyAll, applyAll, hsort]

theorem start_le_of_le {e f : Edit} (h : e.le f = true) : e.start ≤ f.start := by
  unfold le at h
  split_ifs at h with hstart
  · exact Nat.le_of_lt (of_decide_eq_true h)
  · exact Nat.le_of_eq (not_not.1 hstart)
  · exact Nat.le_of_eq (not_not.1 hstart)

/-- Edits that do not overlap can be put into the order of the text. -/
theorem exists_within (hin : ∀ e ∈ es, e.start < e.stop ∧ e.stop ≤ s.length)
    (hdis : es.Pairwise Disjoint) : ∃ fs, fs.Perm es ∧ Within s.length 0 fs := by
  have hperm : (es.mergeSort fun e f => f.le e).reverse.Perm es :=
    (List.reverse_perm _).trans (List.mergeSort_perm es _)
  have hsorted : (es.mergeSort fun e f => f.le e).reverse.Pairwise fun e f => e.le f = true :=
    List.pairwise_reverse.2 (mergeSort_pairwise es)
  have hapart : (es.mergeSort fun e f => f.le e).reverse.Pairwise Disjoint :=
    hdis.perm hperm.symm fun h => h.symm
  refine ⟨_, hperm, within_of_pairwise (Nat.zero_le _) (fun e he => ?_) ?_⟩
  · exact ⟨Nat.zero_le _, hin e (hperm.mem_iff.1 he)⟩
  · -- of two edits that do not overlap, the one that begins first ends first
    refine (hsorted.and hapart).imp_of_mem fun he hf hef => ?_
    have hstart := start_le_of_le hef.1
    have hlt := (hin _ (hperm.mem_iff.1 hf)).1
    rcases hef.2 with hbefore | hbehind
    · exact hbefore
    · omega

/-- Where an edit stands has nothing to do with its replacement. -/
theorem Within.retext (text : Edit → List Char) {a b : Nat} (h : Within b a es) :
    Within b a (es.map (Edit.retext text)) := by
  induction es generalizing a with
  | nil => exact h
  | cons e es ih => exact ⟨h.1, h.2.1, ih h.2.2⟩

end

/-- Edits that lie in the text and do not overlap can be put into the order of the text, and splicing them
in, in whatever order they were collected, makes all of them at once: the stretches between them stay, and
each range becomes its replacement. Other replacements for the same ranges, of any length, change nothing
else. -/
theorem applyAll_simultaneous {s : List Char} {es : List Edit}
    (hin : ∀ e ∈ es, e.start < e.stop ∧ e.stop ≤ s.length) (hdis : es.Pairwise Disjoint) :
    (∃ fs, fs.Perm es ∧ Within s.length 0 fs) ∧
      ∀ fs, fs.Perm es → Within s.length 0 fs →
        (∀ es', es'.Perm es → applyAll s es' = substituted s s.length 0 fs) ∧
        ∀ text : Edit → List Char, applyAll s (es.map (retext text)) =
          substituted s s.length 0 (fs.map (retext text)) := by
  refine ⟨exists_within hin hdis, fun fs hperm hfs => ⟨fun es' hes' => ?_, fun text => ?_⟩⟩
  · rw [applyAll_perm (hes'.trans hperm.symm), hfs.applyAll_eq]
  · rw [applyAll_perm (hperm.symm.map (retext text)), (hfs.retext text).applyAll_eq]

/-- Three edits that were collected from the middle on: two of them touch, one deletes, one makes the text
longer. -/
theorem applyAll_simultaneous_touching :
    let s := "abcdef".toList
    let es : List Edit := [⟨1, 3, []⟩, ⟨4, 6, "X".toList⟩, ⟨0, 1, "long".toList⟩]
    (∀ e ∈ es, e.start < e.stop ∧ e.stop ≤ s.length) ∧ es.Pairwise Disjoint ∧
      applyAll s es = "longdX".toList ∧ applyAll s es.reverse = "longdX".toList := by
  intro s es
  have hin : ∀ e ∈ es, e.start < e.stop ∧ e.stop ≤ s.length := by decide
  have hdis : es.Pairwise Disjoint := by decide
  have hperm : [⟨0, 1, "long".toList⟩, ⟨1, 3, []⟩, ⟨4, 6, "X".toList⟩].Perm es := by decide
  have hwithin : Within s.length 0 [⟨0, 1, "long".toList⟩, ⟨1, 3, []⟩, ⟨4, 6, "X".toList⟩] := by
    simp [Within, s]
  have hall := ((applyAll_simultaneous hin hdis).2 _ hperm hwithin).1
  exact ⟨hin, hdis, hall es (.refl es), hall es.reverse (List.reverse_perm es)⟩

end Edit

end InlineVariants
