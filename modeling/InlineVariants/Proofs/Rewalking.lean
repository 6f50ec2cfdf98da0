import InlineVariants.Proofs.Walking

/-!
# One walk after another

What a walker has collected before does not matter to its next walk, so several walks with one walker
collect what separate walkers would, one after the other.

A walk leaves no marker behind where the next one searches (`Walker.Settled`). A replacement takes one
place where three trees were, so trees become neighbours that were none; but a replacement is an
invisible group, and that neither takes part in a marker nor qualifies one. Every triple that a second
walk could take for a marker therefore stood in the list from the beginning, behind the same tree.

Main statements: `walk_concatenates` and `walk_settles`.
-/

namespace InlineVariants

/-! ## Walks one after the other -/

namespace Collected

theorem events_concat (cs : List Collected) : (concat cs).events = cs.flatMap events := by
  induction cs with
  | nil => rfl
  | cons c cs ih => simp [concat, ih]

end Collected

/-- A walk puts what it collects behind what was there. What it collects, and what it makes of the
trees, is what a new walker collects and makes. So a walker that goes through several lists collects
what separate walkers collect, one after the other. -/
theorem walk_concatenates (w : Walker) (c : Collected) :
    (∀ trees : List Tree,
      let walked := w.walk c trees
      let alone := expandMarkers trees w.enum w.marker
      walked.1.declarations = c.declarations ++ alone.1.declarations ∧
        walked.1.diagnostics = c.diagnostics ++ alone.1.diagnostics ∧
        walked.1.events = c.events ++ alone.1.events ∧ walked.2 = alone.2) ∧
    ∀ streams : List (List Tree),
      let walked := Walk.each w.walk c streams
      let alone := streams.map fun trees => expandMarkers trees w.enum w.marker
      walked.1.declarations = c.declarations ++ alone.flatMap (·.1.declarations) ∧
        walked.1.diagnostics = c.diagnostics ++ alone.flatMap (·.1.diagnostics) ∧
        walked.1.events = c.events ++ alone.flatMap (·.1.events) ∧ walked.2 = alone.map (·.2) := by
  constructor
  · intro trees walked alone
    have hwalked : walked = (c ++ alone.1, alone.2) := w.walk_appends c trees
    rw [hwalked]
    exact ⟨rfl, rfl, rfl, rfl⟩
  · intro streams walked alone
    have hwalked : walked = (c ++ .concat (alone.map (·.1)), alone.map (·.2)) := by
      simp only [walked, alone, w.walk_appends.each_eq, List.map_map]
      rfl
    rw [hwalked]
    refine ⟨?_, ?_, ?_, rfl⟩
    · rw [Collected.declarations_append, Collected.declarations_concat, List.flatMap_map]
    · rw [Collected.diagnostics_append, Collected.diagnostics_concat, List.flatMap_map]
    · rw [Collected.events_append, Collected.events_concat, List.flatMap_map]

/-! ## Where a walk searches -/

/-- The lists that a walk searches: the whole list, and what is in a visible group of such a list. -/
inductive Searched (ts : List Tree) : List Tree → Prop
  | here : Searched ts ts
  | inside {level contents : List Tree} {d : Delimiter} {span : Span} :
      Searched ts level → .group d contents span ∈ level → d ≠ .invisible → Searched ts contents

/-- What is searched in a visible group is searched in the list around it. -/
theorem Searched.of_group {ts contents level : List Tree} {d : Delimiter} {span : Span}
    (h : Searched contents level) (hmem : .group d contents span ∈ ts) (hd : d ≠ .invisible) :
    Searched ts level := by
  induction h with
  | here => exact .inside .here hmem hd
  | inside _ hg he ih => exact .inside ih hg he

/-- What is searched is the list itself, or it is searched in one of its visible groups. -/
theorem Searched.cases_group {ts level : List Tree} (h : Searched ts level) :
    level = ts ∨ ∃ d contents span, .group d contents span ∈ ts ∧ d ≠ .invisible ∧
      Searched contents level := by
  induction h with
  | here => exact .inl rfl
  | inside _ hg he ih =>
    rcases ih with rfl | ⟨d, contents, span, hmem, hd, hin⟩
    · exact .inr ⟨_, _, _, hg, he, .here⟩
    · exact .inr ⟨d, contents, span, hmem, hd, .inside hin hg he⟩

namespace Walker

variable (w : Walker)

/-- Wherever the trees of a marker stand in the list, its group is invisible or a qualifier stands in
front of its name; `before` is the tree in front of the list. -/
def Unmarked (before : Option Tree) (ts : List Tree) : Prop :=
  ∀ pre span opSpan d contents groupSpan post,
    ts = pre ++ .ident w.marker span :: .punct "!" opSpan :: .group d contents groupSpan :: post →
    d = .invisible ∨ (pre.getLast?.or before).any isQualifier = true

/-- No marker is left where a walk searches. -/
def Settled (ts : List Tree) : Prop := ∀ level, Searched ts level → w.Unmarked none level

variable {w}

theorem unmarked_nil (before : Option Tree) : w.Unmarked before [] := by
  intro pre span opSpan d contents groupSpan post he
  simp at he

/-- One more tree in front: it begins no marker, and it may qualify one. -/
theorem Unmarked.cons {before : Option Tree} {t : Tree} {rest : List Tree}
    (hm : w.marks before (t :: rest) = false) (h : w.Unmarked (some t) rest) :
    w.Unmarked before (t :: rest) := by
  intro pre span opSpan d contents groupSpan post he
  cases pre with
  | nil =>
    obtain ⟨rfl, rfl⟩ := List.cons.inj he
    by_cases hd : d = .invisible
    · exact .inl hd
    · right
      simpa [marks, hd] using hm
  | cons u pre =>
    obtain ⟨rfl, hrest⟩ := List.cons.inj he
    have hlast : ((t :: pre).getLast?.or before) = pre.getLast?.or (some t) := by
      cases hp : pre.getLast? <;> simp [List.getLast?_cons, hp]
    rw [hlast]
    exact h pre span opSpan d contents groupSpan post hrest

theorem Unmarked.of_before {before before' : Option Tree} {ts : List Tree} (h : w.Unmarked before ts)
    (hb : before.any isQualifier = before'.any isQualifier) : w.Unmarked before' ts := by
  intro pre span opSpan d contents groupSpan post he
  refine (h pre span opSpan d contents groupSpan post he).imp_right fun hq => ?_
  cases hp : pre.getLast? with
  | none => simpa [hp, ← hb] using hq
  | some t => simpa [hp] using hq

theorem settled_iff {ts : List Tree} :
    w.Settled ts ↔ w.Unmarked none ts ∧
      ∀ d contents span, .group d contents span ∈ ts → d ≠ .invisible → w.Settled contents := by
  constructor
  · intro h
    exact ⟨h ts .here, fun d contents span hmem hd level hlevel => h level (hlevel.of_group hmem hd)⟩
  · rintro ⟨hts, hgroups⟩ level hlevel
    rcases hlevel.cases_group with rfl | ⟨d, contents, span, hmem, hd, hin⟩
    · exact hts
    · exact hgroups d contents span hmem hd level hin

/-! ## Nothing to visit -/

/-- Where a walk comes by no marker, none is there. -/
theorem settled_of_visits {before : Option Tree} {ts : List Tree} (h : w.visits before ts = []) :
    w.Unmarked before ts ∧
      ∀ d contents span, .group d contents span ∈ ts → d ≠ .invisible → w.Settled contents := by
  induction before, ts using w.walk_induction with
  | nil before => exact ⟨unmarked_nil before, by simp⟩
  | marker before span opSpan d contents groupSpan rest hb hd _ _ =>
    rw [w.visits_marker hb hd] at h
    cases h
  | group before d contents span rest hd ihc ih =>
    rw [w.visits_group hd, List.append_eq_nil_iff] at h
    obtain ⟨hrest, hgroups⟩ := ih h.2
    refine ⟨.cons rfl (hrest.of_before rfl), fun e inner s hmem he => ?_⟩
    rcases List.mem_cons.1 hmem with heq | hmem
    · obtain ⟨rfl, rfl, rfl⟩ := Tree.group.inj heq
      exact settled_iff.2 (ihc h.1)
    · exact hgroups e inner s hmem he
  | keep before t rest hm ht ih =>
    rw [w.visits_keep hm ht] at h
    obtain ⟨hrest, hgroups⟩ := ih h
    refine ⟨.cons hm hrest, fun e inner s hmem he => ?_⟩
    rcases List.mem_cons.1 hmem with heq | hmem
    · exact absurd (ht e inner s heq.symm) he
    · exact hgroups e inner s hmem he

/-- Where a walk comes by no marker, it changes nothing. -/
theorem walkLevel_of_visits {before : Option Tree} {ts : List Tree} (h : w.visits before ts = [])
    (c : Collected) : w.walkLevel w.walk before c ts = (c, ts) := by
  induction before, ts using w.walk_induction generalizing c with
  | nil before => rfl
  | marker before span opSpan d contents groupSpan rest hb hd _ _ =>
    rw [w.visits_marker hb hd] at h
    cases h
  | group before d contents span rest hd ihc ih =>
    rw [w.visits_group hd, List.append_eq_nil_iff] at h
    rw [w.walkLevel_group hd, w.walk_eq, ihc h.1 c]
    dsimp only
    rw [ih h.2 c]
  | keep before t rest hm ht ih =>
    rw [w.visits_keep hm ht] at h
    rw [w.walkLevel_keep hm ht, ih h c]

/-! ## What a walk leaves -/

/-- A punctuation in a rewritten list stood there before, behind the same tree. -/
theorem rewritten_eq_punct {before : Option Tree} {ts us : List Tree} {op : String} {span : Span}
    (h : w.rewritten before ts = .punct op span :: us) :
    ∃ rest, ts = .punct op span :: rest ∧ us = w.rewritten (some (.punct op span)) rest := by
  cases before, ts using w.walk_induction with
  | nil before => cases h
  | marker before span opSpan d contents groupSpan rest hb hd _ _ =>
    obtain ⟨trees, hx⟩ := Visit.replacement_shape w [] span contents groupSpan
    rw [w.rewritten_marker hb hd, hx] at h
    cases h
  | group before d contents span rest hd _ _ =>
    rw [w.rewritten_group hd] at h
    cases h
  | keep before t rest hm ht _ =>
    rw [w.rewritten_keep hm ht] at h
    obtain ⟨rfl, rfl⟩ := List.cons.inj h
    exact ⟨rest, rfl, rfl⟩

/-- A visible group in a rewritten list stood there before, with other contents. -/
theorem rewritten_eq_group {before : Option Tree} {ts us contents : List Tree} {d : Delimiter}
    {span : Span} (h : w.rewritten before ts = .group d contents span :: us) (hd : d ≠ .invisible) :
    ∃ inner rest, ts = .group d inner span :: rest := by
  cases before, ts using w.walk_induction with
  | nil before => cases h
  | marker before span opSpan e contents groupSpan rest hb he _ _ =>
    obtain ⟨trees, hx⟩ := Visit.replacement_shape w [] span contents groupSpan
    rw [w.rewritten_marker hb he, hx] at h
    obtain ⟨rfl, -, -⟩ := Tree.group.inj (List.cons.inj h).1
    exact absurd rfl hd
  | group before e inner span rest he _ _ =>
    rw [w.rewritten_group he] at h
    obtain ⟨rfl, -, rfl⟩ := Tree.group.inj (List.cons.inj h).1
    exact ⟨inner, rest, rfl⟩
  | keep before t rest hm ht _ =>
    rw [w.rewritten_keep hm ht] at h
    obtain ⟨rfl, -⟩ := List.cons.inj h
    exact ⟨contents, rest, rfl⟩

/-- A tree that began no marker begins none when the trees behind it are rewritten. -/
theorem marks_rewritten {before : Option Tree} {t : Tree} {rest : List Tree}
    (hm : w.marks before (t :: rest) = false) :
    w.marks before (t :: w.rewritten (some t) rest) = false := by
  by_contra hmarks
  rw [Bool.not_eq_false] at hmarks
  obtain ⟨span, opSpan, d, contents, groupSpan, us, he, hd, hb⟩ := w.eq_of_marks hmarks
  obtain ⟨rfl, hpunct⟩ := List.cons.inj he
  obtain ⟨rest', rfl, hgroup⟩ := rewritten_eq_punct hpunct
  obtain ⟨inner, rest'', rfl⟩ := rewritten_eq_group hgroup.symm hd
  simp [marks, hd, hb] at hm

/-- A walk comes by no marker in what a walk has left. -/
theorem visits_rewritten (before : Option Tree) (ts : List Tree) :
    w.visits before (w.rewritten before ts) = [] := by
  induction before, ts using w.walk_induction with
  | nil before => rw [rewritten_nil, visits]
  | marker before span opSpan d contents groupSpan rest hb hd _ ih =>
    obtain ⟨trees, hx⟩ := Visit.replacement_shape w [] span contents groupSpan
    rw [w.rewritten_marker hb hd, hx, visits]
    simpa using ih
  | group before d contents span rest hd ihc ih =>
    rw [w.rewritten_group hd, w.visits_group hd, ihc, ih]
    rfl
  | keep before t rest hm ht ih =>
    rw [w.rewritten_keep hm ht, w.visits_keep (marks_rewritten hm) ht, ih]

end Walker

/-- Replacements are not searched again. A walk leaves no marker where a walk searches, and a second
walk changes neither the trees nor what has been collected, whatever that is. -/
theorem walk_settles (w : Walker) (c : Collected) (ts : List Tree) :
    let walked := w.walk c ts
    w.walk walked.1 walked.2 = walked ∧ w.Settled walked.2 ∧
      ∀ c' : Collected, w.walk c' walked.2 = (c', walked.2) := by
  intro walked
  have hvisits : w.visits none walked.2 = [] := by
    simp only [walked, w.walk_snd]
    exact Walker.visits_rewritten none ts
  have hagain (c' : Collected) : w.walk c' walked.2 = (c', walked.2) := by
    rw [w.walk_eq]
    exact Walker.walkLevel_of_visits hvisits c'
  exact ⟨hagain walked.1, Walker.settled_iff.2 (Walker.settled_of_visits hvisits), hagain⟩

end InlineVariants
