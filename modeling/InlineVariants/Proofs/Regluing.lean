import InlineVariants.Proofs.Gluing

/-!
# Groups of fields with other glue

Two readings run side by side: one of the entries of a group as they were accepted, and one of the same
entries glued in other places (`Fields.Reglued`). Entry by entry the second one does what the first one
did, as long as its glued tokens close what is open, and it goes another way at the first one that does
not.

Main statement: `Reader.fields_reglued`.
-/

namespace InlineVariants

/-! ## The same entries twice -/

/-- Two lists of trees with the same commas, and related trees between them. -/
inductive JoinedBoth {α : Type} (rel : α → List Tree → List Tree → Prop) :
    List α → List Tree → List Tree → Prop
  | nil : JoinedBoth rel [] [] []
  | last {a : α} {ts us : List Tree} : rel a ts us → JoinedBoth rel [a] ts us
  | trailing {a : α} {ts us : List Tree} {span : Span} : rel a ts us →
      JoinedBoth rel [a] (ts ++ [.punct "," span]) (us ++ [.punct "," span])
  | cons {a b : α} {more : List α} {ts us ts' us' : List Tree} {span : Span} :
      rel a ts us → JoinedBoth rel (b :: more) ts' us' →
      JoinedBoth rel (a :: b :: more) (ts ++ .punct "," span :: ts') (us ++ .punct "," span :: us')

/-- Two ways to write an entry; `closes` tells where the second one may be glued. -/
def WrittenAnew {α : Type} (gluedAs : (List Tree → Nat → Prop) → α → List Tree → Prop)
    (closes : List Tree → Nat → Prop) (a : α) (before after : List Tree) : Prop :=
  gluedAs Anywhere a before ∧ gluedAs closes a after

/-- The same entries, glued in other places. -/
def Fields.Reglued (closes : List Tree → Nat → Prop) : Fields → List Tree → List Tree → Prop
  | .unit, ts, us => ts = [] ∧ us = []
  | .named fs, ts, us => JoinedBoth (WrittenAnew NamedField.GluedAs closes) fs ts us
  | .unnamed fs, ts, us => JoinedBoth (WrittenAnew UnnamedField.GluedAs closes) fs ts us

/-- The same fields in the same order. -/
def Fields.SameAs : Fields → Fields → Prop
  | .unit, .unit => True
  | .named fs, .named gs => List.Forall₂ NamedField.SameAs fs gs
  | .unnamed fs, .unnamed gs => List.Forall₂ UnnamedField.SameAs fs gs
  | _, _ => False

/-- The types of fields. -/
def Fields.types : Fields → List (List Tree)
  | .unit => []
  | .named fs => fs.map NamedField.type
  | .unnamed fs => fs.map UnnamedField.type

namespace JoinedBoth

variable {α : Type} {rel rel' : α → List Tree → List Tree → Prop} {as : List α} {ts us : List Tree}

theorem ne_nil {a : α} (hne : ∀ {a ts us}, rel a ts us → ts ≠ [] ∧ us ≠ [])
    (h : JoinedBoth rel (a :: as) ts us) : ts ≠ [] ∧ us ≠ [] := by
  cases h with
  | last ha => exact hne ha
  | trailing | cons => simp

theorem prepend {a : α} {ts' us' : List Tree} {span : Span} (h : JoinedBoth rel as ts' us')
    (ha : rel a ts us) :
    JoinedBoth rel (a :: as) (ts ++ .punct "," span :: ts') (us ++ .punct "," span :: us') := by
  cases as with
  | nil => cases h; exact .trailing ha
  | cons b more => exact .cons ha h

theorem forall_mem {p : α → Prop} (h : JoinedBoth rel as ts us) (himp : ∀ a ts us, rel a ts us → p a) :
    ∀ a ∈ as, p a := by
  induction h with
  | nil => simp
  | last ha | trailing ha => simpa using himp _ _ _ ha
  | cons ha _ ih => simpa using ⟨himp _ _ _ ha, by simpa using ih⟩

theorem imp_mem (h : JoinedBoth rel as ts us)
    (himp : ∀ a ∈ as, ∀ ts us, rel a ts us → rel' a ts us) : JoinedBoth rel' as ts us := by
  induction h with
  | nil => exact .nil
  | last ha => exact .last (himp _ List.mem_cons_self _ _ ha)
  | trailing ha => exact .trailing (himp _ List.mem_cons_self _ _ ha)
  | cons ha _ ih =>
    exact .cons (himp _ List.mem_cons_self _ _ ha) (ih fun b hb => himp b (List.mem_cons_of_mem _ hb))

/-- The first list beside itself. -/
theorem fst (h : JoinedBoth rel as ts us) (himp : ∀ a ts us, rel a ts us → rel' a ts ts) :
    JoinedBoth rel' as ts ts := by
  induction h with
  | nil => exact .nil
  | last ha => exact .last (himp _ _ _ ha)
  | trailing ha => exact .trailing (himp _ _ _ ha)
  | cons ha _ ih => exact .cons (himp _ _ _ ha) ih

end JoinedBoth

namespace Reader

/-! ## Runs over all entries -/

section Entries

variable {α : Type} {entry : Nat → Reader α} {index limit : Nat} {c c' : Cursor} {a : α}
  {as : List α} {ts rest after : List Tree}

theorem entries_ahead (hne : c.ahead ≠ []) : entries entry (limit + 1) index c = (do
    let first ← entry index
    if ← another then return first :: (← entries entry limit (index + 1))
    return [first] : Reader (List α)) c := by
  show (if c.atEnd = true then _ else _ : Reader (List α)) c = _
  rw [if_neg (by simpa [Cursor.atEnd] using hne)]

theorem entries_head (hc : c.ahead = ts ++ rest) (hne : ts ≠ [])
    (h : entry index c = .ok a (c.pass after rest)) : entries entry (limit + 1) index c = (do
      if ← another then return a :: (← entries entry limit (index + 1))
      return [a]) (c.pass after rest) := by
  rw [entries_ahead (by simp [hc, hne])]
  exact run_bind h

/-- The last entry, perhaps with a comma behind it. -/
theorem entries_one (hrest : rest = [] ∨ ∃ span, rest = [.punct "," span]) (hc : c.ahead = ts ++ rest)
    (hne : ts ≠ []) (h : entry index c = .ok a (c.pass after rest)) :
    entries entry (limit + 1) index c = .ok [a] (c.pass (after ++ rest) []) := by
  have hend : Yields another rest [] false := another_yields_false hrest
  rw [entries_head hc hne h, run_bind (hend (c.pass after rest) (List.append_nil rest).symm), pass_pass]
  rfl

/-- An entry with a comma and more behind it. -/
theorem entries_more {span : Span} {more : List Tree} (hmore : more ≠ [])
    (hc : c.ahead = ts ++ .punct "," span :: more) (hne : ts ≠ [])
    (h : entry index c = .ok a (c.pass after (.punct "," span :: more))) :
    entries entry (limit + 1) index c =
      (do return a :: (← entries entry limit (index + 1)) : Reader (List α))
        (c.pass (after ++ [.punct "," span]) more) := by
  rw [entries_head hc hne h, run_bind (another_yields_true span hmore _ rfl), pass_pass]
  rfl

/-- The first one of some entries was read where they begin. -/
theorem entries_cons_inv (hne : c.ahead ≠ []) (h : entries entry limit index c = .ok (a :: as) c') :
    ∃ n c₁, limit = n + 1 ∧ entry index c = .ok a c₁ := by
  cases limit with
  | zero => cases h
  | succ n =>
    rw [entries_ahead hne] at h
    obtain ⟨b, c₁, hfirst, h⟩ := run_bind_inv h
    obtain ⟨more, c₂, -, h⟩ := run_bind_inv h
    refine ⟨n, c₁, rfl, ?_⟩
    cases more with
    | false => cases h; exact hfirst
    | true =>
      obtain ⟨others, c₃, -, h⟩ := run_bind_inv h
      cases h
      exact hfirst

/-- A value with something behind it ends in front of every comma. -/
theorem valueRun_comma {value more : List Tree} {span : Span}
    (h : valueRun {} (value ++ .punct "," span :: more) = (value, .punct "," span :: more))
    (more' : List Tree) :
    valueRun {} (value ++ .punct "," span :: more') = (value, .punct "," span :: more') := by
  have hcloses := valueRun_closes {} (value ++ .punct "," span :: more)
  rw [h] at hcloses
  exact (hcloses.resolve_left (by simp)).valueRun_eq (.inr ⟨_, _, rfl⟩)

variable {good : α → Prop} {gluedAs : (List Tree → Nat → Prop) → α → List Tree → Prop}
  {same : α → α → Prop} {type value apart : α → List Tree} {fs : List α} {us : List Tree}

/-- The first entry is read as what it says: it has closed what was open, and its value ends there. -/
theorem Reglues.head_closes (step : Reglues entry good gluedAs same type value apart) {f : α}
    (hf : good f) (hglued : gluedAs Anywhere f ts) (hc : c.ahead = ts ++ rest)
    (h : entries entry limit index c = .ok (a :: as) c') (hsame : same f a) :
    ∃ n, limit = n + 1 ∧ gluedAs LeavesOpen f ts ∧ valueRun {} (value f ++ rest) = (value f, rest) := by
  have hne : c.ahead ≠ [] := by simp [hc, step.ne_nil hglued]
  obtain ⟨n, c₁, rfl, hfirst⟩ := entries_cons_inv hne h
  exact ⟨n, rfl, step.closes hf hglued hc hfirst hsame⟩

/-- Behind an entry with a comma, the others are read. -/
theorem Reglues.tail_reads (step : Reglues entry good gluedAs same type value apart) {f : α}
    {span : Span} (hf : good f) (hglued : gluedAs LeavesOpen f ts)
    (hrun : valueRun {} (value f ++ .punct "," span :: rest) = (value f, .punct "," span :: rest))
    (hrest : rest ≠ []) : ∃ f' after, same f f' ∧ bareOf after = bareOf (apart f) ∧
      ∀ limit index c, c.ahead = ts ++ .punct "," span :: rest →
        entries entry (limit + 1) index c =
          (do return f' :: (← entries entry limit (index + 1)) : Reader (List α))
            (c.pass (after ++ [.punct "," span]) rest) := by
  obtain ⟨f', after, hsame, hafter, hread⟩ := step.reads hf hglued hrun
  exact ⟨f', after, hsame, hafter, fun limit index c hc =>
    entries_more hrest hc (step.ne_nil hglued) (hread index c hc)⟩

/-- Entries that are read as what they say have closed what was open. -/
theorem Reglues.entries_close (step : Reglues entry good gluedAs same type value apart)
    (h : JoinedBoth (WrittenAnew gluedAs Anywhere) fs ts us) (hgood : ∀ f ∈ fs, good f) (hc : c.ahead = us)
    (hus : entries entry limit index c = .ok as c') (hsame : List.Forall₂ same fs as) :
    JoinedBoth (WrittenAnew gluedAs LeavesOpen) fs ts us := by
  induction h generalizing limit index c as with
  | nil => exact .nil
  | @last f ts us hf =>
    cases hsame with | cons hsame _ =>
    rw [← List.append_nil us] at hc
    obtain ⟨-, -, hglued, -⟩ := step.head_closes (hgood f List.mem_cons_self) hf.2 hc hus hsame
    exact .last ⟨hf.1, hglued⟩
  | @trailing f ts us span hf =>
    cases hsame with | cons hsame _ =>
    obtain ⟨-, -, hglued, -⟩ := step.head_closes (hgood f List.mem_cons_self) hf.2 hc hus hsame
    exact .trailing ⟨hf.1, hglued⟩
  | @cons f g more ts us ts' us' span hf hmore ih =>
    cases hsame with | cons hsame hsames =>
    have hfg := List.forall_mem_cons.1 hgood
    obtain ⟨n, rfl, hglued, hrun⟩ := step.head_closes hfg.1 hf.2 hc hus hsame
    have hus' : us' ≠ [] :=
      (hmore.ne_nil fun h => ⟨step.ne_nil h.1, step.ne_nil h.2⟩).2
    obtain ⟨f', after, -, -, htail⟩ := step.tail_reads hfg.1 hglued hrun hus'
    rw [htail _ _ _ hc] at hus
    obtain ⟨others, c₁, hothers, hus⟩ := run_bind_inv hus
    cases hus
    exact .cons ⟨hf.1, hglued⟩ (ih hfg.2 rfl hothers hsames)

/-- The last entry is read as it was read before, in front of the same end. -/
theorem Reglues.one_reads (step : Reglues entry good gluedAs same type value apart) {f : α}
    (hf : good f) (hglued : gluedAs Anywhere f ts) (hglued' : gluedAs LeavesOpen f us)
    (hrest : rest = [] ∨ ∃ span, rest = [.punct "," span]) (hc : c.ahead = ts ++ rest)
    (hts : entries entry limit index c = .ok [f] c') :
    ∃ left as left', c' = c.pass left [] ∧ List.Forall₂ same [f] as ∧ bareOf left' = bareOf left ∧
      ∀ limit index d, (us ++ rest).length ≤ limit → d.ahead = us ++ rest →
        entries entry limit index d = .ok as (d.pass left' []) := by
  obtain ⟨n, rfl, hclosed, hrun⟩ := step.head_closes hf hglued hc hts (step.refl f)
  obtain ⟨f₁, after, -, hafter, hread⟩ := step.reads hf hclosed hrun
  obtain ⟨f', after', hsame, hafter', hread'⟩ := step.reads hf hglued' hrun
  rw [entries_one hrest hc (step.ne_nil hclosed) (hread index c hc)] at hts
  cases hts
  refine ⟨after ++ rest, [f'], after' ++ rest, rfl, .cons hsame .nil, ?_,
    fun limit index d hlen hd => ?_⟩
  · rw [bareOf_append, bareOf_append, hafter, hafter']
  · have hpos := List.length_pos_iff.2 (step.ne_nil hglued')
    rw [List.length_append] at hlen
    obtain ⟨m, rfl⟩ : ∃ m, limit = m + 1 := ⟨limit - 1, by omega⟩
    exact entries_one hrest hd (step.ne_nil hglued') (hread' index d hd)

/-- Entries that close what is open are read as the entries that were read before, and they are left
with the same tokens. -/
theorem Reglues.entries_read (step : Reglues entry good gluedAs same type value apart)
    (h : JoinedBoth (WrittenAnew gluedAs LeavesOpen) fs ts us)
    (hgood : ∀ f ∈ fs, good f) (hc : c.ahead = ts) (hts : entries entry limit index c = .ok fs c') :
    ∃ left as left', c' = c.pass left [] ∧ List.Forall₂ same fs as ∧ bareOf left' = bareOf left ∧
      ∀ limit index d, us.length ≤ limit → d.ahead = us →
        entries entry limit index d = .ok as (d.pass left' []) := by
  induction h generalizing limit index c with
  | nil =>
    rw [entries_none limit index c hc] at hts
    cases hts
    exact ⟨[], [], [], rfl, .nil, rfl, fun limit index d _ hd => entries_none limit index d hd⟩
  | @last f ts us hf =>
    rw [← List.append_nil ts] at hc
    simpa using step.one_reads (hgood f List.mem_cons_self) hf.1 hf.2 (.inl rfl) hc hts
  | @trailing f ts us span hf =>
    exact step.one_reads (hgood f List.mem_cons_self) hf.1 hf.2 (.inr ⟨span, rfl⟩) hc hts
  | @cons f g more ts us ts' us' span hf hmore ih =>
    obtain ⟨hf', hgood⟩ := List.forall_mem_cons.1 hgood
    obtain ⟨hts', hus'⟩ := hmore.ne_nil fun h => ⟨step.ne_nil h.1, step.ne_nil h.2⟩
    obtain ⟨n, rfl, hclosed, hrun⟩ := step.head_closes hf' hf.1 hc hts (step.refl f)
    obtain ⟨f₁, after, -, hafter, htail⟩ := step.tail_reads hf' hclosed hrun hts'
    obtain ⟨f', after', hsame, hafter', htail'⟩ :=
      step.tail_reads hf' hf.2 (valueRun_comma hrun us') hus'
    rw [htail _ _ _ hc] at hts
    obtain ⟨others, c₁, hothers, hts⟩ := run_bind_inv hts
    cases hts
    obtain ⟨left, as, left', rfl, hsames, hleft, hread⟩ := ih hgood rfl hothers
    refine ⟨after ++ [.punct "," span] ++ left, f' :: as, after' ++ [.punct "," span] ++ left',
      pass_pass _ _ _ _ _, .cons hsame hsames, ?_, fun limit index d hlen hd => ?_⟩
    · simp only [bareOf_append, hafter, hafter', hleft]
    · rw [List.length_append, List.length_cons] at hlen
      obtain ⟨m, rfl⟩ : ∃ m, limit = m + 1 := ⟨limit - 1, by omega⟩
      rw [htail' _ _ _ hd, run_bind (hread m _ _ (by omega) rfl), pass_pass]
      rfl

/-- All entries of a level stand in it with commas between them, and are left there so. -/
theorem entries_joined {rel : α → List Tree → List Tree → Prop}
    (hentry : ∀ {index c f c'}, entry index c = .ok f c' →
      ∃ ts left, c.ahead = ts ++ c'.ahead ∧ c'.passed = left.reverse ++ c.passed ∧ rel f ts left)
    (h : entries entry limit index c = .ok as c') (hlimit : c.ahead.length ≤ limit) :
    c'.ahead = [] ∧ ∃ left, c'.passed = left.reverse ++ c.passed ∧ JoinedBoth rel as c.ahead left := by
  induction limit generalizing index c as with
  | zero =>
    have hnil : c.ahead = [] := List.eq_nil_of_length_eq_zero (by omega)
    cases h
    exact ⟨hnil, [], rfl, by rw [hnil]; exact .nil⟩
  | succ n ih =>
    by_cases hnil : c.ahead = []
    · rw [entries_none _ _ c hnil] at h
      cases h
      exact ⟨rfl, [], rfl, by rw [hnil]; exact .nil⟩
    rw [entries_ahead hnil] at h
    obtain ⟨f, c₁, hfirst, h⟩ := run_bind_inv h
    obtain ⟨more, c₂, hmore, h⟩ := run_bind_inv h
    obtain ⟨ts, left, hts, hleft, hf⟩ := hentry hfirst
    have hanother := another_leaves c₁
    rw [hmore] at hanother
    obtain ⟨-, comma, hpassed, -, ⟨hnil, rfl, rfl, hc₂⟩ | ⟨span, hcomma, rfl, rfl⟩⟩ := hanother
    · cases h
      rw [hts, hnil, List.append_nil]
      exact ⟨hc₂, left, by rw [hpassed, hleft]; rfl, .last hf⟩
    · rw [hts, hcomma] at hlimit ⊢
      cases hc₂ : c₂.ahead with
      | nil =>
        simp only [hc₂] at h
        cases h
        exact ⟨hc₂, left ++ [.punct "," span], by simp [hpassed, hleft], .trailing hf⟩
      | cons t us =>
        simp only [hc₂] at h
        obtain ⟨others, c₃, hothers, h⟩ := run_bind_inv h
        cases h
        rw [List.length_append, List.length_cons] at hlimit
        obtain ⟨hend, left', hleft', hjoined⟩ := ih hothers (by omega)
        refine ⟨hend, left ++ .punct "," span :: left', by simp [hleft', hpassed, hleft], ?_⟩
        exact (hc₂ ▸ hjoined).prepend hf

/-- The entries that were read are a way to write themselves, and they are left apart. Any other way to
write them is read like it exactly if it closes what is open. -/
theorem Reglues.allEntries_reglued (step : Reglues entry good gluedAs same type value apart)
    {region : Span} (h : allEntries entry { ahead := ts, region := region } = .ok fs c') :
    JoinedBoth (fun f ts us => good f ∧ gluedAs LeavesOpen f ts ∧ gluedAs Nowhere f us) fs ts c'.stream ∧
      ∀ us region', JoinedBoth (WrittenAnew gluedAs Anywhere) fs ts us →
        ((∃ as d, allEntries entry { ahead := us, region := region' } = .ok as d ∧
            List.Forall₂ same fs as ∧ bareOf d.stream = bareOf c'.stream) ↔
          JoinedBoth (WrittenAnew gluedAs LeavesOpen) fs ts us) := by
  obtain ⟨hend, left, hleft, hjoined⟩ := entries_joined step.writes h (Nat.le_refl _)
  have hstream : c'.stream = left := by simp [Cursor.stream, hleft, hend]
  have hgood : ∀ f ∈ fs, good f := hjoined.forall_mem fun _ _ _ hf => hf.1
  refine ⟨hstream ▸ hjoined, fun us region' hboth => ⟨?_, fun hclosed => ?_⟩⟩
  · rintro ⟨as, d, hus, hsame, -⟩
    exact step.entries_close hboth hgood rfl hus hsame
  · obtain ⟨left, as, left', rfl, hsame, hleft, hread⟩ := step.entries_read hclosed hgood rfl h
    refine ⟨as, _, hread _ _ _ (Nat.le_refl _) rfl, hsame, ?_⟩
    simpa [Cursor.stream, Cursor.pass] using hleft

end Entries

/-! ## Fields -/

/-- A reader that makes fields of all entries is told by its entries. -/
theorem over_allEntries {α : Type} {entry : Nat → Reader α} {mk : List α → Fields} {ts ts' : List Tree}
    {region : Span} {fields : Fields} :
    (do return mk (← allEntries entry) : Reader Fields).over ts region = ⟨.ok fields, ts'⟩ ↔
      ∃ fs c, allEntries entry { ahead := ts, region := region } = .ok fs c ∧ mk fs = fields ∧
        c.stream = ts' := by
  unfold Reader.over
  cases hall : allEntries entry { ahead := ts, region := region } <;>
    simp [Bind.bind, EStateM.bind, Pure.pure, EStateM.pure, hall]

theorem Reglues.over_reglued {α : Type} {entry : Nat → Reader α} {good : α → Prop}
    {gluedAs : (List Tree → Nat → Prop) → α → List Tree → Prop} {same : α → α → Prop}
    {type value apart : α → List Tree} {mk : List α → Fields}
    (step : Reglues entry good gluedAs same type value apart)
    (hre : ∀ closes fs ts us, (mk fs).Reglued closes ts us =
      JoinedBoth (WrittenAnew gluedAs closes) fs ts us)
    (hsame : ∀ fs as, (mk fs).SameAs (mk as) ↔ List.Forall₂ same fs as)
    (htypes : ∀ fs, (mk fs).types = fs.map type) {ts ts' : List Tree} {region : Span} {fields : Fields}
    (h : (do return mk (← allEntries entry) : Reader Fields).over ts region = ⟨.ok fields, ts'⟩) :
    (fields.Reglued LeavesOpen ts ts ∧ fields.Reglued Nowhere ts ts') ∧
      ∀ us region', fields.Reglued Anywhere ts us →
      ((∃ fields' us', (do return mk (← allEntries entry) : Reader Fields).over us region' =
          ⟨.ok fields', us'⟩ ∧ fields.SameAs fields' ∧ bareOf us' = bareOf ts') ↔
        fields.Reglued LeavesOpen ts us) ∧
        ((∀ type ∈ fields.types, Lexed type) → fields.Reglued LeavesOpen ts us) := by
  obtain ⟨fs, c, hfs, rfl, rfl⟩ := over_allEntries.1 h
  obtain ⟨hself, hother⟩ := step.allEntries_reglued hfs
  simp only [hre, htypes, over_allEntries, List.forall_mem_map]
  refine ⟨⟨hself.fst fun f ts _ hf => ⟨step.weaken hf.2.1, hf.2.1⟩,
    hself.imp_mem fun f _ ts us hf => ⟨step.weaken hf.2.1, hf.2.2⟩⟩,
    fun us region' hus => ⟨?_, fun hlex => ?_⟩⟩
  · rw [← hother us region' hus]
    constructor
    · rintro ⟨fields', us', ⟨as, d, has, rfl, rfl⟩, hsames, hbare⟩
      exact ⟨as, d, has, (hsame fs as).1 hsames, hbare⟩
    · rintro ⟨as, d, has, hsames, hbare⟩
      exact ⟨mk as, d.stream, ⟨as, d, has, rfl, rfl⟩, (hsame fs as).2 hsames, hbare⟩
  · have hgood := hself.forall_mem fun _ _ _ hf => hf.1
    exact hus.imp_mem fun f hf ts us h => ⟨h.1, step.lexed (hgood f hf) (hlex f hf) h.2⟩

/-- Glued closing brackets do not matter as long as they close what is open. An accepted group of fields
is one way to write its fields, and it is left with no glued token. Another one is accepted with the
same fields, and left with the same tokens, exactly if each of its glued tokens closes as many brackets as
the type in front of it leaves open. The types of a text do so wherever they are glued. -/
theorem fields_reglued {reader : Reader Fields}
    (hreader : reader = namedFields ∨ reader = unnamedFields) {ts ts' : List Tree} {region : Span}
    {fields : Fields}
    (h : reader.over ts region = ⟨.ok fields, ts'⟩) :
    (fields.Reglued LeavesOpen ts ts ∧ fields.Reglued Nowhere ts ts') ∧
      ∀ us region', fields.Reglued Anywhere ts us →
      ((∃ fields' us', reader.over us region' = ⟨.ok fields', us'⟩ ∧ fields.SameAs fields' ∧
          bareOf us' = bareOf ts') ↔ fields.Reglued LeavesOpen ts us) ∧
        ((∀ type ∈ fields.types, Lexed type) → fields.Reglued LeavesOpen ts us) := by
  rcases hreader with rfl | rfl
  · exact namedEntry_reglues.over_reglued (fun _ _ _ _ => rfl) (fun _ _ => .rfl) (fun _ => rfl) h
  · exact unnamedEntry_reglues.over_reglued (fun _ _ _ _ => rfl) (fun _ _ => .rfl) (fun _ => rfl) h

theorem fields_reglued_both_ways :
    let nested : List Tree := [.word "Vec", .mark "<", .word "Vec", .mark "<", .word "u8"]
    let pair : List Tree := [.word "M", .mark "<", .word "K", .mark ",", .word "V"]
    let f : NamedField :=
      ⟨[], ⟨"a", .unknown⟩, nested ++ [.mark ">", .mark ">"], [.word "x"], .unknown⟩
    let g : NamedField := ⟨[], ⟨"b", .unknown⟩, pair ++ [.mark ">"], [.word "y"], .unknown⟩
    let both : List Tree → List Tree → List Tree := fun a b =>
      .word "a" :: .mark ":" :: (nested ++ a) ++ .mark "," :: .word "b" :: .mark ":" :: (pair ++ b)
    let ts := both [.mark ">", .mark ">", .mark "=", .word "x"] [.mark ">=", .word "y"]
    let us := both [.mark ">>=", .word "x"] [.mark ">", .mark "=", .word "y"]
    let after := both [.mark ">", .mark ">", .mark "=", .word "x"] [.mark ">", .mark "=", .word "y"]
    namedFields.over ts .unknown = ⟨.ok (.named [f, g]), after⟩ ∧
      ∃ fields us', namedFields.over us .unknown = ⟨.ok fields, us'⟩ ∧
        (Fields.named [f, g]).SameAs fields ∧ bareOf us' = bareOf after := by
  intro nested pair f g both ts us after
  have hts : namedFields.over ts .unknown = ⟨.ok (.named [f, g]), after⟩ := by
    set_option maxRecDepth 2000 in cbv
  have hre : (Fields.named [f, g]).Reglued Anywhere ts us := by
    refine .cons ⟨⟨.unknown, _, rfl, .apart⟩, .unknown, _, rfl, ?_⟩
      (.last ⟨⟨.unknown, _, rfl, ?_⟩, .unknown, _, rfl, .apart⟩)
    · exact @GluedValue.glued _ _ _ nested [.mark ">", .mark ">"] ">>=" .unknown rfl (by decide) rfl
        trivial
    · exact @GluedValue.glued _ _ _ pair [.mark ">"] ">=" .unknown rfl (by decide) rfl trivial
  have hlex : ∀ type ∈ (Fields.named [f, g]).types, Lexed type := by
    have hnested : Lexed (nested ++ [.mark ">", .mark ">"]) :=
      .of_text "Vec<Vec<u8>>".toList (by set_option maxRecDepth 2000 in cbv)
    have hpair : Lexed (pair ++ [.mark ">"]) :=
      .of_text "M<K, V>".toList (by set_option maxRecDepth 2000 in cbv)
    simpa [Fields.types, f, g] using ⟨hnested, hpair⟩
  obtain ⟨hiff, hlexed⟩ := (fields_reglued (.inl rfl) hts).2 us .unknown hre
  exact ⟨hts, hiff.2 (hlexed hlex)⟩

/-- A bracket that comes out of an invisible group is not counted: here a `>=` is not taken apart. -/
theorem fields_reglued_hidden_bracket :
    let hidden : Tree := .group .invisible [.word "Vec", .mark "<"] .unknown
    let f : UnnamedField := ⟨[], [hidden, .word "u8", .mark ">"], [.word "x"], .unknown⟩
    let ts : List Tree := [hidden, .word "u8", .mark ">", .mark "=", .word "x"]
    let us : List Tree := [hidden, .word "u8", .mark ">=", .word "x"]
    let fault : GrammarFault := .expectedValue (.position 0) "end of input"
    unnamedFields.over ts .unknown = ⟨.ok (.unnamed [f]), ts⟩ ∧
      (Fields.unnamed [f]).Reglued Anywhere ts us ∧
      unnamedFields.over us .unknown = ⟨.error ⟨fault, .unknown⟩, us⟩ := by
  intro hidden f ts us fault
  have hts : unnamedFields.over ts .unknown = ⟨.ok (.unnamed [f]), ts⟩ := by
    set_option maxRecDepth 2000 in cbv
  have hre : (Fields.unnamed [f]).Reglued Anywhere ts us := by
    refine .last ⟨⟨_, rfl, .apart⟩, _, rfl, ?_⟩
    exact @GluedValue.glued _ _ _ [hidden, .word "u8"] [.mark ">"] ">=" .unknown rfl
      (by simp [Tree.isPunct, Tree.mark]) rfl trivial
  have hus : unnamedFields.over us .unknown = ⟨.error ⟨fault, .unknown⟩, us⟩ := by
    set_option maxRecDepth 2000 in cbv
  exact ⟨hts, hre, hus⟩

end Reader

end InlineVariants
