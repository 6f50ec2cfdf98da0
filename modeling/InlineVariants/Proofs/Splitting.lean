import InlineVariants.Variant.Parser
import Mathlib.Data.List.Infix

/-!
# What reading a marker does to its trees

Reading the contents of a marker moves a cursor over them and changes them in one way only: a glued
`>=` or `>>=` is split into its characters (`Splits`). Every reader is described by what it leaves
behind the cursor and what it leaves ahead (`Reader.Meets`), and descriptions compose like readers.

Main statement: whatever the outcome, the trees differ from what they were in split tokens only, and
the names and values of an accepted definition are the marker's own trees (`Variant.parse_spec`).
-/

namespace InlineVariants

theorem Tree.eq_punct {t : Tree} {op : String} (h : t.isPunct op = true) :
    ∃ span, t = .punct op span := by
  cases t with
  | punct o span => exact ⟨span, by rw [eq_of_beq h]⟩
  | _ => simp [Tree.isPunct] at h

/-! ## Split tokens -/

/-- The second list is the first one with some glued tokens split, at any depth. -/
inductive Splits : List Tree → List Tree → Prop
  | nil : Splits [] []
  | keep {t : Tree} {ts us : List Tree} : Splits ts us → Splits (t :: ts) (t :: us)
  | pieces {op : String} {span : Span} {n : Nat} {ts us : List Tree} :
      gluedAngles? op = some n → Splits ts us →
      Splits (.punct op span :: ts) (anglePieces span n ++ equalsPiece span n :: us)
  | inside {d : Delimiter} {span : Span} {xs ys ts us : List Tree} :
      Splits xs ys → Splits ts us → Splits (.group d xs span :: ts) (.group d ys span :: us)

/-- The tokens that are split, with the number of brackets they close. -/
theorem gluedAngles?_cases {op : String} {n : Nat} (h : gluedAngles? op = some n) :
    (op = ">=" ∧ n = 1) ∨ (op = ">>=" ∧ n = 2) := by
  unfold gluedAngles? at h
  split at h
  · exact .inl ⟨‹_›, by simpa using h.symm⟩
  · split at h
    · exact .inr ⟨‹_›, by simpa using h.symm⟩
    · simp at h

namespace Splits

theorem refl : ∀ ts : List Tree, Splits ts ts
  | [] => .nil
  | _ :: ts => .keep (refl ts)

theorem append {ts us xs ys : List Tree} (h : Splits ts us) (h' : Splits xs ys) :
    Splits (ts ++ xs) (us ++ ys) := by
  induction h with
  | nil => exact h'
  | keep _ ih => exact .keep ih
  | pieces hop _ ih => simpa using Splits.pieces hop ih
  | inside hin _ _ ih => exact .inside hin ih

/-- A punctuation that is not glued stays. -/
theorem punct_inv {op : String} {span : Span} {ts us : List Tree}
    (h : Splits (.punct op span :: ts) us) (hop : gluedAngles? op = none) :
    ∃ us', us = .punct op span :: us' ∧ Splits ts us' := by
  cases h with
  | keep h => exact ⟨_, rfl, h⟩
  | pieces hop' _ => rw [hop] at hop'; cases hop'

theorem pieces_inv {span : Span} {n : Nat} {ts us : List Tree}
    (h : Splits (anglePieces span n ++ equalsPiece span n :: ts) us) :
    ∃ us', us = anglePieces span n ++ equalsPiece span n :: us' ∧ Splits ts us' := by
  unfold anglePieces at *
  generalize List.range n = is at *
  induction is generalizing us with
  | nil => exact h.punct_inv (by decide)
  | cons i is ih =>
    obtain ⟨us', rfl, htail⟩ := h.punct_inv (by decide)
    obtain ⟨us'', rfl, hrest⟩ := ih htail
    exact ⟨us'', rfl, hrest⟩

theorem trans {ts us vs : List Tree} (h : Splits ts us) (h' : Splits us vs) : Splits ts vs := by
  induction h generalizing vs with
  | nil => exact h'
  | keep _ ih =>
    cases h' with
    | keep h' => exact .keep (ih h')
    | pieces hop h' => exact .pieces hop (ih h')
    | inside hin h' => exact .inside hin (ih h')
  | pieces hop _ ih =>
    obtain ⟨us', rfl, htail⟩ := h'.pieces_inv
    exact .pieces hop (ih htail)
  | inside hin _ ihin ih =>
    cases h' with
    | keep h' => exact .inside hin (ih h')
    | inside hin' h' => exact .inside (ihin hin') (ih h')

end Splits

/-! ## Segments -/

/-- Stretches of a list, one behind the other, with anything between them. -/
inductive Segments : List (List Tree) → List Tree → Prop
  | nil {ts : List Tree} : Segments [] ts
  | cons {before seg after : List Tree} {more : List (List Tree)} :
      Segments more after → Segments (seg :: more) (before ++ (seg ++ after))

namespace Segments

variable {segs more : List (List Tree)} {seg ts us : List Tree}

theorem head (h : Segments more ts) : Segments (seg :: more) (seg ++ ts) := by
  rw [← List.nil_append (seg ++ ts)]
  exact .cons h

theorem mono (h : Segments segs ts) (hs : ts <:+ us) : Segments segs us := by
  obtain ⟨first, rfl⟩ := hs
  cases h with
  | nil => exact .nil
  | @cons before seg after more h =>
    rw [← List.append_assoc]
    exact .cons h

theorem append_inv (h : Segments (segs ++ more) ts) :
    ∃ us vs, ts = us ++ vs ∧ Segments segs us ∧ Segments more vs := by
  induction segs generalizing ts with
  | nil => exact ⟨[], ts, rfl, .nil, h⟩
  | cons seg segs ih =>
    cases h with
    | @cons before _ after _ h =>
      obtain ⟨us, vs, rfl, hus, hvs⟩ := ih h
      exact ⟨before ++ (seg ++ us), vs, by simp, .cons hus, hvs⟩

theorem isInfix (h : Segments segs ts) (hseg : seg ∈ segs) : seg <:+: ts := by
  induction h with
  | nil => simp at hseg
  | @cons before first after more _ ih =>
    rcases List.mem_cons.1 hseg with rfl | hseg
    · exact ⟨before, after, by simp⟩
    · exact (ih hseg).trans (((List.suffix_append _ _).trans (List.suffix_append _ _)).isInfix)

end Segments

/-! ## Runs -/

/-- The trees of a type are followed by those that were behind it; the first of these may be the `=`
of a token that was split. -/
theorem typeRun_spec (depth : Nat) (ts : List Tree) :
    Splits ts ((typeRun depth ts).1 ++ (typeRun depth ts).2) ∧
      (typeRun depth ts).2.tail <:+ ts := by
  fun_induction typeRun depth ts with
  | case1 => exact ⟨.nil, List.suffix_refl _⟩
  | case2 depth op span rest h => exact ⟨.refl _, List.suffix_cons _ _⟩
  | case3 depth op span rest _ h => exact ⟨.pieces h (.refl _), List.suffix_cons _ _⟩
  | case4 depth op span rest _ _ run ih =>
    exact ⟨.keep ih.1, ih.2.trans (List.suffix_cons _ _)⟩
  | case5 depth t rest _ run ih => exact ⟨.keep ih.1, ih.2.trans (List.suffix_cons _ _)⟩

theorem valueRun_append (st : ValueState) (ts : List Tree) :
    (valueRun st ts).1 ++ (valueRun st ts).2 = ts := by
  fun_induction valueRun st ts with
  | case1 => rfl
  | case2 => rfl
  | case3 st t rest _ run ih => rw [List.cons_append, ih]

/-! ## Readers -/

namespace Reader

/-- What may come out of reading at a cursor: on success there are trees left behind the cursor and
others ahead, and all of them together are those that were ahead, with tokens split; `post` tells
about the trees ahead before, the value, the trees left behind and the trees ahead after. On failure
the level has only had tokens split. -/
def Follows (c : Cursor) (post : List Tree → α → List Tree → List Tree → Prop) :
    EStateM.Result GrammarError Cursor α → Prop
  | .ok a c' => c'.region = c.region ∧ ∃ left, c'.passed = left.reverse ++ c.passed ∧
      Splits c.ahead (left ++ c'.ahead) ∧ post c.ahead a left c'.ahead
  | .error _ c' => c'.region = c.region ∧ Splits c.stream c'.stream

/-- What a reader does, at every cursor. -/
def Meets (reader : Reader α) (post : List Tree → α → List Tree → List Tree → Prop) : Prop :=
  ∀ c, Follows c post (reader c)

variable {α β : Type} {reader : Reader α} {p p' : List Tree → α → List Tree → List Tree → Prop}

theorem splits_stream {c c' : Cursor} {left : List Tree} (hp : c'.passed = left.reverse ++ c.passed)
    (hs : Splits c.ahead (left ++ c'.ahead)) : Splits c.stream c'.stream := by
  simp only [Cursor.stream, hp, List.reverse_append, List.reverse_reverse, List.append_assoc]
  exact (Splits.refl _).append hs

theorem Follows.conseq {c : Cursor} {x : EStateM.Result GrammarError Cursor α} (h : Follows c p x)
    (hp : ∀ a left ahead', p c.ahead a left ahead' → p' c.ahead a left ahead') :
    Follows c p' x := by
  cases x with
  | ok a c' =>
    obtain ⟨hr, left, h1, h2, h3⟩ := h
    exact ⟨hr, left, h1, h2, hp _ _ _ h3⟩
  | error e c' => exact h

namespace Meets

theorem pure (a : α) :
    Meets (Pure.pure a) fun ahead b left ahead' => b = a ∧ left = [] ∧ ahead' = ahead :=
  fun _ => ⟨rfl, [], rfl, .refl _, rfl, rfl, rfl⟩

theorem refuse (fault : Cursor → GrammarFault) (anchor : Cursor → Span) :
    Meets (Reader.refuse fault anchor : Reader α) p :=
  fun _ => ⟨rfl, .refl _⟩

theorem conseq (h : Meets reader p) (hp : ∀ ahead a left ahead', p ahead a left ahead' →
    p' ahead a left ahead') : Meets reader p' :=
  fun c => (h c).conseq (hp c.ahead)

/-- Readers one after the other: what they leave behind adds up. -/
theorem bind {f : α → Reader β} {q : α → List Tree → β → List Tree → List Tree → Prop}
    {r : List Tree → β → List Tree → List Tree → Prop}
    (h : Meets reader p) (hf : ∀ a, Meets (f a) (q a))
    (hr : ∀ {ahead a left₁ mid b left₂ ahead'}, p ahead a left₁ mid → q a mid b left₂ ahead' →
      r ahead b (left₁ ++ left₂) ahead') : Meets (reader >>= f) r := by
  intro c
  have h1 := h c
  simp only [Bind.bind, EStateM.bind]
  cases he : reader c with
  | error e c₁ => rw [he] at h1; exact h1
  | ok a c₁ =>
    rw [he] at h1
    obtain ⟨hreg₁, left₁, hp₁, hs₁, hpost₁⟩ := h1
    have h2 := hf a c₁
    dsimp only
    cases he₂ : f a c₁ with
    | error e c₂ =>
      rw [he₂] at h2
      exact ⟨h2.1.trans hreg₁, (splits_stream hp₁ hs₁).trans h2.2⟩
    | ok b c₂ =>
      rw [he₂] at h2
      obtain ⟨hreg₂, left₂, hp₂, hs₂, hpost₂⟩ := h2
      refine ⟨hreg₂.trans hreg₁, left₁ ++ left₂, by simp [hp₁, hp₂], ?_, hr hpost₁ hpost₂⟩
      rw [List.append_assoc]
      exact hs₁.trans ((Splits.refl _).append hs₂)

theorem ite {b : Prop} [Decidable b] {x y : Reader α} (hx : b → Meets x p) (hy : ¬ b → Meets y p) :
    Meets (if b then x else y) p := by
  split
  · exact hx ‹_›
  · exact hy ‹_›

/-- A look at the cursor. -/
theorem look {f : Cursor → Reader α}
    (h : ∀ c, Meets (f c) fun ahead a left ahead' => c.ahead = ahead → p ahead a left ahead') :
    Meets (get >>= f) p := by
  intro c
  exact (h c c).conseq fun _ _ _ hp => hp rfl

/-- A check that refuses to go on. -/
theorem guard {b : Prop} [Decidable b] {k : γ → Reader α} {fault : Cursor → GrammarFault}
    {anchor : Cursor → Span} (h : Meets reader p) :
    Meets (if b then Reader.refuse fault anchor >>= k else reader)
      fun ahead a left ahead' => ¬ b ∧ p ahead a left ahead' := by
  split
  · exact fun _ => ⟨rfl, .refl _⟩
  · exact h.conseq fun _ _ _ _ hp => ⟨‹_›, hp⟩

end Meets

/-! ## The readers of a variant -/

theorem eat?_meets (op : String) : Meets (eat? op) fun ahead found left ahead' =>
    (found = none ∧ left = [] ∧ ahead' = ahead) ∨
      ∃ span, found = some span ∧ left = [.punct op span] ∧ ahead = .punct op span :: ahead' := by
  rintro ⟨passed, ahead, region⟩
  unfold eat?
  cases ahead with
  | nil => exact ⟨rfl, [], rfl, .nil, .inl ⟨rfl, rfl, rfl⟩⟩
  | cons t rest =>
    dsimp only
    by_cases h : t.isPunct op = true
    · obtain ⟨span, rfl⟩ := Tree.eq_punct h
      rw [if_pos h]
      exact ⟨rfl, [.punct op span], rfl, .refl _, .inr ⟨span, rfl, rfl, rfl⟩⟩
    · rw [if_neg h]
      exact ⟨rfl, [], rfl, .refl _, .inl ⟨rfl, rfl, rfl⟩⟩

theorem expect_meets (op context : String) : Meets (expect op context) fun ahead span left ahead' =>
    left = [.punct op span] ∧ ahead = .punct op span :: ahead' := by
  refine (eat?_meets op).bind (q := fun found ahead span left ahead' =>
    found = some span ∧ left = [] ∧ ahead' = ahead) ?_ ?_
  · rintro (_ | span)
    · exact .refuse _ _
    · exact (Meets.pure span).conseq fun _ _ _ _ h => ⟨by rw [h.1], h.2⟩
  · rintro _ found _ _ span _ _ (⟨rfl, -⟩ | ⟨span', rfl, rfl, rfl⟩) ⟨h, rfl, rfl⟩
    · cases h
    · cases h; exact ⟨rfl, rfl⟩

theorem name_meets (what : String) : Meets (name what) fun ahead n left ahead' =>
    left = [n.tree] ∧ ahead = n.tree :: ahead' ∧ isKeyword n.text = false := by
  rintro ⟨passed, ahead, region⟩
  match ahead with
  | .ident text span :: rest =>
    by_cases h : isKeyword text = true
    · simp only [name, h, if_true]
      exact ⟨rfl, .refl _⟩
    · simp only [name, h]
      exact ⟨rfl, [.ident text span], rfl, .refl _, rfl, rfl, by simpa using h⟩
  | [] | .punct _ _ :: _ | .literal _ _ _ :: _ | .group _ _ _ :: _ => exact ⟨rfl, .refl _⟩

theorem valueTrees_meets : Meets valueTrees fun ahead value left ahead' =>
    left = value ∧ ahead = value ++ ahead' := by
  intro c
  have h := valueRun_append {} c.ahead
  exact ⟨rfl, _, rfl, by simpa [h, Cursor.pass] using .refl _, rfl, h.symm⟩

theorem typeTrees_meets : Meets typeTrees fun ahead type left ahead' =>
    left = type ∧ ahead'.tail <:+ ahead := by
  intro c
  obtain ⟨hs, ht⟩ := typeRun_spec 0 c.ahead
  exact ⟨rfl, _, rfl, hs, rfl, ht⟩

theorem attributesFrom_meets (region : Span) (passed ahead : List Tree) :
    match attributesFrom region passed ahead with
    | .ok attributes c => c.region = region ∧
        c.passed = (attributes.flatMap Attribute.trees).reverse ++ passed ∧
        ahead = attributes.flatMap Attribute.trees ++ c.ahead
    | .error _ c => c.region = region ∧ c.stream = passed.reverse ++ ahead := by
  fun_induction attributesFrom region passed ahead with
  | case1 passed pound inner brackets ahead attributes c h ih =>
    rw [h] at ih
    obtain ⟨hr, hp, ha⟩ := ih
    refine ⟨hr, ?_, ?_⟩
    · simp [hp, Attribute.trees]
    · simp [Attribute.trees, ← ha]
  | case2 passed pound inner brackets ahead e c h ih =>
    rw [h] at ih
    exact ⟨ih.1, by simp [ih.2]⟩
  | case3 passed pound ahead _ => exact ⟨rfl, by simp [Cursor.stream]⟩
  | case4 passed ahead _ _ => exact ⟨rfl, rfl, rfl⟩

theorem attributes_meets : Meets attributes fun ahead as left ahead' =>
    left = as.flatMap Attribute.trees ∧ ahead = left ++ ahead' := by
  intro c
  have h := attributesFrom_meets c.region c.passed c.ahead
  unfold attributes
  cases he : attributesFrom c.region c.passed c.ahead with
  | ok as c' =>
    rw [he] at h
    obtain ⟨hr, hp, ha⟩ := h
    exact ⟨hr, _, hp, ha ▸ .refl _, rfl, ha⟩
  | error e c' =>
    rw [he] at h
    exact ⟨h.1, h.2 ▸ .refl _⟩

theorem anchoredFrom_meets {reader : Reader α}
    {p : List Tree → α → List Tree → List Tree → Prop} (start : Nat) (h : Meets reader p) :
    Meets (anchoredFrom start reader) p := by
  intro c
  have hc := h c
  unfold anchoredFrom
  cases he : reader c with
  | ok a c' => rw [he] at hc; exact hc
  | error e c' => rw [he] at hc; exact hc

theorem typeAndValue_meets (start : Nat) (label : FieldLabel) :
    Meets (typeAndValue start label) fun ahead r left ahead' =>
      (∃ span, left = r.1 ++ .punct "=" span :: r.2) ∧ r.1 ≠ [] ∧
        (∃ e, TypeExpr.ofTrees r.1 = .ok e) ∧ r.2 ≠ [] ∧ r.2 ++ ahead' <:+ ahead := by
  have hvalue (type : List Tree) : Meets (do
      let value ← valueTrees
      if value.isEmpty then
        refuse (fun _ => .expectedExpression label) fun c => c.spanToSeparator start
      return (type, value)) fun ahead r left ahead' =>
        r.1 = type ∧ left = r.2 ∧ ahead = r.2 ++ ahead' ∧ r.2 ≠ [] := by
    refine valueTrees_meets.bind (fun value => (Meets.pure (type, value)).guard) ?_
    rintro ahead value _ mid _ _ _ ⟨rfl, rfl⟩ ⟨h, rfl, rfl, rfl⟩
    exact ⟨rfl, by simp, rfl, by simpa using h⟩
  refine typeTrees_meets.bind (q := fun type ahead r left ahead' => ¬ type.isEmpty = true ∧
    r.1 = type ∧ (∃ e, TypeExpr.ofTrees type = .ok e) ∧ r.2 ≠ [] ∧
      ∃ span, left = .punct "=" span :: r.2 ∧ ahead = .punct "=" span :: (r.2 ++ ahead'))
    (fun type => .guard ?_) ?_
  · refine (eat?_meets "=").bind (q := fun found ahead r left ahead' =>
      ¬ found.isNone = true ∧ (∃ e, TypeExpr.ofTrees type = .ok e) ∧
        r.1 = type ∧ left = r.2 ∧ ahead = r.2 ++ ahead' ∧ r.2 ≠ []) (fun found => .guard ?_) ?_
    · cases TypeExpr.ofTrees type with
      | error e => exact fun _ => ⟨rfl, .refl _⟩
      | ok e => exact (hvalue type).conseq fun _ _ _ _ h => ⟨⟨e, rfl⟩, h⟩
    · rintro _ found _ _ r _ _ (⟨rfl, -⟩ | ⟨span, rfl, rfl, rfl⟩) ⟨h, he, h1, rfl, rfl, h2⟩
      · simp at h
      · exact ⟨h1, he, h2, span, rfl, rfl⟩
  · rintro ahead type _ mid r _ ahead' ⟨rfl, ht⟩ ⟨hne, rfl, he, hv, span, rfl, rfl⟩
    exact ⟨⟨span, rfl⟩, by simpa using hne, he, hv, ht⟩

/-- The value of an entry is taken as it is. -/
theorem entry_meets (start : Nat) (label : FieldLabel) (mk : List Tree → List Tree → Cursor → α) :
    Meets (do
      let (type, value) ← typeAndValue start label
      return mk type value (← get)) fun ahead a _ ahead' =>
        ∃ type value c, a = mk type value c ∧ value ≠ [] ∧ value ++ ahead' <:+ ahead := by
  refine (typeAndValue_meets _ _).bind (q := fun r ahead a _ ahead' =>
    ∃ c, a = mk r.1 r.2 c ∧ ahead' = ahead) (fun r => .look fun c => ?_) ?_
  · exact (Meets.pure _).conseq fun _ _ _ _ ⟨ha, _, he⟩ _ => ⟨c, ha, he⟩
  · rintro _ r _ _ a _ _ ⟨-, -, -, hv, hs⟩ ⟨c, ha, rfl⟩
    exact ⟨r.1, r.2, c, ha, hv, hs⟩

/-- The name and the value of a named entry stand in this order in its level. -/
theorem namedEntry_meets : Meets namedEntry fun ahead f _ ahead' => f.value ≠ [] ∧
    ∀ more, Segments more ahead' → Segments ([f.name.tree] :: f.value :: more) ahead := by
  have hname (start : Nat) : Meets (anchoredFrom start do
      let name ← name "field name"
      let _ ← expect ":" ("after field name `" ++ name.text ++ "`")
      return name) fun ahead name _ ahead' => ∃ span, ahead = name.tree :: .punct ":" span :: ahead' := by
    refine anchoredFrom_meets _ ((name_meets _).bind (q := fun name ahead name' _ ahead' =>
      name' = name ∧ ∃ span, ahead = .punct ":" span :: ahead') (fun name => ?_) ?_)
    · refine (expect_meets _ _).bind (fun _ => Meets.pure name) ?_
      rintro _ span _ _ _ _ _ ⟨-, rfl⟩ ⟨rfl, -, rfl⟩
      exact ⟨rfl, span, rfl⟩
    · rintro _ name _ _ _ _ _ ⟨-, rfl, -⟩ ⟨rfl, span, rfl⟩
      exact ⟨span, rfl⟩
  refine .look fun c => attributes_meets.bind (q := fun _ ahead f _ ahead' => f.value ≠ [] ∧
    ∀ more, Segments more ahead' → Segments ([f.name.tree] :: f.value :: more) ahead) (fun as =>
      (hname c.pos).bind (fun name => entry_meets c.pos _ fun type value c' =>
        NamedField.mk as name type value (c'.spanSince c.pos)) ?_) ?_
  · rintro ahead name _ _ f _ ahead' ⟨span, rfl⟩ ⟨type, value, c', rfl, hv, hs⟩
    refine ⟨hv, fun more hmore => ?_⟩
    rw [← List.singleton_append]
    exact .head ((Segments.head hmore).mono (hs.trans (List.suffix_cons _ _)))
  · rintro ahead as _ mid f _ ahead' ⟨rfl, rfl⟩ ⟨hv, hs⟩ -
    exact ⟨hv, fun more hmore => (hs more hmore).mono (List.suffix_append _ _)⟩

/-- The value of an unnamed entry stands in its level. -/
theorem unnamedEntry_meets (index : Nat) : Meets (unnamedEntry index) fun ahead f _ ahead' =>
    f.value ≠ [] ∧ ∀ more, Segments more ahead' → Segments (f.value :: more) ahead := by
  refine .look fun c => attributes_meets.bind (fun as => entry_meets c.pos _ fun type value c' =>
    UnnamedField.mk as type value (c'.spanSince c.pos)) ?_
  rintro ahead as _ mid f _ ahead' ⟨rfl, rfl⟩ ⟨type, value, c', rfl, hv, hs⟩ -
  exact ⟨hv, fun more hmore => (Segments.head hmore).mono (hs.trans (List.suffix_append _ _))⟩

theorem another_meets : Meets another fun ahead _ _ ahead' => ahead' <:+ ahead := by
  refine .look fun c => .ite ?_ ?_
  · exact fun _ => (Meets.pure false).conseq fun _ _ _ _ ⟨_, _, h⟩ _ => h ▸ List.suffix_refl _
  · intro _
    refine (expect_meets _ _).bind (q := fun _ ahead _ _ ahead' => ahead' = ahead)
      (fun _ => .look fun c' => (Meets.pure _).conseq fun _ _ _ _ ⟨_, _, h⟩ _ => h) ?_
    rintro _ span _ _ _ _ _ ⟨-, rfl⟩ rfl -
    exact List.suffix_cons _ _

/-- When every entry leaves segments of its level behind it, all of them leave theirs, one entry
behind the other. -/
theorem entries_meets {entry : Nat → Reader α} (good : α → Prop) (segments : α → List (List Tree))
    (h : ∀ index, Meets (entry index) fun ahead a _ ahead' => good a ∧
      ∀ more, Segments more ahead' → Segments (segments a ++ more) ahead) (limit index : Nat) :
    Meets (entries entry limit index) fun ahead as _ _ =>
      (∀ a ∈ as, good a) ∧ Segments (as.flatMap segments) ahead := by
  induction limit generalizing index with
  | zero => exact (Meets.pure []).conseq fun _ _ _ _ ⟨ha, _⟩ => by simpa [ha] using .nil
  | succ limit ih =>
    refine .look fun c => .ite (fun _ => ?_) (fun _ => ?_)
    · exact (Meets.pure []).conseq fun _ _ _ _ ⟨ha, _⟩ _ => by simpa [ha] using .nil
    refine (h index).bind (q := fun first ahead as _ _ => ∃ others, as = first :: others ∧
        (∀ a ∈ others, good a) ∧ Segments (others.flatMap segments) ahead)
      (fun first => another_meets.bind (q := fun _ ahead as _ _ => ∃ others, as = first :: others ∧
        (∀ a ∈ others, good a) ∧ Segments (others.flatMap segments) ahead)
        (fun more => .ite (fun _ => ?_) fun _ => ?_) ?_) ?_
    · refine (ih (index + 1)).bind (fun as => Meets.pure (first :: as)) ?_
      rintro ahead as _ _ _ _ _ has ⟨rfl, -⟩
      exact ⟨as, rfl, has⟩
    · refine (Meets.pure [first]).conseq ?_
      rintro ahead _ _ _ ⟨rfl, -⟩
      exact ⟨[], rfl, by simp, .nil⟩
    · rintro ahead _ _ mid as _ _ hs ⟨others, rfl, hgood, hothers⟩
      exact ⟨others, rfl, hgood, hothers.mono hs⟩
    · rintro ahead first _ mid _ _ _ ⟨hfirst, hs⟩ ⟨others, rfl, hgood, hothers⟩ -
      exact ⟨by simpa [hfirst] using hgood, by simpa using hs _ hothers⟩

theorem allEntries_meets {entry : Nat → Reader α} (good : α → Prop)
    (segments : α → List (List Tree))
    (h : ∀ index, Meets (entry index) fun ahead a _ ahead' => good a ∧
      ∀ more, Segments more ahead' → Segments (segments a ++ more) ahead) :
    Meets (allEntries entry) fun ahead as _ _ =>
      (∀ a ∈ as, good a) ∧ Segments (as.flatMap segments) ahead :=
  .look fun _ => (entries_meets good segments h _ _).conseq fun _ _ _ _ h _ => h

end Reader

/-- The fields stand in front of a list: a group with their names and values, in order, and the rest
behind it. -/
def Fields.TakenFrom (rest ahead : List Tree) : Fields → Prop
  | .unit => ahead = rest
  | .named fs => ∃ inner span, ahead = .group .brace inner span :: rest ∧
      (∀ f ∈ fs, f.value ≠ []) ∧ Segments (fs.flatMap fun f => [[f.name.tree], f.value]) inner
  | .unnamed fs => ∃ inner span, ahead = .group .paren inner span :: rest ∧
      (∀ f ∈ fs, f.value ≠ []) ∧ Segments (fs.flatMap fun f => [f.value]) inner

theorem Fields.TakenFrom.rest_suffix {fields : Fields} {rest ahead : List Tree}
    (h : fields.TakenFrom rest ahead) : rest <:+ ahead := by
  cases fields with
  | unit => exact h ▸ List.suffix_refl _
  | named fs | unnamed fs =>
    obtain ⟨inner, span, rfl, -⟩ := h
    exact List.suffix_cons _ _

/-- The parts of a definition stand in the contents of its marker: behind what comes first, its name,
then its fields, then its discriminant. -/
def Variant.TakenFrom (v : Variant) (contents : List Tree) : Prop :=
  ∃ before ahead rest, contents = before ++ v.name.tree :: ahead ∧ v.fields.TakenFrom rest ahead ∧
    ∀ value, v.discriminant = some value → value ≠ [] ∧ value <:+: rest

theorem Variant.TakenFrom.mono {v : Variant} {ts us : List Tree} (h : v.TakenFrom ts)
    (hs : ts <:+ us) : v.TakenFrom us := by
  obtain ⟨before, ahead, rest, rfl, hf, hd⟩ := h
  obtain ⟨first, rfl⟩ := hs
  exact ⟨first ++ before, ahead, rest, by simp, hf, hd⟩

namespace Reader

theorem visibility_pass (c : Cursor) :
    ∃ left rest, c.ahead = left ++ rest ∧ visibility c = .ok () (c.pass left rest) := by
  unfold visibility
  split
  · rename_i h; exact ⟨[_, _], _, h, rfl⟩
  · rename_i h; exact ⟨[_], _, h, rfl⟩
  · exact ⟨[], c.ahead, rfl, rfl⟩

theorem visibility_meets : Meets visibility fun ahead _ _ ahead' => ahead' <:+ ahead := by
  intro c
  obtain ⟨left, rest, ha, he⟩ := visibility_pass c
  rw [he]
  exact ⟨rfl, left, rfl, ha ▸ .refl _, ha ▸ List.suffix_append _ _⟩

theorem namedFields_meets : Meets namedFields fun ahead fields _ _ => ∃ fs, fields = .named fs ∧
    (∀ f ∈ fs, f.value ≠ []) ∧ Segments (fs.flatMap fun f => [[f.name.tree], f.value]) ahead := by
  refine (allEntries_meets (fun f => f.value ≠ []) (fun f => [[f.name.tree], f.value])
    fun _ => namedEntry_meets).bind (fun fs => Meets.pure (Fields.named fs)) ?_
  rintro ahead fs _ _ _ _ _ h ⟨rfl, -⟩
  exact ⟨fs, rfl, h⟩

theorem unnamedFields_meets : Meets unnamedFields fun ahead fields _ _ => ∃ fs,
    fields = .unnamed fs ∧ (∀ f ∈ fs, f.value ≠ []) ∧
      Segments (fs.flatMap fun f => [f.value]) ahead := by
  refine (allEntries_meets (fun f => f.value ≠ []) (fun f => [f.value])
    unnamedEntry_meets).bind (fun fs => Meets.pure (Fields.unnamed fs)) ?_
  rintro ahead fs _ _ _ _ _ h ⟨rfl, -⟩
  exact ⟨fs, rfl, h⟩

/-- A reader that runs inside a group changes that group only. -/
theorem inside_follows {reader : Reader α} {p : List Tree → α → List Tree → List Tree → Prop}
    (h : Meets reader p) {d : Delimiter} {inner rest : List Tree} {span : Span} {c : Cursor}
    (hc : c.ahead = .group d inner span :: rest) :
    Follows c (fun _ a left ahead' => ahead' = rest ∧
      ∃ l r, left = [.group d (l ++ r) span] ∧ p inner a l r) (inside d inner span rest reader c) := by
  have hr := h { ahead := inner, region := span }
  unfold inside
  cases he : reader { ahead := inner, region := span } with
  | ok a c' =>
    rw [he] at hr
    obtain ⟨-, left, hp, hs, hpost⟩ := hr
    have hin : Splits inner c'.stream := splits_stream (c := { ahead := inner, region := span }) hp hs
    have hstream : c'.stream = left ++ c'.ahead := by simp [Cursor.stream, hp]
    exact ⟨rfl, [_], rfl, hc ▸ .inside hin (.refl _), rfl, left, c'.ahead, by rw [hstream], hpost⟩
  | error e c' =>
    rw [he] at hr
    refine ⟨rfl, ?_⟩
    simp only [Cursor.stream, Cursor.pass, hc, List.reverse_append, List.reverse_singleton,
      List.append_assoc]
    exact (Splits.refl _).append (.inside hr.2 (.refl _))

theorem fieldGroup_meets : Meets fieldGroup fun ahead fields _ ahead' =>
    fields.TakenFrom ahead' ahead := by
  intro c
  unfold fieldGroup
  split
  · rename_i inner span rest hc
    refine (inside_follows namedFields_meets hc).conseq ?_
    rintro fields _ _ ⟨rfl, _, _, -, fs, rfl, h⟩
    exact ⟨inner, span, hc, h⟩
  · rename_i inner span rest hc
    refine (inside_follows unnamedFields_meets hc).conseq ?_
    rintro fields _ _ ⟨rfl, _, _, -, fs, rfl, h⟩
    exact ⟨inner, span, hc, h⟩
  · exact ⟨rfl, [], rfl, .refl _, rfl⟩

theorem discriminant_meets (name : String) : Meets (discriminant name) fun ahead d _ ahead' =>
    ahead' <:+ ahead ∧ ∀ value, d = some value → value ≠ [] ∧ value <:+: ahead := by
  refine (eat?_meets "=").bind (q := fun _ ahead d _ ahead' =>
    ahead' <:+ ahead ∧ ∀ value, d = some value → value ≠ [] ∧ value <:+: ahead) ?_ ?_
  · rintro (_ | span)
    · refine (Meets.pure none).conseq ?_
      rintro _ _ _ _ ⟨rfl, -, rfl⟩
      exact ⟨List.suffix_refl _, nofun⟩
    · refine valueTrees_meets.bind (fun value => (Meets.pure (some value)).guard) ?_
      rintro _ value _ _ _ _ _ ⟨-, rfl⟩ ⟨hne, rfl, -, rfl⟩
      refine ⟨List.suffix_append _ _, ?_⟩
      rintro _ ⟨⟩
      exact ⟨by simpa using hne, (List.prefix_append _ _).isInfix⟩
  · rintro ahead _ _ mid d _ ahead' hmid ⟨hs, hd⟩
    have hmid : mid <:+ ahead := by
      rcases hmid with ⟨-, -, rfl⟩ | ⟨span, -, -, rfl⟩
      · exact List.suffix_refl _
      · exact List.suffix_cons _ _
    exact ⟨hs.trans hmid, fun value h => ⟨(hd value h).1, (hd value h).2.trans hmid.isInfix⟩⟩

theorem variant_meets : Meets variant fun ahead v _ ahead' => v.TakenFrom ahead ∧ ahead' = [] := by
  have hend (as : List Attribute) (name : Name) (fields : Fields) (d : Option (List Tree)) :
      Meets (do
        unless (← get).atEnd do refuse (fun c => .trailing c.found name.text) Cursor.here
        return { name, attributes := as, fields, discriminant := d,
                 span := streamSpan (← get).stream : Variant }) fun ahead v _ ahead' =>
        v.name = name ∧ v.fields = fields ∧ v.discriminant = d ∧ ahead' = [] := by
    refine .look fun c => .ite (fun hc => .look fun c' => ?_) fun _ => ?_
    · refine (Meets.pure _).conseq ?_
      rintro ahead v _ _ ⟨rfl, -, rfl⟩ - rfl
      exact ⟨rfl, rfl, rfl, by simpa [Cursor.atEnd] using hc⟩
    · exact fun _ => ⟨rfl, .refl _⟩
  have hdiscriminant (as : List Attribute) (name : Name) (fields : Fields) :=
    (discriminant_meets name.text).bind (r := fun ahead v _ ahead' => v.name = name ∧
      v.fields = fields ∧ (∀ value, v.discriminant = some value → value ≠ [] ∧ value <:+: ahead) ∧
      ahead' = []) (hend as name fields) (by
        rintro ahead d _ mid v _ _ ⟨hs, hd⟩ ⟨hn, hf, rfl, he⟩
        exact ⟨hn, hf, hd, he⟩)
  have hfields (as : List Attribute) (name : Name) :=
    fieldGroup_meets.bind (r := fun ahead v _ ahead' => v.name = name ∧ (∃ rest,
      v.fields.TakenFrom rest ahead ∧
      ∀ value, v.discriminant = some value → value ≠ [] ∧ value <:+: rest) ∧ ahead' = [])
      (hdiscriminant as name) (by
        rintro ahead fields _ mid v _ _ hf ⟨hn, rfl, hd, he⟩
        exact ⟨hn, ⟨mid, hf, hd⟩, he⟩)
  have hname (as : List Attribute) :=
    (name_meets "variant name").bind (r := fun ahead v _ ahead' => v.TakenFrom ahead ∧ ahead' = [])
      (hfields as) (by
        rintro ahead name _ mid v _ _ ⟨-, rfl, -⟩ ⟨rfl, ⟨rest, hf, hd⟩, he⟩
        exact ⟨⟨[], mid, rest, rfl, hf, hd⟩, he⟩)
  refine attributes_meets.bind (fun as => visibility_meets.bind (fun _ => hname as)
    (r := fun ahead v _ ahead' => v.TakenFrom ahead ∧ ahead' = []) ?_) ?_
  · rintro ahead _ _ mid v _ _ hs ⟨hv, he⟩
    exact ⟨hv.mono hs, he⟩
  · rintro ahead as _ mid v _ _ ⟨-, rfl⟩ ⟨hv, he⟩
    exact ⟨hv.mono (List.suffix_append _ _), he⟩

end Reader

/-- Reading the contents of a marker only splits tokens in them, also when it fails, and the names
and values of a definition are trees of the contents. -/
theorem Variant.parse_spec (contents : List Tree) (span : Span) :
    Splits contents (Variant.parse contents span).stream ∧
      ∀ v, (Variant.parse contents span).result = .ok v → v.TakenFrom contents := by
  generalize hc : Cursor.mk [] contents (span.orElse (streamSpan contents)) = c
  have hstream : c.stream = contents := by rw [← hc]; rfl
  have hahead : c.ahead = contents := by rw [← hc]
  have h := Reader.variant_meets c
  unfold Variant.parse Reader.over
  rw [hc]
  cases he : Reader.variant c with
  | ok v c' =>
    rw [he] at h
    obtain ⟨-, left, hp, hs, hv, -⟩ := h
    refine ⟨hstream ▸ Reader.splits_stream hp hs, fun v' hv' => ?_⟩
    obtain rfl : v = v' := Except.ok.inj hv'
    exact hahead ▸ hv
  | error e c' =>
    rw [he] at h
    refine ⟨hstream ▸ h.2, fun v' hv' => ?_⟩
    cases hv'

end InlineVariants
