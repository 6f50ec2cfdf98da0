import InlineVariants.Proofs.Splitting
import Mathlib

/-!
# Every token of a marker is accounted for

An accepted marker is its definition written down, token for token: attributes, perhaps a visibility,
the name, a group of fields, and perhaps a discriminant behind `=`. The group of fields is left with
its entries in order and single commas between them. Before, it may have had `>=` and `>>=` where now
their characters stand apart (`Unglued`), and nothing else was different.

The readers of `Variant/Parser` are described twice: by what they leave behind the cursor, and by what
they do to the level they run on (`Reader.Flat`); a reader that does both does them to the same trees
(`Reader.Meets.and`).

Main statement: `Variant.parse_written`.
-/

namespace InlineVariants

/-! ## Written definitions -/

/-- Some `>=` of the first list are `>` `=` in the second one, and some `>>=` are `>` `>` `=`. -/
inductive Unglued : List Tree → List Tree → Prop
  | nil : Unglued [] []
  | keep {t : Tree} {ts us : List Tree} : Unglued ts us → Unglued (t :: ts) (t :: us)
  | ge {span : Span} {ts us : List Tree} : Unglued ts us →
      Unglued (.punct ">=" span :: ts)
        (.punct ">" (span.charAt 0) :: .punct "=" (span.charAt 1) :: us)
  | shrAssign {span : Span} {ts us : List Tree} : Unglued ts us →
      Unglued (.punct ">>=" span :: ts)
        (.punct ">" (span.charAt 0) :: .punct ">" (span.charAt 1) :: .punct "=" (span.charAt 2) :: us)

/-- The trees of some entries with single commas between them, and perhaps one behind the last. -/
inductive Joined {α : Type} (written : α → List Tree → Prop) : List α → List Tree → Prop
  | nil : Joined written [] []
  | last {a : α} {ts : List Tree} : written a ts → Joined written [a] ts
  | trailing {a : α} {ts : List Tree} {span : Span} :
      written a ts → Joined written [a] (ts ++ [.punct "," span])
  | cons {a b : α} {more : List α} {ts us : List Tree} {span : Span} :
      written a ts → Joined written (b :: more) us →
      Joined written (a :: b :: more) (ts ++ .punct "," span :: us)

namespace Joined

variable {α : Type} {written written' : α → List Tree → Prop} {as : List α} {ts : List Tree}

theorem prepend {a : α} {us : List Tree} {span : Span} (h : Joined written as us) (ha : written a ts) :
    Joined written (a :: as) (ts ++ .punct "," span :: us) := by
  cases as with
  | nil => cases h; exact .trailing ha
  | cons b more => exact .cons ha h

theorem imp_mem (h : Joined written as ts)
    (himp : ∀ a ∈ as, ∀ us, written a us → written' a us) : Joined written' as ts := by
  induction h with
  | nil => exact .nil
  | last ha => exact .last (himp _ List.mem_cons_self _ ha)
  | trailing ha => exact .trailing (himp _ List.mem_cons_self _ ha)
  | cons ha _ ih =>
    exact .cons (himp _ List.mem_cons_self _ ha) (ih fun b hb => himp b (List.mem_cons_of_mem _ hb))

theorem forall_mem {p : α → Prop} (h : Joined written as ts) (himp : ∀ a us, written a us → p a) :
    ∀ a ∈ as, p a := by
  induction h with
  | nil => simp
  | last ha | trailing ha => simpa using himp _ _ ha
  | cons ha _ ih => simpa using ⟨himp _ _ ha, by simpa using ih⟩

end Joined

/-- The trees of attributes. -/
def attributeTrees (attributes : List Attribute) : List Tree := attributes.flatMap Attribute.trees

theorem attributeTrees_cons_append (a : Attribute) (as : List Attribute) (ts : List Tree) :
    attributeTrees (a :: as) ++ ts =
      .punct "#" a.pound :: .group .bracket a.inner a.brackets :: (attributeTrees as ++ ts) := rfl

/-- The trees are a type, `=` and a value. -/
def TypedValue (type value ts : List Tree) : Prop :=
  ∃ span, ts = type ++ .punct "=" span :: value ∧ (∃ ty, TypeExpr.ofTrees type = .ok ty) ∧ value ≠ []

/-- The trees are those of a named entry. -/
def NamedField.WrittenAs (f : NamedField) (ts : List Tree) : Prop :=
  ∃ colon us, ts = attributeTrees f.attributes ++ f.name.tree :: .punct ":" colon :: us ∧
    isKeyword f.name.text = false ∧ TypedValue f.type f.value us

/-- The trees are those of an unnamed entry. -/
def UnnamedField.WrittenAs (f : UnnamedField) (ts : List Tree) : Prop :=
  ∃ us, ts = attributeTrees f.attributes ++ us ∧ TypedValue f.type f.value us

/-- A group of entries, before and after its tokens were split. -/
def EntryGroup {α : Type} (d : Delimiter) (written : α → List Tree → Prop) (entries : List α)
    (before after : List Tree) : Prop :=
  ∃ inner inner' span, before = [.group d inner span] ∧ after = [.group d inner' span] ∧
    Unglued inner inner' ∧ Joined written entries inner'

/-- The trees of fields, before and after tokens were split. -/
def Fields.WrittenAs : Fields → (before after : List Tree) → Prop
  | .unit, before, after => before = [] ∧ after = []
  | .named fs, before, after => EntryGroup .brace NamedField.WrittenAs fs before after
  | .unnamed fs, before, after => EntryGroup .paren UnnamedField.WrittenAs fs before after

/-- The trees are a visibility, or nothing. -/
def IsVisibility (ts : List Tree) : Prop :=
  ts = [] ∨ (∃ span, ts = [.ident "pub" span]) ∨
    ∃ span inner parens, ts = [.ident "pub" span, .group .paren inner parens]

/-- A visibility begins with `pub`. -/
theorem IsVisibility.head_eq {t : Tree} {ts : List Tree} (h : IsVisibility (t :: ts)) :
    ∃ span, t = .ident "pub" span := by
  rcases h with h | ⟨span, h⟩ | ⟨span, inner, parens, h⟩
  · cases h
  · exact ⟨span, (List.cons.inj h).1⟩
  · exact ⟨span, (List.cons.inj h).1⟩

/-- The trees are a discriminant behind `=`, or nothing. -/
def IsDiscriminant : Option (List Tree) → List Tree → Prop
  | none, ts => ts = []
  | some value, ts => value ≠ [] ∧ ∃ span, ts = .punct "=" span :: value

/-- The contents of a marker are the definition and nothing else, before and after tokens were
split. -/
def Variant.WrittenAs (v : Variant) (before after : List Tree) : Prop :=
  ∃ visibility group group' discriminant,
    before = attributeTrees v.attributes ++ (visibility ++ v.name.tree :: (group ++ discriminant)) ∧
    after = attributeTrees v.attributes ++ (visibility ++ v.name.tree :: (group' ++ discriminant)) ∧
    IsVisibility visibility ∧ isKeyword v.name.text = false ∧ v.fields.WrittenAs group group' ∧
    IsDiscriminant v.discriminant discriminant

/-! ## Split tokens of one level -/

namespace Unglued

theorem refl : ∀ ts : List Tree, Unglued ts ts
  | [] => .nil
  | _ :: ts => .keep (refl ts)

theorem prepend (ts : List Tree) {us vs : List Tree} (h : Unglued us vs) :
    Unglued (ts ++ us) (ts ++ vs) := by
  induction ts with
  | nil => exact h
  | cons t ts ih => exact .keep ih

/-- A punctuation that is not glued stays. -/
theorem punct_inv {op : String} {span : Span} {ts us : List Tree}
    (h : Unglued (.punct op span :: ts) us) (hop : op = ">" ∨ op = "=") :
    ∃ us', us = .punct op span :: us' ∧ Unglued ts us' := by
  cases h with
  | keep h => exact ⟨_, rfl, h⟩
  | ge | shrAssign => exact absurd hop (by decide)

theorem trans {ts us vs : List Tree} (h : Unglued ts us) (h' : Unglued us vs) : Unglued ts vs := by
  induction h generalizing vs with
  | nil => exact h'
  | keep _ ih =>
    cases h' with
    | keep h' => exact .keep (ih h')
    | ge h' => exact .ge (ih h')
    | shrAssign h' => exact .shrAssign (ih h')
  | ge _ ih =>
    obtain ⟨_, rfl, h₁⟩ := h'.punct_inv (.inl rfl)
    obtain ⟨_, rfl, h₂⟩ := h₁.punct_inv (.inr rfl)
    exact .ge (ih h₂)
  | shrAssign _ ih =>
    obtain ⟨_, rfl, h₁⟩ := h'.punct_inv (.inl rfl)
    obtain ⟨_, rfl, h₂⟩ := h₁.punct_inv (.inl rfl)
    obtain ⟨_, rfl, h₃⟩ := h₂.punct_inv (.inr rfl)
    exact .shrAssign (ih h₃)

end Unglued

theorem typeRun_unglued (depth : Nat) (ts : List Tree) :
    Unglued ts ((typeRun depth ts).1 ++ (typeRun depth ts).2) := by
  fun_induction typeRun depth ts with
  | case1 => exact .nil
  | case2 => exact .refl _
  | case3 depth op span rest _ h =>
    rcases gluedAngles?_cases h with ⟨rfl, rfl⟩ | ⟨rfl, rfl⟩
    · exact .ge (.refl _)
    · exact .shrAssign (.refl _)
  | case4 depth op span rest _ _ run ih => exact .keep ih
  | case5 depth t rest _ run ih => exact .keep ih

namespace Reader

variable {α β : Type} {reader : Reader α}

/-- Two descriptions of a reader speak of the same trees. -/
theorem Meets.and {p q : List Tree → α → List Tree → List Tree → Prop} (hp : Meets reader p)
    (hq : Meets reader q) :
    Meets reader fun ahead a left ahead' => p ahead a left ahead' ∧ q ahead a left ahead' := by
  intro c
  have h1 := hp c
  have h2 := hq c
  cases he : reader c with
  | error e c' =>
    rw [he] at h1
    exact h1
  | ok a c' =>
    rw [he] at h1 h2
    obtain ⟨hr, left, hl, hs, h1⟩ := h1
    obtain ⟨-, left', hl', -, h2⟩ := h2
    obtain rfl : left' = left := by
      rw [hl] at hl'
      exact List.reverse_injective (List.append_cancel_right hl').symm
    exact ⟨hr, left', hl, hs, h1, h2⟩

/-- A reader that splits tokens of its own level only. -/
def Flat (reader : Reader α) : Prop :=
  Meets reader fun ahead _ left ahead' => Unglued ahead (left ++ ahead')

namespace Flat

theorem pure (a : α) : Flat (Pure.pure a) := by
  apply (Meets.pure a).conseq
  rintro ahead _ _ _ ⟨-, rfl, rfl⟩
  exact .refl _

theorem bind {f : α → Reader β} (h : Flat reader) (hf : ∀ a, Flat (f a)) : Flat (reader >>= f) := by
  apply Meets.bind h hf
  intro ahead a left₁ mid b left₂ ahead' h₁ h₂
  rw [List.append_assoc]
  exact h₁.trans (h₂.prepend left₁)

theorem look {f : Cursor → Reader α} (h : ∀ c, Flat (f c)) : Flat (get >>= f) :=
  Meets.look fun c => (h c).conseq fun _ _ _ _ hu _ => hu

theorem guard {b : Prop} [Decidable b] {k : γ → Reader α} {fault : Cursor → GrammarFault}
    {anchor : Cursor → Span} (h : Flat reader) :
    Flat (if b then Reader.refuse fault anchor >>= k else reader) :=
  (Meets.guard h).conseq fun _ _ _ _ hu => hu.2

/-- A reader that takes trees as they are. -/
theorem of_taken {p : List Tree → α → List Tree → List Tree → Prop} (h : Meets reader p)
    (hp : ∀ ahead a left ahead', p ahead a left ahead' → ahead = left ++ ahead') : Flat reader := by
  apply h.conseq
  intro ahead a left ahead' ha
  rw [hp ahead a left ahead' ha]
  exact .refl _

end Flat

/-! ## The readers of a group of fields -/

theorem typeTrees_flat : Flat typeTrees := by
  intro c
  obtain ⟨hs, -⟩ := typeRun_spec 0 c.ahead
  exact ⟨rfl, _, rfl, hs, typeRun_unglued 0 c.ahead⟩

theorem valueTrees_flat : Flat valueTrees := by
  apply Flat.of_taken valueTrees_meets
  rintro ahead value left ahead' ⟨rfl, h⟩
  exact h

theorem eat?_flat (op : String) : Flat (eat? op) := by
  apply Flat.of_taken (eat?_meets op)
  rintro ahead found left ahead' (⟨-, rfl, rfl⟩ | ⟨span, -, rfl, rfl⟩)
  · rfl
  · rfl

theorem expect_flat (op context : String) : Flat (expect op context) := by
  apply Flat.of_taken (expect_meets op context)
  rintro ahead span left ahead' ⟨rfl, rfl⟩
  rfl

theorem name_flat (what : String) : Flat (name what) := by
  apply Flat.of_taken (name_meets what)
  rintro ahead n left ahead' ⟨rfl, rfl, -⟩
  rfl

theorem attributes_flat : Flat attributes := by
  apply Flat.of_taken attributes_meets
  rintro ahead as left ahead' ⟨-, h⟩
  exact h

theorem typeAndValue_flat (start : Nat) (label : FieldLabel) : Flat (typeAndValue start label) := by
  refine typeTrees_flat.bind fun type => .guard ((eat?_flat "=").bind fun found => .guard ?_)
  cases TypeExpr.ofTrees type with
  | error e => exact fun _ => ⟨rfl, .refl _⟩
  | ok ty => exact valueTrees_flat.bind fun value => .guard (.pure _)

theorem namedEntry_flat : Flat namedEntry := by
  have hname (start : Nat) : Flat (anchoredFrom start do
      let name ← name "field name"
      let _ ← expect ":" ("after field name `" ++ name.text ++ "`")
      return name) :=
    anchoredFrom_meets start ((name_flat _).bind fun n => (expect_flat _ _).bind fun _ => .pure n)
  refine .look fun c => attributes_flat.bind fun as => (hname c.pos).bind fun name => ?_
  exact (typeAndValue_flat _ _).bind fun r => .look fun c' => .pure _

theorem unnamedEntry_flat (index : Nat) : Flat (unnamedEntry index) := by
  refine .look fun c => attributes_flat.bind fun as => ?_
  exact (typeAndValue_flat _ _).bind fun r => .look fun c' => .pure _

theorem another_flat : Flat another := by
  refine .look fun c => Meets.ite (fun _ => Flat.pure _) fun _ => ?_
  exact (expect_flat _ _).bind fun _ => .look fun c' => .pure _

theorem entries_flat {entry : Nat → Reader α} (h : ∀ index, Flat (entry index)) (limit index : Nat) :
    Flat (entries entry limit index) := by
  induction limit generalizing index with
  | zero => exact .pure _
  | succ limit ih =>
    refine .look fun c => Meets.ite (fun _ => Flat.pure _) fun _ => ?_
    refine (h index).bind fun first => another_flat.bind fun more => Meets.ite (fun _ => ?_) fun _ => ?_
    · exact (ih (index + 1)).bind fun others => .pure _
    · exact Flat.pure _

/-- The trees that an entry takes are the type, `=` and the value, and there are fewer behind it. -/
theorem typeAndValue_leaves (start : Nat) (label : FieldLabel) :
    Meets (typeAndValue start label) fun ahead r left ahead' =>
      TypedValue r.1 r.2 left ∧ ahead'.length < ahead.length := by
  apply (typeAndValue_meets start label).conseq
  rintro ahead r left ahead' ⟨⟨span, rfl⟩, -, hty, hv, hs⟩
  refine ⟨⟨span, rfl, hty, hv⟩, ?_⟩
  have hlen := hs.length_le
  have hpos := List.length_pos_iff.2 hv
  rw [List.length_append] at hlen
  omega

/-- An entry that is made of what it takes. -/
theorem entry_leaves (start : Nat) (label : FieldLabel) (mk : List Tree → List Tree → Cursor → α) :
    Meets (do
      let (type, value) ← typeAndValue start label
      return mk type value (← get)) fun ahead a left ahead' =>
        ∃ type value c, a = mk type value c ∧ TypedValue type value left ∧
          ahead'.length < ahead.length := by
  refine (typeAndValue_leaves _ _).bind (q := fun r ahead a left ahead' =>
    ∃ c, a = mk r.1 r.2 c ∧ left = [] ∧ ahead' = ahead) (fun r => .look fun c => ?_) ?_
  · exact (Meets.pure _).conseq fun _ _ _ _ h _ => ⟨c, h⟩
  · rintro ahead r left mid a _ ahead' ⟨htv, hlen⟩ ⟨c, ha, rfl, rfl⟩
    rw [List.append_nil]
    exact ⟨r.1, r.2, c, ha, htv, hlen⟩

/-- The name of an entry and its colon. -/
theorem fieldName_leaves (start : Nat) : Meets (anchoredFrom start do
      let name ← name "field name"
      let _ ← expect ":" ("after field name `" ++ name.text ++ "`")
      return name) fun ahead n left ahead' => isKeyword n.text = false ∧
        ∃ span, left = [n.tree, .punct ":" span] ∧ ahead = left ++ ahead' := by
  refine anchoredFrom_meets _ ((name_meets _).bind (q := fun n ahead n' left ahead' =>
    n' = n ∧ ∃ span, left = [.punct ":" span] ∧ ahead = left ++ ahead') (fun n => ?_) ?_)
  · refine (expect_meets _ _).bind (fun _ => Meets.pure n) ?_
    rintro ahead span _ mid n' _ ahead' ⟨rfl, rfl⟩ ⟨rfl, rfl, rfl⟩
    exact ⟨rfl, span, rfl, rfl⟩
  · rintro ahead n _ mid n' _ ahead' ⟨rfl, rfl, hk⟩ ⟨rfl, span, rfl, rfl⟩
    exact ⟨hk, span, rfl, rfl⟩

theorem namedEntry_leaves : Meets namedEntry fun ahead f left ahead' =>
    f.WrittenAs left ∧ ahead'.length < ahead.length := by
  refine .look fun c => attributes_meets.bind (q := fun as ahead f left ahead' => ∃ us,
    left = f.name.tree :: us ∧ f.attributes = as ∧ isKeyword f.name.text = false ∧
    (∃ colon vs, us = .punct ":" colon :: vs ∧ TypedValue f.type f.value vs) ∧
    ahead'.length < ahead.length) (fun as => (fieldName_leaves c.pos).bind
      (fun name => entry_leaves c.pos _ fun type value c' =>
        NamedField.mk as name type value (c'.spanSince c.pos)) ?_) ?_
  · rintro ahead n _ mid f left ahead' ⟨hk, colon, rfl, rfl⟩ ⟨type, value, c', rfl, htv, hlen⟩
    refine ⟨_, rfl, rfl, hk, ⟨colon, left, rfl, htv⟩, ?_⟩
    rw [List.length_append]
    omega
  · rintro ahead as _ mid f left ahead' ⟨rfl, rfl⟩ ⟨us, rfl, rfl, hk, ⟨colon, vs, rfl, htv⟩, hlen⟩ -
    refine ⟨⟨colon, vs, rfl, hk, htv⟩, ?_⟩
    rw [List.length_append]
    omega

theorem unnamedEntry_leaves (index : Nat) : Meets (unnamedEntry index) fun ahead f left ahead' =>
    f.WrittenAs left ∧ ahead'.length < ahead.length := by
  refine .look fun c => attributes_meets.bind (fun as => entry_leaves c.pos _ fun type value c' =>
    UnnamedField.mk as type value (c'.spanSince c.pos)) ?_
  rintro ahead as _ mid f left ahead' ⟨rfl, rfl⟩ ⟨type, value, c', rfl, htv, hlen⟩ -
  refine ⟨⟨left, rfl, htv⟩, ?_⟩
  rw [List.length_append]
  omega

/-- Nothing, or a comma; and another entry follows exactly if there is something behind the comma. -/
theorem another_leaves : Meets another fun ahead more left ahead' =>
    (ahead = [] ∧ more = false ∧ left = [] ∧ ahead' = []) ∨
      ∃ span, ahead = .punct "," span :: ahead' ∧ left = [.punct "," span] ∧
        more = !ahead'.isEmpty := by
  refine .look fun c => .ite (fun hc => ?_) fun _ => ?_
  · apply (Meets.pure false).conseq
    rintro ahead _ _ _ ⟨rfl, rfl, rfl⟩ rfl
    have hnil : c.ahead = [] := by simpa [Cursor.atEnd] using hc
    exact .inl ⟨hnil, rfl, rfl, hnil⟩
  · refine (expect_meets _ _).bind (q := fun _ ahead more left ahead' =>
      left = [] ∧ ahead' = ahead ∧ more = !ahead.isEmpty) (fun _ => .look fun c' => ?_) ?_
    · apply (Meets.pure _).conseq
      rintro ahead _ _ _ ⟨rfl, rfl, rfl⟩ rfl
      exact ⟨rfl, rfl, rfl⟩
    · rintro ahead span _ mid more _ ahead' ⟨rfl, rfl⟩ ⟨rfl, rfl, rfl⟩ -
      exact .inr ⟨span, rfl, rfl, rfl⟩

/-- What reading the entries of a level comes to when there are at most `limit` trees: entries with
commas between them, and nothing ahead. -/
def AllJoined (written : α → List Tree → Prop) (limit : Nat) (ahead : List Tree) (as : List α)
    (left ahead' : List Tree) : Prop :=
  ahead.length ≤ limit → Joined written as left ∧ ahead' = [] ∧ (ahead ≠ [] → as ≠ [])

/-- Behind an entry come the end, a comma and the end, or a comma and more entries. -/
theorem moreEntries_leaves {written : α → List Tree → Prop} {others : Reader (List α)} {limit : Nat}
    (first : α) (h : Meets others (AllJoined written limit)) :
    Meets (do
      if ← another then return first :: (← others)
      return [first]) fun ahead as left ahead' => ahead.length ≤ limit →
        ∀ ts, written first ts → Joined written as (ts ++ left) ∧ ahead' = [] ∧ as ≠ [] := by
  refine another_leaves.bind (q := fun more ahead as left ahead' => ahead.length ≤ limit →
    (more = false → as = [first] ∧ left = [] ∧ ahead' = ahead) ∧
      (more = true → ∃ others, as = first :: others ∧ Joined written others left ∧ ahead' = [] ∧
        (ahead ≠ [] → others ≠ [])))
    (fun more => .ite (fun hmore => ?_) fun hmore => ?_) ?_
  · refine h.bind (fun others => Meets.pure (first :: others)) ?_
    rintro ahead others left mid _ _ _ hothers ⟨rfl, rfl, rfl⟩ hlen
    rw [List.append_nil]
    obtain ⟨hj, hnil, hne⟩ := hothers hlen
    refine ⟨fun hf => ?_, fun _ => ⟨others, rfl, hj, hnil, hne⟩⟩
    rw [hmore] at hf
    cases hf
  · apply (Meets.pure [first]).conseq
    rintro ahead _ _ _ ⟨rfl, rfl, rfl⟩ -
    exact ⟨fun _ => ⟨rfl, rfl, rfl⟩, fun ht => absurd ht hmore⟩
  · rintro ahead more _ mid as left ahead' (⟨rfl, rfl, rfl, rfl⟩ | ⟨span, rfl, rfl, rfl⟩) hrest hlen ts
      hts
    · obtain ⟨rfl, rfl, rfl⟩ := (hrest hlen).1 rfl
      rw [List.append_nil, List.append_nil]
      exact ⟨.last hts, rfl, by simp⟩
    · have hlen' : mid.length ≤ limit := by
        rw [List.length_cons] at hlen
        omega
      cases hmid : mid with
      | nil =>
        obtain ⟨rfl, rfl, rfl⟩ := (hrest hlen').1 (by rw [hmid]; rfl)
        exact ⟨.trailing hts, hmid, by simp⟩
      | cons t us =>
        obtain ⟨others, rfl, hj, rfl, hne⟩ := (hrest hlen').2 (by rw [hmid]; rfl)
        obtain ⟨b, more, rfl⟩ := List.exists_cons_of_ne_nil (hne (by rw [hmid]; simp))
        exact ⟨.cons hts hj, rfl, by simp⟩

theorem entries_leaves {entry : Nat → Reader α} {written : α → List Tree → Prop}
    (h : ∀ index, Meets (entry index) fun ahead a left ahead' =>
      written a left ∧ ahead'.length < ahead.length) (limit index : Nat) :
    Meets (entries entry limit index) (AllJoined written limit) := by
  have hend (limit : Nat) (c : Cursor) (hc : c.ahead = []) :
      Meets (Pure.pure ([] : List α) : Reader (List α)) fun ahead as left ahead' =>
        c.ahead = ahead → AllJoined written limit ahead as left ahead' := by
    apply (Meets.pure []).conseq
    rintro ahead as left ahead' ⟨rfl, rfl, rfl⟩ rfl -
    exact ⟨.nil, hc, fun hne => absurd hc hne⟩
  induction limit generalizing index with
  | zero =>
    apply (Meets.pure []).conseq
    rintro ahead as left ahead' ⟨rfl, rfl, hahead⟩ hlen
    obtain rfl : ahead = [] := List.eq_nil_of_length_eq_zero (by omega)
    exact ⟨.nil, hahead, fun hne => absurd rfl hne⟩
  | succ limit ih =>
    refine .look fun c => .ite (fun hc => ?_) fun hc => ?_
    · exact hend _ c (by simpa [Cursor.atEnd] using hc)
    · refine (h index).bind (fun first => moreEntries_leaves first (ih (index + 1))) ?_
      rintro ahead first left mid as left' ahead' ⟨hw, hlt⟩ hrest rfl hlen
      obtain ⟨hj, hnil, hne⟩ := hrest (by omega) left hw
      exact ⟨hj, hnil, fun _ => hne⟩

theorem allEntries_leaves {entry : Nat → Reader α} {written : α → List Tree → Prop}
    (hflat : ∀ index, Flat (entry index)) (h : ∀ index, Meets (entry index)
      fun ahead a left ahead' => written a left ∧ ahead'.length < ahead.length) :
    Meets (allEntries entry) fun ahead as left ahead' =>
      Unglued ahead left ∧ Joined written as left ∧ ahead' = [] := by
  refine .look fun c => ((entries_flat hflat _ _).and (entries_leaves h _ _)).conseq ?_
  rintro ahead as left ahead' ⟨hu, hall⟩ rfl
  obtain ⟨hj, rfl, -⟩ := hall (Nat.le_refl _)
  rw [List.append_nil] at hu
  exact ⟨hu, hj, rfl⟩

/-! ## The readers of a variant -/

/-- A reader of entries that runs inside a group leaves the group with its entries. -/
theorem inside_leaves {reader : Reader Fields} {written : α → List Tree → Prop}
    {mk : List α → Fields} {d : Delimiter} {inner rest : List Tree} {span : Span} {c : Cursor}
    (h : Meets reader fun ahead fields left ahead' => ∃ as, fields = mk as ∧ Unglued ahead left ∧
      Joined written as left ∧ ahead' = []) (hc : c.ahead = .group d inner span :: rest) :
    Follows c (fun _ fields left ahead' => ahead' = rest ∧ ∃ as, fields = mk as ∧
      EntryGroup d written as [.group d inner span] left) (inside d inner span rest reader c) := by
  apply (inside_follows h hc).conseq
  rintro fields left ahead' ⟨rfl, l, r, rfl, as, rfl, hu, hj, rfl⟩
  refine ⟨rfl, as, rfl, inner, l, span, rfl, ?_, hu, hj⟩
  rw [List.append_nil]

theorem fieldGroup_leaves : Meets fieldGroup fun ahead fields left ahead' =>
    ∃ before, ahead = before ++ ahead' ∧ fields.WrittenAs before left := by
  have hnamed : Meets namedFields fun ahead fields left ahead' => ∃ fs, fields = Fields.named fs ∧
      Unglued ahead left ∧ Joined NamedField.WrittenAs fs left ∧ ahead' = [] := by
    refine (allEntries_leaves (fun _ => namedEntry_flat) fun _ => namedEntry_leaves).bind
      (fun fs => Meets.pure (Fields.named fs)) ?_
    rintro ahead fs left mid fields _ ahead' ⟨hu, hj, rfl⟩ ⟨rfl, rfl, rfl⟩
    rw [List.append_nil]
    exact ⟨fs, rfl, hu, hj, rfl⟩
  have hunnamed : Meets unnamedFields fun ahead fields left ahead' => ∃ fs,
      fields = Fields.unnamed fs ∧ Unglued ahead left ∧ Joined UnnamedField.WrittenAs fs left ∧
      ahead' = [] := by
    refine (allEntries_leaves unnamedEntry_flat unnamedEntry_leaves).bind
      (fun fs => Meets.pure (Fields.unnamed fs)) ?_
    rintro ahead fs left mid fields _ ahead' ⟨hu, hj, rfl⟩ ⟨rfl, rfl, rfl⟩
    rw [List.append_nil]
    exact ⟨fs, rfl, hu, hj, rfl⟩
  intro c
  unfold fieldGroup
  split
  · rename_i inner span rest hc
    apply (inside_leaves hnamed hc).conseq
    rintro fields left ahead' ⟨rfl, fs, rfl, hg⟩
    exact ⟨_, hc, hg⟩
  · rename_i inner span rest hc
    apply (inside_leaves hunnamed hc).conseq
    rintro fields left ahead' ⟨rfl, fs, rfl, hg⟩
    exact ⟨_, hc, hg⟩
  · exact ⟨rfl, [], rfl, .refl _, [], rfl, rfl, rfl⟩

theorem visibility_leaves : Meets visibility fun ahead _ left ahead' =>
    IsVisibility left ∧ ahead = left ++ ahead' := by
  intro c
  unfold visibility
  split
  · rename_i hc
    exact ⟨rfl, [_, _], rfl, hc ▸ .refl _, .inr (.inr ⟨_, _, _, rfl⟩), hc⟩
  · rename_i hc
    exact ⟨rfl, [_], rfl, hc ▸ .refl _, .inr (.inl ⟨_, rfl⟩), hc⟩
  · exact ⟨rfl, [], rfl, .refl _, .inl rfl, rfl⟩

theorem discriminant_leaves (name : String) : Meets (discriminant name) fun ahead d left ahead' =>
    IsDiscriminant d left ∧ ahead = left ++ ahead' := by
  refine (eat?_meets "=").bind (q := fun found ahead d left ahead' => ahead = left ++ ahead' ∧
    ((found = none ∧ d = none ∧ left = []) ∨ (found ≠ none ∧ d = some left ∧ left ≠ []))) ?_ ?_
  · rintro (_ | span)
    · apply (Meets.pure none).conseq
      rintro ahead d left ahead' ⟨rfl, rfl, rfl⟩
      exact ⟨rfl, .inl ⟨rfl, rfl, rfl⟩⟩
    · refine valueTrees_meets.bind (fun value => (Meets.pure (some value)).guard) ?_
      rintro ahead value _ mid d _ ahead' ⟨rfl, rfl⟩ ⟨hne, rfl, rfl, rfl⟩
      rw [List.append_nil]
      exact ⟨rfl, .inr ⟨by simp, rfl, by simpa using hne⟩⟩
  · rintro ahead found _ mid d left ahead' (⟨rfl, rfl, rfl⟩ | ⟨span, rfl, rfl, rfl⟩) ⟨rfl, hd⟩
    · rcases hd with ⟨-, rfl, rfl⟩ | ⟨hne, -, -⟩
      · exact ⟨rfl, rfl⟩
      · exact absurd rfl hne
    · rcases hd with ⟨h, -, -⟩ | ⟨-, rfl, hne⟩
      · cases h
      · exact ⟨⟨hne, span, rfl⟩, rfl⟩

/-- The end of a variant: nothing is ahead. -/
theorem variantEnd_leaves (as : List Attribute) (name : Name) (fields : Fields)
    (d : Option (List Tree)) :
    Meets (do
      unless (← get).atEnd do refuse (fun c => .trailing c.found name.text) Cursor.here
      return { name, attributes := as, fields, discriminant := d,
               span := streamSpan (← get).stream : Variant }) fun ahead v left ahead' =>
      v.attributes = as ∧ v.name = name ∧ v.fields = fields ∧ v.discriminant = d ∧
        left = [] ∧ ahead = [] ∧ ahead' = [] := by
  refine .look fun c => .ite (fun hc => .look fun c' => ?_) fun _ => ?_
  · apply (Meets.pure _).conseq
    rintro ahead v left ahead' ⟨rfl, rfl, rfl⟩ - rfl
    have hnil : c.ahead = [] := by simpa [Cursor.atEnd] using hc
    exact ⟨rfl, rfl, rfl, rfl, rfl, hnil, hnil⟩
  · exact fun _ => ⟨rfl, .refl _⟩

theorem variant_leaves : Meets variant fun ahead v left ahead' => v.WrittenAs ahead left ∧ ahead' = [] := by
  have hdiscriminant (as : List Attribute) (name : Name) (fields : Fields) :=
    (discriminant_leaves name.text).bind (r := fun ahead v left ahead' => v.attributes = as ∧
      v.name = name ∧ v.fields = fields ∧ IsDiscriminant v.discriminant ahead ∧ left = ahead ∧
      ahead' = []) (variantEnd_leaves as name fields) (by
        rintro ahead d left mid v _ ahead' ⟨hd, rfl⟩ ⟨ha, hn, hf, rfl, rfl, rfl, rfl⟩
        rw [List.append_nil]
        exact ⟨ha, hn, hf, hd, rfl, rfl⟩)
  have hfields (as : List Attribute) (name : Name) :=
    fieldGroup_leaves.bind (r := fun ahead v left ahead' => v.attributes = as ∧ v.name = name ∧
      (∃ group group' discriminant, ahead = group ++ discriminant ∧ left = group' ++ discriminant ∧
        v.fields.WrittenAs group group' ∧ IsDiscriminant v.discriminant discriminant) ∧ ahead' = [])
      (hdiscriminant as name) (by
        rintro ahead fields left mid v discriminant ahead' ⟨before, rfl, hf⟩ ⟨ha, hn, rfl, hd, rfl, he⟩
        exact ⟨ha, hn, ⟨before, left, discriminant, rfl, rfl, hf, hd⟩, he⟩)
  have hname (as : List Attribute) :=
    (name_meets "variant name").bind (r := fun ahead v left ahead' => v.attributes = as ∧
      (∃ group group' discriminant, ahead = v.name.tree :: (group ++ discriminant) ∧
        left = v.name.tree :: (group' ++ discriminant) ∧ isKeyword v.name.text = false ∧
        v.fields.WrittenAs group group' ∧ IsDiscriminant v.discriminant discriminant) ∧ ahead' = [])
      (hfields as) (by
        rintro ahead name _ mid v _ ahead' ⟨rfl, rfl, hk⟩
          ⟨ha, rfl, ⟨group, group', discriminant, rfl, rfl, hf, hd⟩, he⟩
        exact ⟨ha, ⟨group, group', discriminant, rfl, rfl, hk, hf, hd⟩, he⟩)
  refine attributes_meets.bind (fun as => visibility_leaves.bind (fun _ => hname as)
    (r := fun ahead v left ahead' => v.attributes = as ∧
      (∃ visibility group group' discriminant,
        ahead = visibility ++ v.name.tree :: (group ++ discriminant) ∧
        left = visibility ++ v.name.tree :: (group' ++ discriminant) ∧ IsVisibility visibility ∧
        isKeyword v.name.text = false ∧ v.fields.WrittenAs group group' ∧
        IsDiscriminant v.discriminant discriminant) ∧ ahead' = []) ?_) ?_
  · rintro ahead _ visibility mid v _ ahead' ⟨hv, rfl⟩
      ⟨ha, ⟨group, group', discriminant, rfl, rfl, hrest⟩, he⟩
    exact ⟨ha, ⟨visibility, group, group', discriminant, rfl, rfl, hv, hrest⟩, he⟩
  · rintro ahead as _ mid v _ ahead' ⟨rfl, rfl⟩
      ⟨rfl, ⟨visibility, group, group', discriminant, rfl, rfl, hrest⟩, he⟩
    exact ⟨⟨visibility, group, group', discriminant, rfl, rfl, hrest⟩, he⟩

end Reader

/-- The contents of an accepted marker are its definition, token for token. -/
theorem Variant.parse_written {contents : List Tree} {span : Span} {v : Variant}
    (h : (Variant.parse contents span).result = .ok v) :
    v.WrittenAs contents (Variant.parse contents span).stream := by
  have hv := Reader.variant_leaves { ahead := contents, region := span.orElse (streamSpan contents) }
  unfold Variant.parse Reader.over at h ⊢
  cases he : Reader.variant { ahead := contents, region := span.orElse (streamSpan contents) } with
  | error e c =>
    rw [he] at h
    cases h
  | ok w c =>
    rw [he] at h hv
    obtain rfl : w = v := Except.ok.inj h
    obtain ⟨-, left, hp, -, hw, ha⟩ := hv
    have hstream : c.stream = left := by
      rw [Cursor.stream, hp, ha]
      simp
    show w.WrittenAs contents c.stream
    rw [hstream]
    exact hw

/-- A marker with every part: an attribute, a restricted visibility, a field whose type ends in a
glued `>=`, a trailing comma and a discriminant. -/
theorem Variant.parse_written_every_part :
    let fieldTrees : List Tree := [.word "x", .mark ":", .word "Vec", .mark "<", .word "u8",
      .mark ">=", .word "v", .mark ","]
    let contents : List Tree := [.mark "#", .group .bracket [.word "doc"] .unknown, .word "pub",
      .group .paren [.word "crate"] .unknown, .word "A", .group .brace fieldTrees .unknown,
      .mark "=", .literal .number "3" .unknown]
    let field : NamedField :=
      { attributes := [], name := ⟨"x", .unknown⟩
        type := [.word "Vec", .mark "<", .word "u8", .mark ">"], value := [.word "v"]
        span := .unknown }
    let v : Variant :=
      { name := ⟨"A", .unknown⟩, attributes := [⟨.unknown, [.word "doc"], .unknown⟩]
        fields := .named [field], discriminant := some [.literal .number "3" .unknown]
        span := .unknown }
    (Variant.parse contents).result = .ok v ∧ v.WrittenAs contents (Variant.parse contents).stream := by
  intro fieldTrees contents field v
  have h : (Variant.parse contents).result = .ok v := by
    cbv
  exact ⟨h, Variant.parse_written h⟩

end InlineVariants
