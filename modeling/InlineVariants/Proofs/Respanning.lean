import InlineVariants.Proofs.Relexing

/-!
# Reading does not look at spans

What the contents of a marker mean does not depend on where they stand. If all spans are changed by a
function that keeps unknown spans, joins and the characters of a token (`Span.IsMove`), every reader
does what it did before, with changed spans in what it gives (`Reader.Commutes`), and it fails where it
failed, for the same reason.

Main statement: reading trees with changed spans gives the definition with changed spans, or the same
fault (`Variant.parse_mapSpans`).
-/

namespace InlineVariants

/-- A change of spans that keeps unknown spans, and what spans are made of. -/
structure Span.IsMove (f : Span → Span) : Prop where
  unknown : f Span.unknown = Span.unknown
  join : ∀ s t, f (s.join t) = (f s).join (f t)
  charAt : ∀ s i, f (s.charAt i) = (f s).charAt i

/-! ## Changed trees -/

mutual

/-- The tree with its spans changed, also those inside it. -/
def Tree.mapSpans (f : Span → Span) : Tree → Tree
  | .ident text span => .ident text (f span)
  | .punct op span => .punct op (f span)
  | .literal kind text span => .literal kind text (f span)
  | .group d stream span => .group d (mapSpansOf f stream) (f span)

/-- The trees with their spans changed. -/
def mapSpansOf (f : Span → Span) : List Tree → List Tree
  | [] => []
  | t :: ts => t.mapSpans f :: mapSpansOf f ts

end

variable {f : Span → Span}

theorem mapSpansOf_eq_map (ts : List Tree) : mapSpansOf f ts = ts.map (Tree.mapSpans f) := by
  induction ts with
  | nil => rfl
  | cons t ts ih => rw [mapSpansOf, ih, List.map_cons]

namespace Tree

@[simp] theorem mapSpans_ident (text : String) (span : Span) :
    (ident text span).mapSpans f = .ident text (f span) := rfl

@[simp] theorem mapSpans_punct (op : String) (span : Span) :
    (punct op span).mapSpans f = .punct op (f span) := rfl

@[simp] theorem mapSpans_literal (kind : LiteralKind) (text : String) (span : Span) :
    (literal kind text span).mapSpans f = .literal kind text (f span) := rfl

@[simp] theorem mapSpans_group (d : Delimiter) (stream : List Tree) (span : Span) :
    (group d stream span).mapSpans f = .group d (stream.map (mapSpans f)) (f span) := by
  rw [mapSpans, mapSpansOf_eq_map]

@[simp] theorem span_mapSpans (t : Tree) : (t.mapSpans f).span = f t.span := by
  cases t <;> rfl

@[simp] theorem isPunct_mapSpans (op : String) (t : Tree) : (t.mapSpans f).isPunct op = t.isPunct op := by
  cases t <;> rfl

@[simp] theorem isWord_mapSpans (text : String) (t : Tree) :
    (t.mapSpans f).isWord text = t.isWord text := by
  cases t <;> rfl

@[simp] theorem describe_mapSpans (t : Tree) : (t.mapSpans f).describe = t.describe := by
  cases t with
  | group d stream span => cases d <;> rfl
  | _ => rfl

end Tree

mutual

theorem bare_mapSpans : ∀ t : Tree, (t.mapSpans f).bare = t.bare
  | .ident .. | .punct .. | .literal .. => rfl
  | .group d ts _ => by simp only [Tree.mapSpans, Tree.bare, bareOf_mapSpansOf ts]

theorem bareOf_mapSpansOf : ∀ ts : List Tree, bareOf (mapSpansOf f ts) = bareOf ts
  | [] => rfl
  | t :: ts => by simp only [mapSpansOf, bareOf, bare_mapSpans t, bareOf_mapSpansOf ts]

end

/-- The words of trees do not depend on spans. -/
theorem streamWords_map_mapSpans (ts : List Tree) :
    streamWords (ts.map (Tree.mapSpans f)) = streamWords ts := by
  rw [← streamWords_bareOf, ← mapSpansOf_eq_map, bareOf_mapSpansOf, streamWords_bareOf]

theorem streamSpan_map_mapSpans (hf : Span.IsMove f) (ts : List Tree) :
    streamSpan (ts.map (Tree.mapSpans f)) = f (streamSpan ts) := by
  have hfold (spans : List Span) (s : Span) :
      (spans.map f).foldl Span.join (f s) = f (spans.foldl Span.join s) := by
    induction spans generalizing s with
    | nil => rfl
    | cons t spans ih => rw [List.map_cons, List.foldl_cons, List.foldl_cons, ← hf.join, ih]
  have hspans : (ts.map (Tree.mapSpans f)).map Tree.span = (ts.map Tree.span).map f := by simp
  rw [streamSpan, hspans, streamSpan, Span.joinAll, Span.joinAll, ← hfold, hf.unknown]

/-! ## Runs -/

theorem anglePieces_map (hf : Span.IsMove f) (span : Span) (n : Nat) :
    (anglePieces span n).map (Tree.mapSpans f) = anglePieces (f span) n := by
  simp [anglePieces, hf.charAt]

theorem equalsPiece_mapSpans (hf : Span.IsMove f) (span : Span) (n : Nat) :
    (equalsPiece span n).mapSpans f = equalsPiece (f span) n := by
  simp [equalsPiece, hf.charAt]

/-- A type ends where it ended. -/
theorem typeRun_map (hf : Span.IsMove f) (depth : Nat) (ts : List Tree) :
    typeRun depth (ts.map (Tree.mapSpans f)) =
      ((typeRun depth ts).1.map (Tree.mapSpans f), (typeRun depth ts).2.map (Tree.mapSpans f)) := by
  fun_induction typeRun depth ts with
  | case1 => rfl
  | case2 depth op span rest h => simp [typeRun, h]
  | case3 depth op span rest h hop =>
    simp [typeRun, h, hop, anglePieces_map hf, equalsPiece_mapSpans hf]
  | case4 depth op span rest h hop run ih => simp [typeRun, h, hop, ih, run]
  | case5 depth t rest hne run ih =>
    cases t with
    | punct op span => exact absurd rfl (hne op span)
    | _ => simp [typeRun, ih, run]

theorem closureMayStart_map (ts : List Tree) :
    closureMayStart (ts.map (Tree.mapSpans f)) = closureMayStart ts := by
  cases ts with
  | nil => rfl
  | cons last before => simp [closureMayStart, Option.any_map]

namespace ValueState

/-- The state with the spans of the trees changed. -/
def mapSpans (f : Span → Span) (st : ValueState) : ValueState :=
  { st with taken := st.taken.map (Tree.mapSpans f) }

theorem isEnd_mapSpans (st : ValueState) (t : Tree) :
    (st.mapSpans f).isEnd (t.mapSpans f) = st.isEnd t := by
  simp [isEnd, mapSpans]

theorem push_mapSpans (st : ValueState) (t : Tree) :
    (st.mapSpans f).push (t.mapSpans f) = (st.push t).mapSpans f := by
  cases t with
  | punct op span =>
    have hclosure : closureMayStart (st.mapSpans f).taken = closureMayStart st.taken :=
      closureMayStart_map st.taken
    have hturbofish : (st.mapSpans f).taken.head?.any (·.isPunct "::") =
        st.taken.head?.any (·.isPunct "::") := by
      simp [mapSpans, Option.any_map]
    simp only [push, Tree.mapSpans_punct, apply_ite (mapSpans f)]
    rw [hclosure, hturbofish]
    rfl
  | _ => rfl

end ValueState

/-- A value ends where it ended. -/
theorem valueRun_map (st : ValueState) (ts : List Tree) :
    valueRun (st.mapSpans f) (ts.map (Tree.mapSpans f)) =
      ((valueRun st ts).1.map (Tree.mapSpans f), (valueRun st ts).2.map (Tree.mapSpans f)) := by
  fun_induction valueRun st ts with
  | case1 => rfl
  | case2 st t rest h => simp [valueRun, ValueState.isEnd_mapSpans, h]
  | case3 st t rest h run ih =>
    simp [valueRun, ValueState.isEnd_mapSpans, ValueState.push_mapSpans, h, ih, run]

/-! ## Changed definitions -/

/-- The name with its span changed. -/
def Name.mapSpans (f : Span → Span) (n : Name) : Name := ⟨n.text, f n.span⟩

/-- The attribute with its spans changed. -/
def Attribute.mapSpans (f : Span → Span) (a : Attribute) : Attribute :=
  ⟨f a.pound, a.inner.map (Tree.mapSpans f), f a.brackets⟩

/-- The field with its spans changed. -/
def NamedField.mapSpans (f : Span → Span) (field : NamedField) : NamedField where
  attributes := field.attributes.map (Attribute.mapSpans f)
  name := field.name.mapSpans f
  type := field.type.map (Tree.mapSpans f)
  value := field.value.map (Tree.mapSpans f)
  span := f field.span

/-- The field with its spans changed. -/
def UnnamedField.mapSpans (f : Span → Span) (field : UnnamedField) : UnnamedField where
  attributes := field.attributes.map (Attribute.mapSpans f)
  type := field.type.map (Tree.mapSpans f)
  value := field.value.map (Tree.mapSpans f)
  span := f field.span

/-- The fields with their spans changed. -/
def Fields.mapSpans (f : Span → Span) : Fields → Fields
  | .unit => .unit
  | .named fields => .named (fields.map (NamedField.mapSpans f))
  | .unnamed fields => .unnamed (fields.map (UnnamedField.mapSpans f))

/-- The definition with its spans changed. -/
def Variant.mapSpans (f : Span → Span) (v : Variant) : Variant where
  name := v.name.mapSpans f
  attributes := v.attributes.map (Attribute.mapSpans f)
  fields := v.fields.mapSpans f
  discriminant := v.discriminant.map (List.map (Tree.mapSpans f))
  span := f v.span

/-! ## Cursors -/

/-- The second cursor stands where the first one does, in trees with changed spans. Their regions may
be different. -/
structure Cursor.Matches (f : Span → Span) (c c' : Cursor) : Prop where
  passed : c'.passed = c.passed.map (Tree.mapSpans f)
  ahead : c'.ahead = c.ahead.map (Tree.mapSpans f)

namespace Cursor.Matches

variable {c c' : Cursor}

theorem stream (h : c.Matches f c') : c'.stream = c.stream.map (Tree.mapSpans f) := by
  rw [Cursor.stream, Cursor.stream, h.passed, h.ahead, List.map_append, List.map_reverse]

theorem pos (h : c.Matches f c') : c'.pos = c.pos := by
  rw [Cursor.pos, Cursor.pos, h.passed, List.length_map]

theorem atEnd (h : c.Matches f c') : c'.atEnd = c.atEnd := by
  rw [Cursor.atEnd, Cursor.atEnd, h.ahead, List.isEmpty_map]

theorem found (h : c.Matches f c') : c'.found = c.found := by
  rw [Cursor.found, Cursor.found, Cursor.peek?, Cursor.peek?, h.ahead, List.head?_map]
  cases c.ahead.head? with
  | none => rfl
  | some t => exact t.describe_mapSpans

theorem spanSince (h : c.Matches f c') (hf : Span.IsMove f) (start : Int) :
    c'.spanSince start = f (c.spanSince start) := by
  rw [Cursor.spanSince, Cursor.spanSince, ← streamSpan_map_mapSpans hf, h.stream, h.pos]
  simp only [Text.slice, Text.place, List.length_map, List.map_take, List.map_drop]

theorem pass (h : c.Matches f c') {taken rest taken' rest' : List Tree}
    (ht : taken' = taken.map (Tree.mapSpans f)) (hr : rest' = rest.map (Tree.mapSpans f)) :
    (c.pass taken rest).Matches f (c'.pass taken' rest') where
  passed := by
    simp only [Cursor.pass]
    rw [ht, h.passed, List.map_append, List.map_reverse]
  ahead := hr

end Cursor.Matches

/-! ## Readers -/

namespace Reader

variable {α α' β β' : Type}

/-- The second outcome is the first one, changed: the values correspond, or the faults are the same,
and the cursors stand at the same place. -/
def Corresponds (f : Span → Span) (g : α → α') :
    EStateM.Result GrammarError Cursor α → EStateM.Result GrammarError Cursor α' → Prop
  | .ok a c, .ok a' c' => a' = g a ∧ c.Matches f c'
  | .error e c, .error e' c' => e'.fault = e.fault ∧ c.Matches f c'
  | _, _ => False

/-- The second reader does in changed trees what the first one does. -/
def Commutes (f : Span → Span) (g : α → α') (reader : Reader α) (reader' : Reader α') : Prop :=
  ∀ c c' : Cursor, c.Matches f c' → Corresponds f g (reader c) (reader' c')

namespace Commutes

variable {g : α → α'} {g' : β → β'} {reader : Reader α} {reader' : Reader α'}

theorem pure {a : α} {a' : α'} (h : a' = g a) :
    Commutes f g (Pure.pure a) (Pure.pure a') := fun _ _ hc => ⟨h, hc⟩

theorem refuse {fault fault' : Cursor → GrammarFault} {anchor anchor' : Cursor → Span}
    (h : ∀ c c' : Cursor, c.Matches f c' → fault' c' = fault c) :
    Commutes f g (Reader.refuse fault anchor) (Reader.refuse fault' anchor') :=
  fun c c' hc => ⟨h c c' hc, hc⟩

theorem bind {k : α → Reader β} {k' : α' → Reader β'} (h : Commutes f g reader reader')
    (hk : ∀ a, Commutes f g' (k a) (k' (g a))) :
    Commutes f g' (reader >>= k) (reader' >>= k') := by
  intro c c' hc
  have hreader := h c c' hc
  simp only [Bind.bind, EStateM.bind]
  cases hr : reader c with
  | error e d =>
    cases hr' : reader' c' with
    | error e' d' =>
      rw [hr, hr'] at hreader
      exact hreader
    | ok a' d' =>
      rw [hr, hr'] at hreader
      exact hreader.elim
  | ok a d =>
    cases hr' : reader' c' with
    | error e' d' =>
      rw [hr, hr'] at hreader
      exact hreader.elim
    | ok a' d' =>
      rw [hr, hr'] at hreader
      obtain ⟨rfl, hd⟩ := hreader
      exact hk a d d' hd

/-- A look at the cursor. -/
theorem look {k : Cursor → Reader α} {k' : Cursor → Reader α'}
    (h : ∀ c c' : Cursor, c.Matches f c' → Commutes f g (k c) (k' c')) :
    Commutes f g (get >>= k) (get >>= k') :=
  fun c c' hc => h c c' hc c c' hc

theorem ite {p p' : Prop} [Decidable p] [Decidable p'] {x y : Reader α} {x' y' : Reader α'}
    (hp : p' ↔ p) (hx : Commutes f g x x') (hy : Commutes f g y y') :
    Commutes f g (if p then x else y) (if p' then x' else y') := by
  by_cases h : p
  · rwa [if_pos h, if_pos (hp.2 h)]
  · rwa [if_neg h, if_neg (fun h' => h (hp.1 h'))]

/-- A reader that refuses goes nowhere, whatever comes behind it. -/
theorem refuse_bind {γ γ' : Type} {k : γ → Reader α} {k' : γ' → Reader α'}
    {fault fault' : Cursor → GrammarFault} {anchor anchor' : Cursor → Span}
    (h : ∀ c c' : Cursor, c.Matches f c' → fault' c' = fault c) :
    Commutes f g (Reader.refuse fault anchor >>= k) (Reader.refuse fault' anchor' >>= k') :=
  fun c c' hc => ⟨h c c' hc, hc⟩

end Commutes

theorem eat?_commutes (op : String) : Commutes f (Option.map f) (eat? op) (eat? op) := by
  intro c c' hc
  unfold eat?
  rw [hc.ahead]
  cases ha : c.ahead with
  | nil => exact ⟨rfl, hc⟩
  | cons t rest =>
    simp only [List.map_cons, Tree.isPunct_mapSpans]
    by_cases h : t.isPunct op = true
    · rw [if_pos h, if_pos h]
      exact ⟨by simp, hc.pass rfl rfl⟩
    · rw [if_neg h, if_neg h]
      exact ⟨rfl, hc⟩

theorem expect_commutes (op context : String) :
    Commutes f f (expect op context) (expect op context) := by
  refine (eat?_commutes op).bind ?_
  rintro (_ | span)
  · exact .refuse fun c c' hc => by rw [hc.found]
  · exact .pure rfl

theorem name_commutes (what : String) : Commutes f (Name.mapSpans f) (name what) (name what) := by
  intro c c' hc
  have hfault : GrammarFault.expectedName what c'.found = .expectedName what c.found := by rw [hc.found]
  unfold name
  rw [hc.ahead]
  cases ha : c.ahead with
  | nil => exact ⟨hfault, hc⟩
  | cons t rest =>
    cases t with
    | ident text span =>
      simp only [List.map_cons, Tree.mapSpans_ident]
      by_cases h : isKeyword text = true
      · rw [if_pos h, if_pos h]
        exact ⟨hfault, hc⟩
      · rw [if_neg h, if_neg h]
        exact ⟨rfl, hc.pass rfl rfl⟩
    | punct op span => exact ⟨hfault, hc⟩
    | literal kind text span => exact ⟨hfault, hc⟩
    | group d stream span => exact ⟨hfault, hc⟩

theorem valueTrees_commutes :
    Commutes f (List.map (Tree.mapSpans f)) valueTrees valueTrees := by
  intro c c' hc
  have hrun := valueRun_map (f := f) {} c.ahead
  unfold valueTrees
  rw [hc.ahead, show valueRun {} (c.ahead.map (Tree.mapSpans f)) = _ from hrun]
  exact ⟨rfl, hc.pass rfl rfl⟩

theorem typeTrees_commutes (hf : Span.IsMove f) :
    Commutes f (List.map (Tree.mapSpans f)) typeTrees typeTrees := by
  intro c c' hc
  unfold typeTrees
  rw [hc.ahead, typeRun_map hf]
  exact ⟨rfl, hc.pass rfl rfl⟩

theorem attributesFrom_stop {region : Span} {passed ahead : List Tree}
    (h : ∀ pound rest, ahead ≠ .punct "#" pound :: rest) :
    attributesFrom region passed ahead = .ok [] ⟨passed, ahead, region⟩ := by
  unfold attributesFrom
  split
  · exact absurd rfl (h _ _)
  · exact absurd rfl (h _ _)
  · rfl

theorem attributesFrom_commutes (region region' : Span) (passed ahead : List Tree) :
    Corresponds f (List.map (Attribute.mapSpans f)) (attributesFrom region passed ahead)
      (attributesFrom region' (passed.map (Tree.mapSpans f)) (ahead.map (Tree.mapSpans f))) := by
  fun_induction attributesFrom region passed ahead with
  | case1 passed pound inner brackets ahead attributes c he ih =>
    simp only [List.map_cons, Tree.mapSpans_punct, Tree.mapSpans_group] at ih ⊢
    rw [he] at ih
    rw [attributesFrom]
    split
    · rename_i he'
      rw [he'] at ih
      exact ⟨by rw [ih.1]; rfl, ih.2⟩
    · rename_i he'
      rw [he'] at ih
      exact ih.elim
  | case2 passed pound inner brackets ahead e c he ih =>
    simp only [List.map_cons, Tree.mapSpans_punct, Tree.mapSpans_group] at ih ⊢
    rw [he] at ih
    rw [attributesFrom]
    split
    · rename_i he'
      rw [he'] at ih
      exact ih.elim
    · rename_i he'
      rw [he'] at ih
      exact ih
  | case3 passed pound ahead hne =>
    have hne' : ∀ inner brackets rest,
        ahead.map (Tree.mapSpans f) ≠ .group .bracket inner brackets :: rest := by
      intro inner brackets rest h
      obtain ⟨t, ts, rfl, ht, -⟩ := List.map_eq_cons_iff.1 h
      cases t with
      | group d stream span =>
        rw [Tree.mapSpans_group] at ht
        cases ht
        exact hne stream span ts rfl
      | _ => cases ht
    have hc : (Cursor.mk (.punct "#" pound :: passed) ahead region).Matches f
        ⟨.punct "#" (f pound) :: passed.map (Tree.mapSpans f), ahead.map (Tree.mapSpans f), region'⟩ :=
      ⟨rfl, rfl⟩
    simp only [List.map_cons, Tree.mapSpans_punct]
    unfold attributesFrom
    split
    · rename_i h
      exact absurd (List.cons.inj h).2 (hne' _ _ _)
    · rename_i h
      cases h
      exact ⟨congrArg GrammarFault.expectedBracket hc.found, hc⟩
    · rename_i _ h
      exact absurd rfl (h _ _)
  | case4 passed ahead _ hne =>
    rw [attributesFrom_stop]
    · exact ⟨rfl, rfl, rfl⟩
    · intro pound rest h
      obtain ⟨t, ts, rfl, ht, -⟩ := List.map_eq_cons_iff.1 h
      cases t with
      | punct op span =>
        cases ht
        exact hne span ts rfl
      | _ => cases ht

theorem attributes_commutes :
    Commutes f (List.map (Attribute.mapSpans f)) attributes attributes := by
  intro c c' hc
  have h := attributesFrom_commutes (f := f) c.region c'.region c.passed c.ahead
  rwa [← hc.passed, ← hc.ahead] at h

theorem anchoredFrom_commutes {g : α → α'} {reader : Reader α} {reader' : Reader α'} (start : Nat)
    (h : Commutes f g reader reader') :
    Commutes f g (anchoredFrom start reader) (anchoredFrom start reader') := by
  intro c c' hc
  have hreader := h c c' hc
  unfold anchoredFrom
  cases hr : reader c <;> cases hr' : reader' c' <;> rw [hr, hr'] at hreader <;> exact hreader

end Reader

/-- Whether trees are a type does not depend on spans. -/
theorem TypeExpr.ofTrees_map (hf : Span.IsMove f) (ts : List Tree) :
    ofTrees (ts.map (Tree.mapSpans f)) = (ofTrees ts).mapError fun e => ⟨e.fault, f e.span⟩ := by
  unfold ofTrees
  rw [renderSpaced, streamWords_map_mapSpans, ← renderSpaced, streamSpan_map_mapSpans hf,
    List.isEmpty_map]
  split
  · rfl
  · cases parse (renderSpaced ts).toList <;> rfl

namespace Reader

variable {α α' : Type}

theorem typeAndValue_commutes (hf : Span.IsMove f) (start : Nat) (label : FieldLabel) :
    Commutes f (Prod.map (List.map (Tree.mapSpans f)) (List.map (Tree.mapSpans f)))
      (typeAndValue start label) (typeAndValue start label) := by
  refine (typeTrees_commutes hf).bind fun type => .ite (by simp) ?_ ?_
  · exact .refuse_bind fun c c' hc => by rw [hc.found]
  refine (eat?_commutes "=").bind fun found => .ite (by simp) ?_ ?_
  · exact .refuse_bind fun c c' hc => by rw [hc.found]
  rw [TypeExpr.ofTrees_map hf]
  cases TypeExpr.ofTrees type with
  | error e => exact .refuse_bind fun _ _ _ => rfl
  | ok ty =>
    refine valueTrees_commutes.bind fun value => .ite (by simp) ?_ (.pure rfl)
    exact .refuse_bind fun _ _ _ => rfl

theorem namedEntry_commutes (hf : Span.IsMove f) :
    Commutes f (NamedField.mapSpans f) namedEntry namedEntry := by
  have hname : Commutes f (Name.mapSpans f) (do
      let name ← name "field name"
      let _ ← expect ":" ("after field name `" ++ name.text ++ "`")
      return name) (do
      let name ← name "field name"
      let _ ← expect ":" ("after field name `" ++ name.text ++ "`")
      return name) :=
    (name_commutes _).bind fun name => (expect_commutes _ _).bind fun _ => .pure rfl
  refine .look fun c c' hc => ?_
  simp only [hc.pos]
  refine attributes_commutes.bind fun as => (anchoredFrom_commutes c.pos hname).bind fun name => ?_
  refine (typeAndValue_commutes hf _ _).bind fun r => .look fun d d' hd => .pure ?_
  rw [hd.spanSince hf]
  rfl

theorem unnamedEntry_commutes (hf : Span.IsMove f) (index : Nat) :
    Commutes f (UnnamedField.mapSpans f) (unnamedEntry index) (unnamedEntry index) := by
  refine .look fun c c' hc => ?_
  simp only [hc.pos]
  refine attributes_commutes.bind fun as => ?_
  refine (typeAndValue_commutes hf _ _).bind fun r => .look fun d d' hd => .pure ?_
  rw [hd.spanSince hf]
  rfl

theorem another_commutes : Commutes f id another another := by
  refine .look fun c c' hc => .ite (by rw [hc.atEnd]) (.pure rfl) ?_
  refine (expect_commutes _ _).bind fun _ => .look fun d d' hd => .pure ?_
  rw [hd.atEnd]
  rfl

theorem entries_commutes {g : α → α'} {entry : Nat → Reader α} {entry' : Nat → Reader α'}
    (h : ∀ index, Commutes f g (entry index) (entry' index)) (limit index : Nat) :
    Commutes f (List.map g) (entries entry limit index) (entries entry' limit index) := by
  induction limit generalizing index with
  | zero => exact .pure rfl
  | succ limit ih =>
    refine .look fun c c' hc => .ite (by rw [hc.atEnd]) (.pure rfl) ?_
    refine (h index).bind fun first => another_commutes.bind fun more => .ite (by simp) ?_ (.pure rfl)
    exact (ih (index + 1)).bind fun as => .pure rfl

theorem allEntries_commutes {g : α → α'} {entry : Nat → Reader α} {entry' : Nat → Reader α'}
    (h : ∀ index, Commutes f g (entry index) (entry' index)) :
    Commutes f (List.map g) (allEntries entry) (allEntries entry') := by
  refine .look fun c c' hc => ?_
  simp only [hc.ahead, List.length_map]
  exact entries_commutes h _ _

theorem namedFields_commutes (hf : Span.IsMove f) :
    Commutes f (Fields.mapSpans f) namedFields namedFields :=
  (allEntries_commutes fun _ => namedEntry_commutes hf).bind fun _ => .pure rfl

theorem unnamedFields_commutes (hf : Span.IsMove f) :
    Commutes f (Fields.mapSpans f) unnamedFields unnamedFields :=
  (allEntries_commutes (unnamedEntry_commutes hf)).bind fun _ => .pure rfl

theorem inside_commutes {g : α → α'} {reader : Reader α} {reader' : Reader α'}
    (h : Commutes f g reader reader') (d : Delimiter) (inner : List Tree) (span : Span)
    (rest : List Tree) : Commutes f g (inside d inner span rest reader)
      (inside d (inner.map (Tree.mapSpans f)) (f span) (rest.map (Tree.mapSpans f)) reader') := by
  intro c c' hc
  have hreader := h ⟨[], inner, span⟩ ⟨[], inner.map (Tree.mapSpans f), f span⟩ ⟨rfl, rfl⟩
  unfold inside
  cases hr : reader ⟨[], inner, span⟩ <;>
    cases hr' : reader' ⟨[], inner.map (Tree.mapSpans f), f span⟩ <;> rw [hr, hr'] at hreader
  · exact ⟨hreader.1, hc.pass (by simp [hreader.2.stream]) rfl⟩
  · exact hreader.elim
  · exact hreader.elim
  · exact ⟨hreader.1, hc.pass (by simp [hreader.2.stream]) rfl⟩

theorem fieldGroup_commutes (hf : Span.IsMove f) :
    Commutes f (Fields.mapSpans f) fieldGroup fieldGroup := by
  intro c c' hc
  unfold fieldGroup
  rw [hc.ahead]
  cases ha : c.ahead with
  | nil => exact ⟨rfl, hc⟩
  | cons t rest =>
    cases t with
    | group d inner span =>
      simp only [List.map_cons, Tree.mapSpans_group]
      cases d with
      | brace => exact inside_commutes (namedFields_commutes hf) _ _ _ _ c c' hc
      | paren => exact inside_commutes (unnamedFields_commutes hf) _ _ _ _ c c' hc
      | bracket | invisible => exact ⟨rfl, hc⟩
    | ident text span => exact ⟨rfl, hc⟩
    | punct op span => exact ⟨rfl, hc⟩
    | literal kind text span => exact ⟨rfl, hc⟩

theorem discriminant_commutes (name : String) :
    Commutes f (Option.map (List.map (Tree.mapSpans f))) (discriminant name) (discriminant name) := by
  refine (eat?_commutes "=").bind ?_
  rintro (_ | span)
  · exact .pure rfl
  · refine valueTrees_commutes.bind fun value => .ite (by simp) ?_ (.pure rfl)
    exact .refuse_bind fun _ _ _ => rfl

theorem visibility_of_ne {c : Cursor} (h : ∀ span rest, c.ahead ≠ .ident "pub" span :: rest) :
    visibility c = .ok () c := by
  unfold visibility
  split
  · exact absurd ‹_› (h _ _)
  · exact absurd ‹_› (h _ _)
  · rfl

theorem visibility_commutes : Commutes f id visibility visibility := by
  intro c c' hc
  by_cases hpub : ∃ span rest, c.ahead = .ident "pub" span :: rest
  · obtain ⟨span, rest, ha⟩ := hpub
    unfold visibility
    rw [hc.ahead, ha]
    match rest with
    | .group .paren inner parens :: .ident name nameSpan :: rest =>
      simp only [List.map_cons, Tree.mapSpans_ident, Tree.mapSpans_group]
      exact ⟨rfl, hc.pass (by simp) (by simp)⟩
    | [] | .group .paren _ _ :: [] | .group .paren _ _ :: .punct _ _ :: _
    | .group .paren _ _ :: .literal _ _ _ :: _ | .group .paren _ _ :: .group _ _ _ :: _
    | .group .brace _ _ :: _ | .group .bracket _ _ :: _ | .group .invisible _ _ :: _
    | .ident _ _ :: _ | .punct _ _ :: _ | .literal _ _ _ :: _ =>
      simp only [List.map_cons, List.map_nil, Tree.mapSpans_ident, Tree.mapSpans_punct,
        Tree.mapSpans_literal, Tree.mapSpans_group]
      exact ⟨rfl, hc.pass (by simp) (by simp)⟩
  · have hne : ∀ span rest, c.ahead ≠ .ident "pub" span :: rest := fun span rest h => hpub ⟨span, rest, h⟩
    have hne' : ∀ span rest, c'.ahead ≠ .ident "pub" span :: rest := by
      intro span rest h
      rw [hc.ahead] at h
      obtain ⟨t, ts, ha, ht, -⟩ := List.map_eq_cons_iff.1 h
      cases t with
      | ident text span =>
        cases ht
        exact hne span ts ha
      | _ => cases ht
    rw [visibility_of_ne hne, visibility_of_ne hne']
    exact ⟨rfl, hc⟩

theorem variant_commutes (hf : Span.IsMove f) :
    Commutes f (Variant.mapSpans f) variant variant := by
  refine attributes_commutes.bind fun as => visibility_commutes.bind fun _ => ?_
  refine (name_commutes _).bind fun name => (fieldGroup_commutes hf).bind fun fields => ?_
  refine (discriminant_commutes _).bind fun d => .look fun c c' hc => .ite (by rw [hc.atEnd]) ?_ ?_
  · refine .look fun d d' hd => .pure ?_
    rw [hd.stream, streamSpan_map_mapSpans hf]
    rfl
  · exact .refuse_bind fun c c' hc => by rw [hc.found]; rfl

end Reader

namespace Variant

/-- Two outcomes of reading a definition are the same up to spans: the second definition is the first
one with its spans changed, or both are refused for the same reason. -/
def SameUpTo (f : Span → Span) : Except GrammarError Variant → Except GrammarError Variant → Prop
  | .ok v, .ok v' => v' = v.mapSpans f
  | .error e, .error e' => e'.fault = e.fault
  | _, _ => False

/-- Reading trees with changed spans, in any region. -/
theorem parse_mapSpans (hf : Span.IsMove f) (stream : List Tree) (span span' : Span) :
    SameUpTo f (Variant.parse stream span).result
      (Variant.parse (stream.map (Tree.mapSpans f)) span').result := by
  unfold Variant.parse Reader.over
  generalize span.orElse (streamSpan stream) = region
  generalize span'.orElse (streamSpan (stream.map (Tree.mapSpans f))) = region'
  have h := Reader.variant_commutes hf ⟨[], stream, region⟩
    ⟨[], stream.map (Tree.mapSpans f), region'⟩ ⟨rfl, rfl⟩
  cases hr : Reader.variant ⟨[], stream, region⟩ <;>
    cases hr' : Reader.variant ⟨[], stream.map (Tree.mapSpans f), region'⟩ <;> rw [hr, hr'] at h
  · exact h.1
  · exact h.elim
  · exact h.elim
  · exact h.1

end Variant

end InlineVariants
