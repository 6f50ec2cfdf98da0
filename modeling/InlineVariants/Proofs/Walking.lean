import InlineVariants.Marker
import InlineVariants.Proofs.Splitting

/-!
# Walks without a limit and without a past

The walk over a list of trees is limited by the depth of the list, and it threads what has been
collected before. Neither matters: a walk is one level of itself at every depth (`walk_eq`), and what
it collects and builds is put behind what was there (`walk_appends`).

The markers that a walk comes by are told apart by where they stand and how they are reached
(`Walker.visits`). Main statement: what a walk collects is one declaration for every visited marker
that can be read and one diagnostic for every other one, in the order of the visits
(`walkLevel_results`).
-/

namespace InlineVariants

/-! ## Depth -/

theorem depthOf_append (ts us : List Tree) : depthOf (ts ++ us) = max (depthOf ts) (depthOf us) := by
  induction ts with
  | nil => simp [depthOf]
  | cons t ts ih => simp only [List.cons_append, depthOf, ih]; omega

theorem depthOf_le_of_part {ts us : List Tree} (h : ts <:+: us) : depthOf ts ≤ depthOf us := by
  obtain ⟨pre, post, rfl⟩ := h
  simp only [depthOf_append]; omega

theorem depthOf_lt_of_group_mem {d : Delimiter} {contents ts : List Tree} {span : Span}
    (h : .group d contents span ∈ ts) : depthOf contents < depthOf ts := by
  obtain ⟨pre, post, rfl⟩ := List.append_of_mem h
  simp only [depthOf_append, depthOf, Tree.depth]; omega

namespace Variant

/-- The lists of trees in which a definition may hold further markers: its values, and then its
discriminant. -/
def payloads (v : Variant) : List (List Tree) := v.fields.values ++ v.discriminant.toList

/-- A payload of a definition is a stretch of the marker's contents or of a group in them. -/
theorem TakenFrom.payload_part {v : Variant} {contents value : List Tree}
    (h : v.TakenFrom contents) (hv : value ∈ v.payloads) :
    value <:+: contents ∨ ∃ d inner span, .group d inner span ∈ contents ∧ value <:+: inner := by
  obtain ⟨before, ahead, rest, rfl, hfields, hd⟩ := h
  rcases List.mem_append.1 hv with hv | hv
  · obtain ⟨name, attributes, fields, discriminant, span⟩ := v
    cases fields with
    | unit => simp [Fields.values] at hv
    | named fs =>
      obtain ⟨inner, span, rfl, -, hs⟩ := hfields
      obtain ⟨f, hf, rfl⟩ := List.mem_map.1 hv
      exact .inr ⟨.brace, inner, span, by simp, hs.isInfix (List.mem_flatMap.2 ⟨f, hf, by simp⟩)⟩
    | unnamed fs =>
      obtain ⟨inner, span, rfl, -, hs⟩ := hfields
      obtain ⟨f, hf, rfl⟩ := List.mem_map.1 hv
      exact .inr ⟨.paren, inner, span, by simp, hs.isInfix (List.mem_flatMap.2 ⟨f, hf, by simp⟩)⟩
  · have hrest : rest <:+ before ++ v.name.tree :: ahead :=
      hfields.rest_suffix.trans ((List.suffix_cons _ _).trans (List.suffix_append _ _))
    exact .inl ((hd value (by simpa using hv)).2.trans hrest.isInfix)

/-- The payloads of a definition are not nested deeper than the marker's contents. -/
theorem TakenFrom.depthOf_le {v : Variant} {contents value : List Tree} (h : v.TakenFrom contents)
    (hv : value ∈ v.payloads) : depthOf value ≤ depthOf contents := by
  rcases h.payload_part hv with hi | ⟨d, inner, span, hmem, hi⟩
  · exact depthOf_le_of_part hi
  · exact (depthOf_le_of_part hi).trans (depthOf_lt_of_group_mem hmem).le

theorem depthOf_payload_le {contents value : List Tree} {span : Span} {v : Variant}
    (h : (Variant.parse contents span).result = .ok v) (hv : value ∈ v.payloads) :
    depthOf value ≤ depthOf contents :=
  ((Variant.parse_spec contents span).2 v h).depthOf_le hv

end Variant

/-! ## Walks that append -/

namespace Collected

/-- What two walks have collected, one after the other. -/
def append (c d : Collected) : Collected where
  declarations := c.declarations ++ d.declarations
  diagnostics := c.diagnostics ++ d.diagnostics
  events := c.events ++ d.events

instance : Append Collected := ⟨append⟩

@[simp] theorem declarations_append (c d : Collected) :
    (c ++ d).declarations = c.declarations ++ d.declarations := rfl

@[simp] theorem diagnostics_append (c d : Collected) :
    (c ++ d).diagnostics = c.diagnostics ++ d.diagnostics := rfl

@[simp] theorem events_append (c d : Collected) : (c ++ d).events = c.events ++ d.events := rfl

@[ext] theorem ext {c d : Collected} (h1 : c.declarations = d.declarations)
    (h2 : c.diagnostics = d.diagnostics) (h3 : c.events = d.events) : c = d := by
  cases c; cases d; simp_all

@[simp] theorem append_empty (c : Collected) : c ++ ({} : Collected) = c := by
  ext1 <;> simp

@[simp] theorem empty_append (c : Collected) : ({} : Collected) ++ c = c := by
  ext1 <;> simp

theorem append_assoc (c d e : Collected) : c ++ d ++ e = c ++ (d ++ e) := by
  ext1 <;> simp

/-- What several walks have collected, one after the other. -/
def concat : List Collected → Collected
  | [] => {}
  | c :: cs => c ++ concat cs

theorem declarations_concat (cs : List Collected) :
    (concat cs).declarations = cs.flatMap declarations := by
  induction cs with
  | nil => rfl
  | cons c cs ih => simp [concat, ih]

theorem diagnostics_concat (cs : List Collected) :
    (concat cs).diagnostics = cs.flatMap diagnostics := by
  induction cs with
  | nil => rfl
  | cons c cs ih => simp [concat, ih]

theorem concat_append (cs ds : List Collected) : concat (cs ++ ds) = concat cs ++ concat ds := by
  induction cs with
  | nil => simp [concat]
  | cons c cs ih => simp [concat, ih, append_assoc]

theorem concat_flatMap {α : Type} (f : α → List Collected) (as : List α) :
    concat (as.flatMap f) = concat (as.map fun a => concat (f a)) := by
  induction as with
  | nil => rfl
  | cons a as ih => simp [concat, concat_append, ih]

/-- What has been collected, without the events. -/
def results (c : Collected) : Collected := { c with events := [] }

@[simp] theorem results_append (c d : Collected) : (c ++ d).results = c.results ++ d.results := rfl

theorem results_concat (cs : List Collected) : (concat cs).results = concat (cs.map results) := by
  induction cs with
  | nil => rfl
  | cons c cs ih => simp [concat, ih]

end Collected

namespace Walk

variable {α : Type}

/-- A walk appends if what it collects is put behind what was there, and neither that nor what it
builds depends on what was there. -/
def Appends (walk : Walk α) : Prop := ∀ c a, walk c a = (c ++ (walk {} a).1, (walk {} a).2)

theorem Appends.each_eq {walk : Walk α} (h : walk.Appends) (c : Collected) (as : List α) :
    Walk.each walk c as =
      (c ++ .concat (as.map fun a => (walk {} a).1), as.map fun a => (walk {} a).2) := by
  induction as generalizing c with
  | nil => simp [Walk.each, Collected.concat]
  | cons a as ih =>
    simp only [Walk.each, h c a, ih, List.map_cons, Collected.concat, Collected.append_assoc]

end Walk

/-- The fields with their values replaced. -/
def Fields.mapValues (f : List Tree → List Tree) : Fields → Fields
  | .unit => .unit
  | .named fs => .named (fs.map fun field => { field with value := f field.value })
  | .unnamed fs => .unnamed (fs.map fun field => { field with value := f field.value })

namespace Variant

/-- The variant with its values and its discriminant replaced. -/
def mapPayloads (f : List Tree → List Tree) (v : Variant) : Variant :=
  { v with fields := v.fields.mapValues f, discriminant := v.discriminant.map f }

theorem mapPayloads_congr {f g : List Tree → List Tree} {v : Variant}
    (h : ∀ value ∈ v.payloads, f value = g value) : v.mapPayloads f = v.mapPayloads g := by
  obtain ⟨name, attributes, fields, discriminant, span⟩ := v
  have hd : discriminant.map f = discriminant.map g :=
    Option.map_congr fun value hv => h value (by simp [payloads, hv])
  have hf : fields.mapValues f = fields.mapValues g := by
    cases fields with
    | unit => rfl
    | named fs | unnamed fs =>
      simp only [Fields.mapValues]
      congr 1
      refine List.map_congr_left fun field hfield => ?_
      rw [h field.value (List.mem_append_left _ (List.mem_map_of_mem hfield))]
  simp only [mapPayloads, hd, hf]

section

variable {walk : Walk (List Tree)} (h : walk.Appends)

include h

theorem walkFields_eq (c : Collected) (fields : Fields) :
    walkFields walk c fields =
      (c ++ .concat (fields.values.map fun value => (walk {} value).1),
        fields.mapValues fun value => (walk {} value).2) := by
  cases fields with
  | unit => simp [walkFields, Fields.values, Collected.concat, Fields.mapValues]
  | named fs =>
    have hf : Walk.Appends fun c (f : NamedField) =>
        ((walk c f.value).1, { f with value := (walk c f.value).2 }) := by
      intro c f; simp [h c f.value]
    simp [walkFields, hf.each_eq, Fields.values, Fields.mapValues, Function.comp_def]
  | unnamed fs =>
    have hf : Walk.Appends fun c (f : UnnamedField) =>
        ((walk c f.value).1, { f with value := (walk c f.value).2 }) := by
      intro c f; simp [h c f.value]
    simp [walkFields, hf.each_eq, Fields.values, Fields.mapValues, Function.comp_def]

/-- The payloads are walked one after the other. -/
theorem walkPayloads_eq (c : Collected) (v : Variant) :
    v.walkPayloads walk c =
      (c ++ .concat (v.payloads.map fun value => (walk {} value).1),
        v.mapPayloads fun value => (walk {} value).2) := by
  obtain ⟨name, attributes, fields, discriminant, span⟩ := v
  simp only [walkPayloads, walkFields_eq h, payloads, List.map_append, Collected.concat_append]
  cases discriminant with
  | none => simp [walkDiscriminant, Collected.concat, mapPayloads]
  | some value =>
    simp [walkDiscriminant, h (c ++ _) value, Collected.concat, mapPayloads, Collected.append_assoc]

end

end Variant

/-! ## One level -/

theorem insertIdx_append {α : Type} (as bs : List α) (b : α) :
    (as ++ bs).insertIdx as.length b = as ++ b :: bs := by
  induction as with
  | nil => rfl
  | cons a as ih => simp [ih]

namespace Walker

variable (w : Walker) {inner : Walk (List Tree)} {contents : List Tree} {nameSpan groupSpan : Span}

/-- A marker that cannot be read is reported and made inert. -/
theorem expand_error (c : Collected) {e : GrammarError}
    (he : (Variant.parse contents groupSpan).result = .error e) :
    w.expand inner c nameSpan contents groupSpan =
      (c ++ { diagnostics := [rejection e (nameSpan.join groupSpan)],
              events := [.rejected (nameSpan.join groupSpan) e.message] },
        inertGroup (Variant.parse contents groupSpan).stream (nameSpan.join groupSpan)) := by
  unfold expand
  simp only [he]
  congr 1
  ext1 <;> simp [Collected.report, Collected.note]

/-- The declaration of a marker comes in front of what its payloads declare. -/
theorem expand_ok (h : inner.Appends) (c : Collected) {v : Variant}
    (hv : (Variant.parse contents groupSpan).result = .ok v) :
    w.expand inner c nameSpan contents groupSpan =
      (c ++ ({ declarations := [(v.mapPayloads fun value => (inner {} value).2).declaration] } ++
          (.concat (v.payloads.map fun value => (inner {} value).1) ++
            { events := [.accepted (nameSpan.join groupSpan) w.enum v.name.text] })),
        w.constructionGroup (v.mapPayloads fun value => (inner {} value).2)
          (nameSpan.join groupSpan)) := by
  unfold expand
  simp only [hv, Variant.walkPayloads_eq h c]
  congr 1
  ext1 <;> simp [Collected.note, Collected.declare, insertIdx_append]

theorem expand_appends (h : inner.Appends) (c : Collected) :
    w.expand inner c nameSpan contents groupSpan =
      (c ++ (w.expand inner {} nameSpan contents groupSpan).1,
        (w.expand inner {} nameSpan contents groupSpan).2) := by
  cases hr : (Variant.parse contents groupSpan).result with
  | error e => simp only [w.expand_error _ hr, Collected.empty_append]
  | ok v => simp only [w.expand_ok h _ hr, Collected.empty_append]

/-- The replacement of a marker is an invisible group that begins with `::`. -/
theorem expand_shape (inner : Walk (List Tree)) (c : Collected) (nameSpan : Span)
    (contents : List Tree) (groupSpan : Span) : ∃ trees,
    (w.expand inner c nameSpan contents groupSpan).2 =
      .group .invisible (Tree.mark "::" :: trees) (nameSpan.join groupSpan) := by
  unfold expand
  dsimp only
  split <;> exact ⟨_, rfl⟩

/-- Whether a marker that counts stands in front, by the tree before it. -/
def marks (before : Option Tree) : List Tree → Bool
  | .ident text _ :: .punct op _ :: .group d _ _ :: _ =>
    text = w.marker && op = "!" && d != .invisible && !before.any isQualifier
  | _ => false

/-- The tree before a place matters only if it is a qualifier. -/
theorem walkLevel_before {before before' : Option Tree}
    (h : before.any isQualifier = before'.any isQualifier) :
    w.walkLevel inner before = w.walkLevel inner before' := by
  funext c ts
  unfold walkLevel
  split <;> simp only [h]

section level

variable {before : Option Tree} {c : Collected} {rest : List Tree}

theorem walkLevel_marker {span opSpan : Span} {d : Delimiter}
    (hb : before.any isQualifier = false) (hd : d ≠ .invisible) :
    w.walkLevel inner before c
        (.ident w.marker span :: .punct "!" opSpan :: .group d contents groupSpan :: rest) =
      let replaced := w.expand inner c span contents groupSpan
      let more := w.walkLevel inner none replaced.1 rest
      (more.1, replaced.2 :: more.2) := by
  have hq : (some (w.expand inner c span contents groupSpan).2).any isQualifier =
      (none : Option Tree).any isQualifier := by
    obtain ⟨trees, he⟩ := w.expand_shape inner c span contents groupSpan
    rw [he]; rfl
  rw [walkLevel]
  simp [hb, hd, w.walkLevel_before hq]

theorem walkLevel_group {span : Span} {d : Delimiter} (hd : d ≠ .invisible) :
    w.walkLevel inner before c (.group d contents span :: rest) =
      let walked := inner c contents
      let more := w.walkLevel inner none walked.1 rest
      (more.1, .group d walked.2 span :: more.2) := by
  have hq : (some (Tree.group d (inner c contents).2 span)).any isQualifier =
      (none : Option Tree).any isQualifier := rfl
  rw [walkLevel]
  simp [hd, w.walkLevel_before hq]

theorem walkLevel_keep {t : Tree} (hm : w.marks before (t :: rest) = false)
    (ht : ∀ d contents span, t = .group d contents span → d = .invisible) :
    w.walkLevel inner before c (t :: rest) =
      let more := w.walkLevel inner (some t) c rest
      (more.1, t :: more.2) := by
  rw [walkLevel.eq_def]
  split
  · rename_i heq
    cases heq
  · rename_i heq
    cases heq
    rw [marks] at hm
    simp [hm]
  · rename_i d contents span _ heq
    cases heq
    simp [ht d contents span rfl]
  · rename_i heq
    cases heq
    rfl

end level

theorem eq_of_marks {before : Option Tree} {ts : List Tree} (h : w.marks before ts = true) :
    ∃ span opSpan d contents groupSpan rest, ts =
        .ident w.marker span :: .punct "!" opSpan :: .group d contents groupSpan :: rest ∧
      d ≠ .invisible ∧ before.any isQualifier = false := by
  unfold marks at h
  split at h
  · rename_i text span op opSpan d contents groupSpan rest
    simp only [Bool.and_eq_true, decide_eq_true_eq, bne_iff_ne, Bool.not_eq_true'] at h
    obtain ⟨⟨⟨rfl, rfl⟩, hd⟩, hb⟩ := h
    exact ⟨span, opSpan, d, contents, groupSpan, rest, rfl, hd, hb⟩
  · cases h

/-- Induction along a walk: through groups, through the payloads of the markers that can be read, and
along every list. -/
theorem walk_induction {motive : Option Tree → List Tree → Prop}
    (nil : ∀ before, motive before [])
    (marker : ∀ before span opSpan d contents groupSpan rest, before.any isQualifier = false →
      d ≠ .invisible →
      (∀ v, (Variant.parse contents groupSpan).result = .ok v →
        ∀ value ∈ v.payloads, motive none value) →
      motive none rest →
      motive before
        (.ident w.marker span :: .punct "!" opSpan :: .group d contents groupSpan :: rest))
    (group : ∀ before d contents span rest, d ≠ .invisible → motive none contents →
      motive none rest → motive before (.group d contents span :: rest))
    (keep : ∀ before t rest, w.marks before (t :: rest) = false →
      (∀ d contents span, t = .group d contents span → d = .invisible) →
      motive (some t) rest → motive before (t :: rest))
    (before : Option Tree) (ts : List Tree) : motive before ts := by
  cases ts with
  | nil => exact nil before
  | cons t rest =>
    by_cases hm : w.marks before (t :: rest) = true
    · obtain ⟨span, opSpan, d, contents, groupSpan, rest', heq, hd, hb⟩ := w.eq_of_marks hm
      rw [heq]
      refine marker before span opSpan d contents groupSpan rest' hb hd ?_ ?_
      · intro v hv value hvalue
        have := Variant.depthOf_payload_le hv hvalue
        exact walk_induction nil marker group keep none value
      · exact walk_induction nil marker group keep none rest'
    · by_cases ht : ∃ d contents span, t = .group d contents span ∧ d ≠ .invisible
      · obtain ⟨d, contents, span, ht, hd⟩ := ht
        rw [ht]
        exact group before d contents span rest hd (walk_induction nil marker group keep none contents)
          (walk_induction nil marker group keep none rest)
      · refine keep before t rest (by simpa using hm) ?_
          (walk_induction nil marker group keep (some t) rest)
        intro d contents span h
        by_contra hd
        exact ht ⟨d, contents, span, h, hd⟩
termination_by (depthOf ts, ts.length)
decreasing_by
  · rw [heq]
    exact .left _ _ (by simp only [depthOf, Tree.depth]; omega)
  · rw [heq]
    exact .right' _ (by simp only [depthOf]; omega) (by simp only [List.length_cons]; omega)
  · rw [ht]
    exact .left _ _ (by simp only [depthOf, Tree.depth]; omega)
  · exact .right' _ (by simp only [depthOf]; omega) (by simp only [List.length_cons]; omega)
  · exact .right' _ (by simp only [depthOf]; omega) (by simp only [List.length_cons]; omega)

theorem walkLevel_appends (h : inner.Appends) (before : Option Tree) :
    (w.walkLevel inner before).Appends := by
  intro c ts
  induction before, ts using w.walk_induction generalizing c with
  | nil before => simp [walkLevel]
  | marker before span opSpan d contents groupSpan rest hb hd _ ih =>
    simp only [w.walkLevel_marker hb hd]
    rw [ih, w.expand_appends h c, ih (w.expand inner {} _ _ _).1, Collected.append_assoc]
  | group before d contents span rest hd _ ih =>
    simp only [w.walkLevel_group hd]
    rw [ih, h c, ih (inner {} _).1, Collected.append_assoc]
  | keep before t rest hm ht ih =>
    simp only [w.walkLevel_keep hm ht]
    rw [ih]

/-- Only what the inner walk does to lists that are nested less deep matters. -/
theorem walkLevel_congr {inner' : Walk (List Tree)} (hi : inner.Appends) (hi' : inner'.Appends)
    {before : Option Tree} {c : Collected} {ts : List Tree}
    (h : ∀ c us, depthOf us < depthOf ts → inner c us = inner' c us) :
    w.walkLevel inner before c ts = w.walkLevel inner' before c ts := by
  induction before, ts using w.walk_induction generalizing c with
  | nil before => rfl
  | marker before span opSpan d contents groupSpan rest hb hd _ ih =>
    have hexpand : w.expand inner c span contents groupSpan =
        w.expand inner' c span contents groupSpan := by
      cases hr : (Variant.parse contents groupSpan).result with
      | error e => rw [w.expand_error c hr, w.expand_error c hr]
      | ok v =>
        have hv : ∀ c, ∀ value ∈ v.payloads, inner c value = inner' c value := by
          intro c value hvalue
          have := Variant.depthOf_payload_le hr hvalue
          exact h c value (by simp only [depthOf, Tree.depth]; omega)
        rw [w.expand_ok hi c hr, w.expand_ok hi' c hr,
          Variant.mapPayloads_congr fun value hvalue => by rw [hv {} value hvalue],
          List.map_congr_left fun value hvalue => by rw [hv {} value hvalue]]
    simp only [w.walkLevel_marker hb hd, hexpand]
    rw [ih fun c us hus => h c us (by simp only [depthOf]; omega)]
  | group before d contents span rest hd _ ih =>
    simp only [w.walkLevel_group hd]
    rw [h c contents (by simp only [depthOf, Tree.depth]; omega),
      ih fun c us hus => h c us (by simp only [depthOf]; omega)]
  | keep before t rest hm ht ih =>
    simp only [w.walkLevel_keep hm ht]
    rw [ih fun c us hus => h c us (by simp only [depthOf]; omega)]

theorem walkWithin_appends (depth : Nat) : (w.walkWithin depth).Appends := by
  induction depth with
  | zero => intro c ts; simp [walkWithin]
  | succ depth ih => exact w.walkLevel_appends ih none

theorem walkLevel_flat {before : Option Tree} {c : Collected} {ts : List Tree}
    (h : depthOf ts = 0) : w.walkLevel inner before c ts = (c, ts) := by
  induction before, ts using w.walk_induction generalizing c with
  | nil before => rfl
  | marker | group => simp [depthOf, Tree.depth] at h
  | keep before t rest hm ht ih =>
    simp only [w.walkLevel_keep hm ht]
    rw [ih (by simp only [depthOf] at h; omega)]

/-- A limit that is not reached does not matter. -/
theorem walkWithin_eq_walk {depth : Nat} {c : Collected} {ts : List Tree} (h : depthOf ts ≤ depth) :
    w.walkWithin depth c ts = w.walk c ts := by
  induction depth using Nat.strong_induction_on generalizing c ts with
  | _ depth ih =>
  unfold walk
  rcases hd : depthOf ts with _ | m
  · cases depth with
    | zero => rfl
    | succ depth => exact w.walkLevel_flat hd
  · obtain ⟨n, rfl⟩ : ∃ n, depth = n + 1 := ⟨depth - 1, by omega⟩
    refine w.walkLevel_congr (w.walkWithin_appends n) (w.walkWithin_appends m) fun c us hus => ?_
    rw [ih n (by omega) (by omega), ih m (by omega) (by omega)]

theorem walk_appends : w.walk.Appends := by
  intro c ts
  exact w.walkWithin_appends (depthOf ts) c ts

/-- A walk is one level of itself at every depth. -/
theorem walk_eq (c : Collected) (ts : List Tree) : w.walk c ts = w.walkLevel w.walk none c ts := by
  rw [← w.walkWithin_eq_walk (Nat.le_succ (depthOf ts))]
  refine w.walkLevel_congr (w.walkWithin_appends _) w.walk_appends fun c us hus => ?_
  exact w.walkWithin_eq_walk (by omega)

end Walker

/-! ## Visits -/

/-- Where a definition may hold further markers. -/
inductive PayloadKind where
  | value
  | discriminant
deriving DecidableEq

/-- The payloads of a variant with their kinds: the values in field order, then the discriminant. -/
def Variant.kindedPayloads (v : Variant) : List (PayloadKind × List Tree) :=
  v.fields.values.map (PayloadKind.value, ·) ++
    v.discriminant.toList.map (PayloadKind.discriminant, ·)

theorem Variant.map_snd_kindedPayloads (v : Variant) : v.kindedPayloads.map Prod.snd = v.payloads := by
  simp [kindedPayloads, payloads, Function.comp_def]

/-- A marker that a walk comes by. -/
structure Visit where
  /-- The payloads that the marker is in, outermost first. -/
  route : List PayloadKind
  nameSpan : Span
  contents : List Tree
  groupSpan : Span

namespace Visit

/-- The visit of a marker that stands in a payload of the marker around it. -/
def within (kind : PayloadKind) (x : Visit) : Visit := { x with route := kind :: x.route }

/-- The definition that a marker stands for, if it can be read. -/
def parsed? (x : Visit) : Option Variant :=
  match (Variant.parse x.contents x.groupSpan).result with
  | .ok v => some v
  | .error _ => none

/-- The definition that a marker stands for, with the markers in its payloads replaced. -/
def definition? (w : Walker) (x : Visit) : Option Variant :=
  x.parsed?.map (.mapPayloads fun value => (w.walk {} value).2)

/-- What a walk puts in the place of a marker. -/
def replacement (w : Walker) (x : Visit) : Tree :=
  (w.expand w.walk {} x.nameSpan x.contents x.groupSpan).2

/-- What stands in the place of a marker is an invisible group with its span that begins with
`::`. -/
theorem replacement_shape (w : Walker) (route : List PayloadKind) (nameSpan : Span)
    (contents : List Tree) (groupSpan : Span) :
    ∃ trees, replacement w ⟨route, nameSpan, contents, groupSpan⟩ =
      .group .invisible (Tree.mark "::" :: trees) (nameSpan.join groupSpan) := by
  obtain ⟨trees, h⟩ := w.expand_shape w.walk {} nameSpan contents groupSpan
  exact ⟨trees, h⟩

theorem replacement_error (w : Walker) {x : Visit} {e : GrammarError}
    (h : (Variant.parse x.contents x.groupSpan).result = .error e) :
    x.replacement w = Walker.inertGroup (Variant.parse x.contents x.groupSpan).stream
      (x.nameSpan.join x.groupSpan) := by
  rw [replacement, w.expand_error {} h]

theorem replacement_ok (w : Walker) {x : Visit} {v : Variant}
    (h : (Variant.parse x.contents x.groupSpan).result = .ok v) :
    x.replacement w = w.constructionGroup (v.mapPayloads fun value => (w.walk {} value).2)
      (x.nameSpan.join x.groupSpan) := by
  rw [replacement, w.expand_ok w.walk_appends {} h]

/-- What a walk reports about a marker that cannot be read. -/
def rejection? (x : Visit) : Option Diagnostic :=
  match (Variant.parse x.contents x.groupSpan).result with
  | .ok _ => none
  | .error e => some (Walker.rejection e (x.nameSpan.join x.groupSpan))

/-- What a walk collects for a marker itself. -/
def collected (w : Walker) (x : Visit) : Collected where
  declarations := ((x.definition? w).map Variant.declaration).toList
  diagnostics := x.rejection?.toList

/-- The payloads in which further markers are visited. -/
def payloads (x : Visit) : List (PayloadKind × List Tree) :=
  match x.parsed? with
  | some v => v.kindedPayloads
  | none => []

@[simp] theorem definition?_within (w : Walker) (kind : PayloadKind) (x : Visit) :
    (x.within kind).definition? w = x.definition? w := rfl

theorem parsed?_eq_some {x : Visit} {v : Variant} :
    x.parsed? = some v ↔ (Variant.parse x.contents x.groupSpan).result = .ok v := by
  unfold parsed?
  cases (Variant.parse x.contents x.groupSpan).result <;> simp

theorem exists_of_mem_payloads {x : Visit} {p : PayloadKind × List Tree} (h : p ∈ x.payloads) :
    ∃ v, (Variant.parse x.contents x.groupSpan).result = .ok v ∧ p.2 ∈ v.payloads := by
  unfold payloads at h
  split at h
  · rename_i v hv
    exact ⟨v, parsed?_eq_some.1 hv, v.map_snd_kindedPayloads ▸ List.mem_map_of_mem h⟩
  · cases h

theorem depthOf_payload_le {x : Visit} {p : PayloadKind × List Tree} (h : p ∈ x.payloads) :
    depthOf p.2 ≤ depthOf x.contents := by
  obtain ⟨v, hv, hp⟩ := exists_of_mem_payloads h
  exact Variant.depthOf_payload_le hv hp

end Visit

namespace Walker

variable (w : Walker)

/-- The markers that a walk comes by, every marker in front of those in its payloads. A marker that
cannot be read is visited and what is in it is not. -/
def visits (before : Option Tree) : List Tree → List Visit
  | [] => []
  | .ident text span :: .punct op opSpan :: .group d contents groupSpan :: rest =>
    if text = w.marker && op = "!" && d != .invisible && !before.any isQualifier then
      let x : Visit := ⟨[], span, contents, groupSpan⟩
      x :: (x.payloads.attach.flatMap (fun p => (visits none p.1.2).map (.within p.1.1)) ++
        visits none rest)
    else visits (some (.ident text span)) (.punct op opSpan :: .group d contents groupSpan :: rest)
  | .group d contents _ :: rest =>
    (if d = .invisible then [] else visits none contents) ++ visits none rest
  | t :: rest => visits (some t) rest
termination_by ts => (depthOf ts, ts.length)
decreasing_by
  · have : depthOf p.1.2 ≤ depthOf contents := Visit.depthOf_payload_le p.2
    exact .left _ _ (by simp only [depthOf, Tree.depth]; omega)
  · exact .right' _ (by simp only [depthOf]; omega) (by simp only [List.length_cons]; omega)
  · exact .right' _ (by simp only [depthOf]; omega) (by simp only [List.length_cons]; omega)
  · exact .left _ _ (by simp only [depthOf, Tree.depth]; omega)
  · exact .right' _ (by simp only [depthOf]; omega) (by simp only [List.length_cons]; omega)
  · exact .right' _ (by simp only [depthOf]; omega) (by simp only [List.length_cons]; omega)

theorem visits_before {before before' : Option Tree} {ts : List Tree}
    (h : before.any isQualifier = before'.any isQualifier) :
    w.visits before ts = w.visits before' ts := by
  unfold visits
  split <;> simp only [h]

section equations

variable {before : Option Tree} {contents rest : List Tree} {span opSpan groupSpan : Span}

theorem visits_marker {d : Delimiter} (hb : before.any isQualifier = false) (hd : d ≠ .invisible) :
    w.visits before
        (.ident w.marker span :: .punct "!" opSpan :: .group d contents groupSpan :: rest) =
      ⟨[], span, contents, groupSpan⟩ ::
        ((Visit.mk [] span contents groupSpan).payloads.flatMap
            (fun p => (w.visits none p.2).map (.within p.1)) ++ w.visits none rest) := by
  have hattach (ps : List (PayloadKind × List Tree)) (f : PayloadKind × List Tree → List Visit) :
      (ps.attach.flatMap fun p => f p.1) = ps.flatMap f := by simp
  rw [visits, if_pos (by simp [hb, hd]), ← hattach]

theorem visits_group {d : Delimiter} (hd : d ≠ .invisible) :
    w.visits before (.group d contents span :: rest) =
      w.visits none contents ++ w.visits none rest := by
  rw [visits]
  simp [hd]

theorem visits_keep {t : Tree} (hm : w.marks before (t :: rest) = false)
    (ht : ∀ d contents span, t = .group d contents span → d = .invisible) :
    w.visits before (t :: rest) = w.visits (some t) rest := by
  rw [visits.eq_def]
  split
  · rename_i heq
    cases heq
  · rename_i heq
    cases heq
    rw [marks] at hm
    simp [hm]
  · rename_i d contents span _ heq
    cases heq
    obtain rfl := ht d contents span rfl
    exact w.visits_before rfl
  · rename_i heq
    cases heq
    rfl

end equations

/-- What a walk builds of a list, whatever it has collected before. -/
def rewritten (before : Option Tree) (ts : List Tree) : List Tree :=
  (w.walkLevel w.walk before {} ts).2

theorem walk_snd (c : Collected) (ts : List Tree) : (w.walk c ts).2 = w.rewritten none ts := by
  rw [w.walk_appends, w.walk_eq, rewritten]

section equations

variable {before : Option Tree} {contents rest : List Tree} {span opSpan groupSpan : Span}
  {d : Delimiter}

theorem walkLevel_snd (c : Collected) :
    (w.walkLevel w.walk before c rest).2 = w.rewritten before rest := by
  rw [w.walkLevel_appends w.walk_appends, rewritten]

@[simp] theorem rewritten_nil : w.rewritten before [] = [] := rfl

theorem rewritten_marker (hb : before.any isQualifier = false) (hd : d ≠ .invisible) :
    w.rewritten before
        (.ident w.marker span :: .punct "!" opSpan :: .group d contents groupSpan :: rest) =
      Visit.replacement w ⟨[], span, contents, groupSpan⟩ :: w.rewritten none rest := by
  rw [rewritten, w.walkLevel_marker hb hd]
  dsimp only
  rw [w.walkLevel_snd]
  rfl

theorem rewritten_group (hd : d ≠ .invisible) :
    w.rewritten before (.group d contents span :: rest) =
      .group d (w.rewritten none contents) span :: w.rewritten none rest := by
  rw [rewritten, w.walkLevel_group hd]
  dsimp only
  rw [w.walkLevel_snd, w.walk_snd]

theorem rewritten_keep {t : Tree} (hm : w.marks before (t :: rest) = false)
    (ht : ∀ d contents span, t = .group d contents span → d = .invisible) :
    w.rewritten before (t :: rest) = t :: w.rewritten (some t) rest := by
  rw [rewritten, w.walkLevel_keep hm ht]
  rfl

end equations

/-- A walk collects what belongs to the visited markers, in the order of the visits. Events come in
another order: that of a marker is behind those of the markers in its payloads. -/
theorem walkLevel_results (before : Option Tree) (c : Collected) (ts : List Tree) :
    (w.walkLevel w.walk before c ts).1.results = c.results ++
      .concat ((w.visits before ts).map (Visit.collected w)) := by
  induction before, ts using w.walk_induction generalizing c with
  | nil before => simp [walkLevel, visits, Collected.concat]
  | marker before span opSpan d contents groupSpan rest hb hd ihp ih =>
    rw [w.walkLevel_marker hb hd, w.visits_marker hb hd]
    simp only [ih, List.map_cons, List.map_append, Collected.concat, Collected.concat_append]
    rw [← Collected.append_assoc, ← Collected.append_assoc]
    congr 1
    cases hr : (Variant.parse contents groupSpan).result with
    | error e =>
      have hx : (Visit.mk [] span contents groupSpan).parsed? = none := by simp [Visit.parsed?, hr]
      have hown : (Visit.mk [] span contents groupSpan).collected w =
          { diagnostics := [rejection e (span.join groupSpan)] } := by
        simp [Visit.collected, Visit.definition?, Visit.rejection?, hx, hr]
      rw [w.expand_error c hr, Collected.results_append, Visit.payloads, hx, hown]
      simp [Collected.results, Collected.concat]
    | ok v =>
      have hx : (Visit.mk [] span contents groupSpan).parsed? = some v := by simp [Visit.parsed?, hr]
      have hown : (Visit.mk [] span contents groupSpan).collected w =
          { declarations := [(v.mapPayloads fun value => (w.walk {} value).2).declaration] } := by
        simp [Visit.collected, Visit.definition?, Visit.rejection?, hx, hr]
      have hp (p : PayloadKind × List Tree) (hp : p ∈ v.kindedPayloads) :
          (w.walk {} p.2).1.results =
            .concat (((w.visits none p.2).map (.within p.1)).map (Visit.collected w)) := by
        rw [w.walk_eq, ihp v hr p.2 (v.map_snd_kindedPayloads ▸ List.mem_map_of_mem hp), List.map_map]
        exact Collected.empty_append _
      have hps : (Collected.concat (v.payloads.map fun value => (w.walk {} value).1)).results =
          .concat ((v.kindedPayloads.flatMap fun p => (w.visits none p.2).map (.within p.1)).map
            (Visit.collected w)) := by
        rw [Collected.results_concat, ← v.map_snd_kindedPayloads, List.map_flatMap,
          Collected.concat_flatMap, List.map_map, List.map_map]
        exact congrArg _ (List.map_congr_left hp)
      rw [w.expand_ok w.walk_appends c hr, Visit.payloads, hx, hown]
      simp only [Collected.results_append, hps, Collected.append_assoc]
      exact congrArg (_ ++ ·) (congrArg (_ ++ ·) (Collected.append_empty _))
  | group before d contents span rest hd ihc ih =>
    rw [w.walkLevel_group hd, w.visits_group hd]
    simp only [ih, w.walk_eq c contents, ihc, List.map_append, Collected.concat_append,
      Collected.append_assoc]
  | keep before t rest hm ht ih =>
    rw [w.walkLevel_keep hm ht, w.visits_keep hm ht, ih]

/-- A walk declares what the visited markers define, in the order of the visits, and nothing else. -/
theorem walkLevel_declarations (before : Option Tree) (c : Collected) (ts : List Tree) :
    (w.walkLevel w.walk before c ts).1.declarations = c.declarations ++
      ((w.visits before ts).filterMap (Visit.definition? w)).map Variant.declaration := by
  have h := congrArg Collected.declarations (w.walkLevel_results before c ts)
  rw [Collected.declarations_append, Collected.declarations_concat, List.flatMap_map] at h
  rw [List.map_filterMap, List.filterMap_eq_flatMap_toList]
  exact h

/-- A walk reports every visited marker that cannot be read, in the order of the visits, and nothing
else. -/
theorem walkLevel_diagnostics (before : Option Tree) (c : Collected) (ts : List Tree) :
    (w.walkLevel w.walk before c ts).1.diagnostics = c.diagnostics ++
      (w.visits before ts).filterMap Visit.rejection? := by
  have h := congrArg Collected.diagnostics (w.walkLevel_results before c ts)
  rw [Collected.diagnostics_append, Collected.diagnostics_concat, List.flatMap_map] at h
  rw [List.filterMap_eq_flatMap_toList]
  exact h

end Walker

end InlineVariants
