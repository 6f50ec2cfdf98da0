import InlineVariants.Proofs.Shapes
import Mathlib

/-!
# Declarations and constructions stay paired

A walk collects the declarations of the markers it comes by and puts their constructions into the
trees. Both come from one list of definitions, that of the visited markers: an outer marker in front
of those in its values, these in field order, and behind them those in its discriminant. The
discriminant is declared but not constructed, so the constructions in the trees are those of the
definitions that no discriminant leads to.

Main statement: `expandMarkers_paired`.
-/

namespace InlineVariants

/-! ## Trees without invisible groups -/

mutual

/-- Whether a tree holds no invisible group. -/
def Tree.isPlain : Tree → Bool
  | .group d stream _ => d != .invisible && arePlain stream
  | _ => true

/-- Whether a list of trees holds no invisible group, at any depth. -/
def arePlain : List Tree → Bool
  | [] => true
  | t :: ts => t.isPlain && arePlain ts

end

theorem arePlain_iff {ts : List Tree} : arePlain ts = true ↔ ∀ t ∈ ts, t.isPlain = true := by
  induction ts with
  | nil => simp [arePlain]
  | cons t ts ih => simp [arePlain, ih]

theorem arePlain_of_subset {ts us : List Tree} (h : ts ⊆ us) (hu : arePlain us = true) :
    arePlain ts = true :=
  arePlain_iff.2 fun t ht => arePlain_iff.1 hu t (h ht)

theorem arePlain_of_group_mem {d : Delimiter} {contents ts : List Tree} {span : Span}
    (h : .group d contents span ∈ ts) (ht : arePlain ts = true) :
    d ≠ .invisible ∧ arePlain contents = true := by
  simpa [Tree.isPlain] using arePlain_iff.1 ht _ h

theorem Splits.arePlain {ts us : List Tree} (h : Splits ts us) (ht : arePlain ts = true) :
    InlineVariants.arePlain us = true := by
  induction h with
  | nil => rfl
  | keep _ ih =>
    simp only [InlineVariants.arePlain, Bool.and_eq_true] at ht ⊢
    exact ⟨ht.1, ih ht.2⟩
  | pieces _ _ ih =>
    refine arePlain_iff.2 fun t hmem => ?_
    simp only [anglePieces, List.mem_append, List.mem_map, List.mem_cons] at hmem
    rcases hmem with ⟨i, -, rfl⟩ | rfl | hmem
    · rfl
    · rfl
    · exact arePlain_iff.1 (ih (arePlain_of_subset (List.subset_cons_self _ _) ht)) t hmem
  | inside _ _ ihin ih =>
    simp only [InlineVariants.arePlain, Tree.isPlain, Bool.and_eq_true] at ht ⊢
    exact ⟨⟨ht.1.1, ihin ht.1.2⟩, ih ht.2⟩

/-- The payloads of a definition have no invisible groups if the marker's contents have none. -/
theorem Variant.TakenFrom.arePlain {v : Variant} {contents value : List Tree}
    (h : v.TakenFrom contents) (hc : arePlain contents = true) (hv : value ∈ v.payloads) :
    InlineVariants.arePlain value = true := by
  rcases h.payload_part hv with hi | ⟨d, inner, span, hmem, hi⟩
  · exact arePlain_of_subset hi.subset hc
  · exact arePlain_of_subset hi.subset (arePlain_of_group_mem hmem hc).2

/-! ## The constructions in a list of trees -/

/-- What stands in the parentheses of `::core::convert::identity(...)`. -/
def identityArgument? : List Tree → Option (List Tree)
  | [.punct "::" _, .ident "core" _, .punct "::" _, .ident "convert" _, .punct "::" _,
      .ident "identity" _, .group .paren argument _] => some argument
  | _ => none

mutual

/-- What the invisible groups in a tree construct, an outer one in front of those in it. -/
def Tree.constructions : Tree → List (List Tree)
  | .group d stream _ =>
    (if d = .invisible then (identityArgument? stream).toList else []) ++ constructionsOf stream
  | _ => []

/-- What the invisible groups in a list of trees construct. -/
def constructionsOf : List Tree → List (List Tree)
  | [] => []
  | t :: ts => t.constructions ++ constructionsOf ts

end

theorem constructionsOf_append (ts us : List Tree) :
    constructionsOf (ts ++ us) = constructionsOf ts ++ constructionsOf us := by
  induction ts with
  | nil => rfl
  | cons t ts ih => simp [constructionsOf, ih]

theorem constructionsOf_eq_nil : ∀ {ts : List Tree}, arePlain ts = true → constructionsOf ts = []
  | [], _ => rfl
  | .ident .. :: ts, h | .punct .. :: ts, h | .literal .. :: ts, h => by
    simp only [constructionsOf, Tree.constructions, List.nil_append]
    exact constructionsOf_eq_nil (arePlain_of_subset (List.subset_cons_self _ _) h)
  | .group d contents span :: ts, h => by
    obtain ⟨hd, hc⟩ := arePlain_of_group_mem List.mem_cons_self h
    simp only [constructionsOf, Tree.constructions, hd, if_false, List.nil_append]
    rw [constructionsOf_eq_nil hc,
      constructionsOf_eq_nil (arePlain_of_subset (List.subset_cons_self _ _) h)]
    rfl

theorem constructionsOf_separated (sep : String) (items : List (List Tree)) :
    constructionsOf (separated sep items) = items.flatMap constructionsOf := by
  fun_induction separated sep items with
  | case1 => rfl
  | case2 item => simp
  | case3 item rest _ ih =>
    rw [constructionsOf_append, constructionsOf, ih, List.flatMap_cons]
    rfl

namespace Fields

theorem values_mapValues (f : List Tree → List Tree) (fields : Fields) :
    (fields.mapValues f).values = fields.values.map f := by
  cases fields <;> simp [mapValues, values, Function.comp_def]

theorem constructionsOf_constructed (fields : Fields) :
    constructionsOf fields.constructed = fields.values.flatMap constructionsOf := by
  have hlist (d : Delimiter) (hd : d ≠ .invisible) (items : List (List Tree)) :
      constructionsOf [listGroup d items] = items.flatMap constructionsOf := by
    simp [listGroup, constructionsOf, Tree.constructions, hd, constructionsOf_separated]
  cases fields with
  | unit => rfl
  | named fs =>
    rw [constructed, hlist _ (by decide), values, List.flatMap_map, List.flatMap_map]
    rfl
  | unnamed fs => rw [constructed, hlist _ (by decide)]; rfl

end Fields

/-- Inside the construction of a variant stand the constructions in its values. -/
theorem Variant.constructionsOf_construction (v : Variant) (enum : String) :
    constructionsOf (v.construction [Tree.word enum]) = v.fields.values.flatMap constructionsOf := by
  rw [Variant.construction, constructionsOf_append, constructionsOf,
    Fields.constructionsOf_constructed]
  rfl

namespace Walker

variable (w : Walker)

theorem constructions_constructionGroup (v : Variant) (span : Span) :
    (w.constructionGroup v span).constructions =
      v.construction [Tree.word w.enum] :: v.fields.values.flatMap constructionsOf := by
  rw [← v.constructionsOf_construction w.enum]
  simp [constructionGroup, Tree.constructions, absolutePathOf, pathOf, separated, identityArgument?,
    constructionsOf, Tree.mark, Tree.word]

theorem constructions_inertGroup {contents : List Tree} (span : Span)
    (h : arePlain contents = true) : (inertGroup contents span).constructions = [] := by
  simp [inertGroup, Tree.constructions, absolutePathOf, pathOf, separated, identityArgument?,
    constructionsOf, Tree.mark, Tree.word, constructionsOf_eq_nil h]

end Walker

/-! ## Visits that construct -/

/-- Whether no discriminant leads to a marker. -/
def Visit.isConstructed (x : Visit) : Bool := !x.route.contains .discriminant

/-- The definitions of visited markers, all of them or those that are constructed. -/
def Visit.constructed (w : Walker) (xs : List Visit) : List (List Tree) :=
  ((xs.filter isConstructed).filterMap (definition? w)).map (·.construction [Tree.word w.enum])

namespace Visit

variable (w : Walker)

theorem constructed_append (xs ys : List Visit) :
    constructed w (xs ++ ys) = constructed w xs ++ constructed w ys := by
  simp [constructed]

theorem constructed_cons {x : Visit} (xs : List Visit) (hx : x.route = []) :
    constructed w (x :: xs) =
      ((x.definition? w).map (·.construction [Tree.word w.enum])).toList ++ constructed w xs := by
  have hb : x.isConstructed = true := by simp [isConstructed, hx]
  cases hd : x.definition? w <;> simp [constructed, hb, hd]

theorem constructed_flatMap {α : Type} (as : List α) (f : α → List Visit) :
    constructed w (as.flatMap f) = as.flatMap fun a => constructed w (f a) := by
  induction as with
  | nil => rfl
  | cons a as ih => simp only [List.flatMap_cons, constructed_append, ih]

theorem constructed_within_value (xs : List Visit) :
    constructed w (xs.map (within .value)) = constructed w xs := by
  have hroute (x : Visit) : (x.within .value).isConstructed = x.isConstructed := by
    simp [isConstructed, within]
  simp [constructed, List.filter_map, List.filterMap_map, Function.comp_def, hroute]

theorem constructed_within_discriminant (xs : List Visit) :
    constructed w (xs.map (within .discriminant)) = [] := by
  have hroute (x : Visit) : (x.within .discriminant).isConstructed = false := by
    simp [isConstructed, within]
  simp [constructed, List.filter_map, Function.comp_def, hroute]

end Visit

/-- The constructions in rewritten trees are those of the visited markers, in the order of the visits,
without those that a discriminant leads to. -/
theorem Walker.constructionsOf_rewritten (w : Walker) (before : Option Tree) {ts : List Tree}
    (h : arePlain ts = true) :
    constructionsOf (w.rewritten before ts) = Visit.constructed w (w.visits before ts) := by
  induction before, ts using w.walk_induction with
  | nil before => rw [rewritten_nil, visits]; rfl
  | marker before span opSpan d contents groupSpan rest hb hd ihp ih =>
    obtain ⟨-, hc⟩ := arePlain_of_group_mem
      (List.mem_cons_of_mem _ (List.mem_cons_of_mem _ List.mem_cons_self)) h
    have hrest : arePlain rest = true := arePlain_of_subset (fun t ht => by simp [ht]) h
    rw [w.rewritten_marker hb hd, w.visits_marker hb hd, constructionsOf, ih hrest]
    obtain ⟨hsplits, htaken⟩ := Variant.parse_spec contents groupSpan
    cases hr : (Variant.parse contents groupSpan).result with
    | error e =>
      have hx : (Visit.mk [] span contents groupSpan).parsed? = none := by simp [Visit.parsed?, hr]
      rw [Visit.replacement_error w hr, constructions_inertGroup _ (hsplits.arePlain hc),
        Visit.constructed_cons w _ rfl]
      simp [Visit.payloads, Visit.definition?, hx]
    | ok v =>
      have hx : (Visit.mk [] span contents groupSpan).parsed? = some v := by simp [Visit.parsed?, hr]
      have hvalues : (v.fields.values.flatMap fun value => constructionsOf (w.walk {} value).2) =
          v.fields.values.flatMap fun value => Visit.constructed w (w.visits none value) := by
        refine List.flatMap_congr fun value hvalue => ?_
        have hmem : value ∈ v.payloads := List.mem_append_left _ hvalue
        rw [w.walk_snd, ihp v hr value hmem ((htaken v hr).arePlain hc hmem)]
      have hpayloads : Visit.constructed w (v.kindedPayloads.flatMap fun p =>
          (w.visits none p.2).map (.within p.1)) =
          v.fields.values.flatMap fun value => Visit.constructed w (w.visits none value) := by
        rw [Variant.kindedPayloads, List.flatMap_append, Visit.constructed_append]
        simp [List.flatMap_map, Visit.constructed_flatMap, Visit.constructed_within_value,
          Visit.constructed_within_discriminant]
      rw [Visit.replacement_ok w hr, constructions_constructionGroup, Visit.constructed_cons w _ rfl,
        Visit.constructed_append]
      simp only [Visit.payloads, Visit.definition?, hx, hpayloads, ← hvalues, Variant.mapPayloads,
        Fields.values_mapValues, List.flatMap_map]
      rfl
  | group before d contents span rest hd ihc ih =>
    obtain ⟨-, hc⟩ := arePlain_of_group_mem List.mem_cons_self h
    have hrest := arePlain_of_subset (List.subset_cons_self _ _) h
    rw [w.rewritten_group hd, w.visits_group hd, Visit.constructed_append, ← ihc hc, ← ih hrest]
    simp [constructionsOf, Tree.constructions, hd]
  | keep before t rest hm ht ih =>
    have hrest := arePlain_of_subset (List.subset_cons_self _ _) h
    have ht' : t.constructions = [] := by
      simpa [constructionsOf] using
        constructionsOf_eq_nil (arePlain_of_subset (show [t] ⊆ t :: rest by simp) h)
    rw [w.rewritten_keep hm ht, w.visits_keep hm ht, constructionsOf, ht', ih hrest, List.nil_append]

/-- Declarations and constructions come from one list of definitions: all of them are declared, and
those that no discriminant leads to are constructed, both in the order of the visits. The declaration and
the construction of one definition have its name and its fields, so whatever is constructed is declared
with the same name, as many fields and the same field names. -/
theorem expandMarkers_paired {trees : List Tree} (h : arePlain trees = true)
    (enum marker : String) :
    let w : Walker := ⟨enum, marker⟩
    let visited := w.visits none trees
    let result := expandMarkers trees enum marker
    result.1.declarations = (visited.filterMap (Visit.definition? w)).map Variant.declaration ∧
    constructionsOf result.2 =
      ((visited.filter fun x => !x.route.contains .discriminant).filterMap
        (Visit.definition? w)).map (·.construction [Tree.word enum]) ∧
    (∀ v ∈ visited.filterMap (Visit.definition? w), v.declaration.name = v.shape.name ∧
      v.declaration.shape? = some v.shape ∧
      constructedShape? enum (v.construction [Tree.word enum]) = some v.shape) ∧
    ∀ trees ∈ constructionsOf result.2, ∃ d ∈ result.1.declarations, ∃ shape, d.name = shape.name ∧
      d.shape? = some shape ∧ constructedShape? enum trees = some shape := by
  intro w visited result
  have hdecl : result.1.declarations =
      (visited.filterMap (Visit.definition? w)).map Variant.declaration := by
    simp only [result, expandMarkers, w, Walker.walk_eq, Walker.walkLevel_declarations]
    rfl
  have hcons : constructionsOf result.2 = Visit.constructed w visited := by
    simp only [result, expandMarkers, Walker.walk_snd]
    exact w.constructionsOf_rewritten none h
  have hshape : ∀ v ∈ visited.filterMap (Visit.definition? w), v.declaration.shape? = some v.shape ∧
      constructedShape? enum (v.construction [Tree.word enum]) = some v.shape := by
    intro v hv
    obtain ⟨x, -, hxv⟩ := List.mem_filterMap.1 hv
    exact Visit.definition?_shape hxv
  refine ⟨hdecl, hcons, fun v hv => ⟨rfl, hshape v hv⟩, fun ts hts => ?_⟩
  rw [hcons, Visit.constructed] at hts
  obtain ⟨v, hv, rfl⟩ := List.mem_map.1 hts
  obtain ⟨x, hx, hxv⟩ := List.mem_filterMap.1 hv
  have hmem : v ∈ visited.filterMap (Visit.definition? w) :=
    List.mem_filterMap.2 ⟨x, (List.mem_filter.1 hx).1, hxv⟩
  refine ⟨v.declaration, ?_, v.shape, rfl, hshape v hmem⟩
  rw [hdecl]
  exact List.mem_map_of_mem hmem

/-- The trees of `err!(A { f: M<K, V>= err!(B(u8 = n)), g: u8 = |a, b| a } = err!(C))`. -/
def nestedMarkers : List Tree :=
  let marker (contents : List Tree) : List Tree :=
    [.word "err", .mark "!", .group .paren contents .unknown]
  let first : List Tree :=
    [.word "f", .mark ":", .word "M", .mark "<", .word "K", .mark ",", .word "V", .mark ">="]
  let inner : List Tree :=
    marker [.word "B", .group .paren [.word "u8", .mark "=", .word "n"] .unknown]
  let second : List Tree :=
    [.mark ",", .word "g", .mark ":", .word "u8", .mark "=", .mark "|", .word "a", .mark ",", .word "b",
      .mark "|", .word "a"]
  marker (.word "A" :: .group .brace (first ++ inner ++ second) .unknown :: .mark "=" ::
    marker [.word "C"])

/-- A marker with one marker in a value and one in its discriminant: `A` and `B` are constructed, and
all three are declared. The commas in the type of the first field and between the bars of the second
value are none between fields. -/
theorem expandMarkers_paired_nested :
    let w : Walker := ⟨"E", "err"⟩
    let visited := w.visits none nestedMarkers
    let result := expandMarkers nestedMarkers "E" "err"
    arePlain nestedMarkers = true ∧
    visited.map (fun x => (x.route, (x.definition? w).map Variant.shape)) =
      [([], some ⟨"A", .named ["f", "g"]⟩), ([.value], some ⟨"B", .unnamed 1⟩),
        ([.discriminant], some ⟨"C", .unit⟩)] ∧
    result.1.declarations.map (fun d => renderSpaced d.trees) =
      ["A \x7b f : M < K , V > , g : u8 \x7d = :: core :: convert :: identity ( E :: C )", "B ( u8 )",
        "C"] ∧
    (constructionsOf result.2).map renderSpaced =
      ["E :: A \x7b f : :: core :: convert :: identity ( E :: B ( n ) ) , g : | a , b | a \x7d",
        "E :: B ( n )"] ∧
    result.1.declarations = (visited.filterMap (Visit.definition? w)).map Variant.declaration ∧
    constructionsOf result.2 =
      ((visited.filter fun x => !x.route.contains .discriminant).filterMap
        (Visit.definition? w)).map (·.construction [Tree.word "E"]) ∧
    (∀ v ∈ visited.filterMap (Visit.definition? w), v.declaration.name = v.shape.name ∧
      v.declaration.shape? = some v.shape ∧
      constructedShape? "E" (v.construction [Tree.word "E"]) = some v.shape) ∧
    ∀ trees ∈ constructionsOf result.2, ∃ d ∈ result.1.declarations, ∃ shape, d.name = shape.name ∧
      d.shape? = some shape ∧ constructedShape? "E" trees = some shape := by
  have hvisits : (Walker.visits ⟨"E", "err"⟩ none nestedMarkers).map
      (fun x => (x.route, (x.definition? ⟨"E", "err"⟩).map Variant.shape)) =
      [([], some ⟨"A", .named ["f", "g"]⟩), ([.value], some ⟨"B", .unnamed 1⟩),
        ([.discriminant], some ⟨"C", .unit⟩)] := by
    set_option maxRecDepth 2000 in cbv
  have hdeclared : (expandMarkers nestedMarkers "E" "err").1.declarations.map
      (fun d => renderSpaced d.trees) =
      ["A \x7b f : M < K , V > , g : u8 \x7d = :: core :: convert :: identity ( E :: C )", "B ( u8 )",
        "C"] := by decide +kernel
  have hconstructed : (constructionsOf (expandMarkers nestedMarkers "E" "err").2).map renderSpaced =
      ["E :: A \x7b f : :: core :: convert :: identity ( E :: B ( n ) ) , g : | a , b | a \x7d",
        "E :: B ( n )"] := by decide +kernel
  have hplain : arePlain nestedMarkers = true := rfl
  have hpaired := expandMarkers_paired hplain "E" "err"
  exact ⟨hplain, hvisits, hdeclared, hconstructed, hpaired⟩

end InlineVariants
