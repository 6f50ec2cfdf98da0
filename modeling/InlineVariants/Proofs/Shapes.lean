import InlineVariants.Proofs.Recovering
import InlineVariants.Proofs.Walking

/-!
# The shape of a variant

The shape of a variant is its name and whether it has named fields, unnamed ones or none, with the names
or the number of the fields. It can be read off a declaration and off a construction alone: the group
behind the name is cut into entries again, a declaration by the end of types and a construction by the
end of values. The markers in the values have been replaced before that, so what has to be seen is that
a walk over a value changes nothing that its end depends on.

Main statement: `Visit.definition?_shape`.
-/

namespace InlineVariants

/-! ## Walked values end where they did -/

namespace ValueState

/-- Two states in which the same trees are taken for the same. -/
structure Alike (st st' : ValueState) : Prop where
  angles : st.angles = st'.angles
  bars : st.bars = st'.bars
  closure : closureMayStart st.taken = closureMayStart st'.taken
  head : ∀ op, st.taken.head?.any (Tree.isPunct op) = st'.taken.head?.any (Tree.isPunct op)

namespace Alike

variable {st st' : ValueState}

theorem refl (st : ValueState) : Alike st st := ⟨rfl, rfl, rfl, fun _ => rfl⟩

theorem isEnd (h : Alike st st') (t : Tree) : st.isEnd t = st'.isEnd t := by
  rw [ValueState.isEnd, h.angles, h.bars, ValueState.isEnd]

theorem push (h : Alike st st') (t : Tree) : Alike (st.push t) (st'.push t) := by
  have hclosure : closureMayStart (t :: st.taken) = closureMayStart (t :: st'.taken) := by
    rw [closureMayStart, h.head, closureMayStart]
  cases t with
  | punct op span =>
    simp only [ValueState.push, h.angles, h.bars, h.closure, h.head]
    split_ifs <;> exact ⟨rfl, rfl, hclosure, fun _ => rfl⟩
  | _ => exact ⟨h.angles, h.bars, hclosure, fun _ => rfl⟩

end Alike

end ValueState

namespace Walker

variable (w : Walker)

theorem rewritten_ne_nil {before : Option Tree} {ts : List Tree} (h : ts ≠ []) :
    w.rewritten before ts ≠ [] := by
  induction before, ts using w.walk_induction with
  | nil => exact absurd rfl h
  | marker before span opSpan d contents groupSpan rest hb hd =>
    rw [w.rewritten_marker hb hd]
    simp
  | group before d contents span rest hd =>
    rw [w.rewritten_group hd]
    simp
  | keep before t rest hm ht =>
    rw [w.rewritten_keep hm ht]
    simp

/-- A walk leaves a value open or closed as it was, and no comma that ends it is put in. -/
theorem rewritten_ends (before : Option Tree) (ts : List Tree) {st st' : ValueState}
    (h : st.Alike st') :
    ((valueRun st ts).2 = [] → (valueRun st' (w.rewritten before ts)).2 = []) ∧
      (st.Closes ts → st'.Closes (w.rewritten before ts)) := by
  induction before, ts using w.walk_induction generalizing st st' with
  | nil before =>
    rw [rewritten_nil]
    exact ⟨fun _ => rfl, fun hcloses => ⟨h.angles ▸ hcloses.1, h.bars ▸ hcloses.2⟩⟩
  | marker before span opSpan d contents groupSpan rest hb hd _ ih =>
    obtain ⟨trees, hreplacement⟩ := Visit.replacement_shape w [] span contents groupSpan
    have hbehind : (((st.push (.ident w.marker span)).push (.punct "!" opSpan)).push
        (.group d contents groupSpan)).Alike
        (st'.push (.group .invisible (Tree.mark "::" :: trees) (span.join groupSpan))) :=
      ⟨h.angles, h.bars, rfl, fun _ => rfl⟩
    obtain ⟨hrun, hcloses⟩ := ih hbehind
    rw [w.rewritten_marker hb hd, hreplacement]
    refine ⟨fun hend => ?_, fun hend => ?_⟩
    · exact hrun hend
    · exact ⟨rfl, hcloses hend.2.2.2⟩
  | group before d contents span rest hd _ ih =>
    have hbehind : (st.push (.group d contents span)).Alike
        (st'.push (.group d (w.rewritten none contents) span)) := ⟨h.angles, h.bars, rfl, fun _ => rfl⟩
    obtain ⟨hrun, hcloses⟩ := ih hbehind
    rw [w.rewritten_group hd]
    exact ⟨hrun, fun hend => ⟨rfl, hcloses hend.2⟩⟩
  | keep before t rest hm ht ih =>
    obtain ⟨hrun, hcloses⟩ := ih (h.push t)
    rw [w.rewritten_keep hm ht]
    refine ⟨fun hend => ?_, fun hend => ⟨h.isEnd t ▸ hend.1, hcloses hend.2⟩⟩
    rw [valueRun] at hend ⊢
    rw [← h.isEnd t]
    split at hend
    · cases hend
    · next hnot =>
      rw [if_neg hnot]
      exact hrun hend

theorem walk_closes {value : List Tree} (h : ({} : ValueState).Closes value) :
    ({} : ValueState).Closes (w.walk {} value).2 := by
  rw [w.walk_snd]
  exact (w.rewritten_ends none value (.refl _)).2 h

theorem walk_uncut {value : List Tree} (h : Uncut value) : Uncut (w.walk {} value).2 := by
  rw [w.walk_snd]
  have hend := (w.rewritten_ends none value (.refl {})).1 (by rw [h.2])
  have happend := valueRun_append {} (w.rewritten none value)
  rw [hend, List.append_nil] at happend
  exact ⟨w.rewritten_ne_nil h.1, Prod.ext happend hend⟩

end Walker

/-- Where the values of fields are walked, the fields end where they did. -/
theorem Fields.End.walk {fields : Fields} (h : fields.End) (w : Walker) :
    (fields.mapValues fun value => (w.walk {} value).2).End := by
  cases fields with
  | unit => trivial
  | named fs =>
    refine ⟨List.forall_mem_map.2 fun f hf => ⟨(h.1 f hf).1, w.walk_uncut (h.1 f hf).2⟩, ?_⟩
    rw [← List.map_dropLast]
    exact List.forall_mem_map.2 fun f hf => w.walk_closes (h.2 f hf)
  | unnamed fs =>
    refine ⟨List.forall_mem_map.2 fun f hf => ?_, ?_⟩
    · exact ⟨(h.1 f hf).1, (h.1 f hf).2.1, w.walk_uncut (h.1 f hf).2.2⟩
    · rw [← List.map_dropLast]
      exact List.forall_mem_map.2 fun f hf => w.walk_closes (h.2 f hf)

/-! ## Entries -/

/-- The entries of a list with commas between them, each as far as a run takes it. -/
def entriesOf (run : List Tree → List Tree × List Tree) : List Tree → List (List Tree)
  | [] => []
  | t :: ts =>
    if (run (t :: ts)).2.length ≤ ts.length + 1 then
      (run (t :: ts)).1 :: entriesOf run ((run (t :: ts)).2.drop 1)
    else [(run (t :: ts)).1]
termination_by ts => ts.length
decreasing_by
  simp only [List.length_drop, List.length_cons]
  omega

theorem entriesOf_of_ne_nil {run : List Tree → List Tree × List Tree} {ts : List Tree} (h : ts ≠ [])
    (hrun : (run ts).2.length ≤ ts.length) :
    entriesOf run ts = (run ts).1 :: entriesOf run ((run ts).2.drop 1) := by
  cases ts with
  | nil => exact absurd rfl h
  | cons t ts => rw [entriesOf, if_pos (by simpa using hrun)]

/-- Entries that a run cuts are found again. -/
theorem Cuts.entriesOf_separated {run : List Tree → List Tree × List Tree} {es : List (List Tree)}
    (h : Cuts run es) : entriesOf run (separated "," es) = es := by
  induction es with
  | nil => rw [separated, entriesOf]
  | cons e es ih =>
    have hne := h.separated_ne_nil
    cases es with
    | nil =>
      have hrun : run (separated "," [e]) = (e, []) := h.run_last
      rw [entriesOf_of_ne_nil hne (by simp [hrun]), hrun, List.drop_nil, entriesOf]
    | cons a es =>
      have hrun := h.run_cons
      have hle : (run (separated "," (e :: a :: es))).2.length ≤ (separated "," (e :: a :: es)).length := by
        rw [hrun]
        simp [separated]
      rw [entriesOf_of_ne_nil hne hle, hrun, List.drop_one, List.tail_cons, ih h.tail]

/-! ## Shapes -/

/-- What fields a variant has. -/
inductive FieldsShape where
  | unit
  | named (names : List String)
  | unnamed (number : Nat)
deriving DecidableEq, Repr

/-- What a declaration and a construction of one variant have in common. -/
structure Shape where
  name : String
  fields : FieldsShape
deriving DecidableEq, Repr

/-- The name of the field that an entry is about; attributes may stand in front of it. -/
def fieldName? : List Tree → Option String
  | .punct "#" _ :: .group .bracket _ _ :: rest => fieldName? rest
  | .ident name _ :: .punct ":" _ :: _ => some name
  | _ => none

/-- The fields in the group behind the name of a variant, by the runs over the entries of named and of
unnamed fields. -/
def FieldsShape.ofTrees? (namedRun unnamedRun : List Tree → List Tree × List Tree) :
    List Tree → Option FieldsShape
  | .group .brace stream _ :: _ => ((entriesOf namedRun stream).mapM fieldName?).map named
  | .group .paren stream _ :: _ => some (unnamed (entriesOf unnamedRun stream).length)
  | _ => some unit

/-- The shape of a variant that is written as its name and its fields. -/
def Shape.ofTrees? (namedRun unnamedRun : List Tree → List Tree × List Tree) : List Tree → Option Shape
  | .ident name _ :: rest => (FieldsShape.ofTrees? namedRun unnamedRun rest).map (Shape.mk name)
  | _ => none

/-- The shape of what is declared. -/
def Declaration.shape? (d : Declaration) : Option Shape := Shape.ofTrees? (typeRun 0) (typeRun 0) d.trees

/-- The shape of what is constructed behind the name of the enum. -/
def constructedShape? (enum : String) : List Tree → Option Shape
  | .ident path _ :: .punct "::" _ :: rest =>
    if path = enum then Shape.ofTrees? namedValueRun (valueRun {}) rest else none
  | _ => none

/-- The shape of fields. -/
def Fields.shape : Fields → FieldsShape
  | .unit => .unit
  | .named fs => .named (fs.map fun f => f.name.text)
  | .unnamed fs => .unnamed fs.length

/-- The shape of a definition. -/
def Variant.shape (v : Variant) : Shape := ⟨v.name.text, v.fields.shape⟩

theorem fieldName?_attributeTrees (as : List Attribute) (rest : List Tree) :
    fieldName? (attributeTrees as ++ rest) = fieldName? rest := by
  induction as with
  | nil => rfl
  | cons a as ih => rw [attributeTrees_cons_append, fieldName?, ih]

theorem NamedField.fieldName?_declared (f : NamedField) : fieldName? f.declared = some f.name.text :=
  fieldName?_attributeTrees _ _

theorem NamedField.fieldName?_constructed (f : NamedField) :
    fieldName? f.constructed = some f.name.text := rfl

namespace Fields

theorem mapM_fieldName? {written : NamedField → List Tree}
    (h : ∀ f, fieldName? (written f) = some f.name.text) (fs : List NamedField) :
    (fs.map written).mapM fieldName? = some (fs.map fun f => f.name.text) := by
  induction fs with
  | nil => rfl
  | cons f fs ih => simp [h, ih]

/-- The discriminant does not begin with a group, so it is not taken for fields. -/
theorem ofTrees?_declared {fields : Fields} (h : fields.End) (v : Variant) :
    FieldsShape.ofTrees? (typeRun 0) (typeRun 0) (fields.declared ++ v.declaredDiscriminant) =
      some fields.shape := by
  cases fields with
  | unit =>
    unfold Variant.declaredDiscriminant
    cases v.discriminant <;> rfl
  | named fs =>
    have hentries := (cuts_declared_named h.1).entriesOf_separated
    simp only [declared, listGroup, List.cons_append, FieldsShape.ofTrees?, hentries,
      mapM_fieldName? NamedField.fieldName?_declared]
    rfl
  | unnamed fs =>
    have hentries := (cuts_declared_unnamed h.1).entriesOf_separated
    simp only [declared, listGroup, List.cons_append, FieldsShape.ofTrees?, hentries, List.length_map]
    rfl

theorem ofTrees?_constructed {fields : Fields} (h : fields.End) :
    FieldsShape.ofTrees? namedValueRun (valueRun {}) fields.constructed = some fields.shape := by
  cases fields with
  | unit => rfl
  | named fs =>
    have hentries := (cuts_constructed_named h).entriesOf_separated
    simp only [constructed, listGroup, FieldsShape.ofTrees?, hentries,
      mapM_fieldName? NamedField.fieldName?_constructed]
    rfl
  | unnamed fs =>
    have hentries := (cuts_constructed_unnamed h).entriesOf_separated
    simp only [constructed, listGroup, FieldsShape.ofTrees?, hentries, List.length_map]
    rfl

end Fields

namespace Variant

variable {v : Variant}

/-- The shape of a definition is that of its declaration. -/
theorem shape?_declaration (h : v.fields.End) : v.declaration.shape? = some v.shape := by
  rw [Declaration.shape?, declaration, Name.tree, List.cons_append, Shape.ofTrees?,
    Fields.ofTrees?_declared h]
  rfl

/-- The shape of a definition is that of its construction. -/
theorem constructedShape?_construction (h : v.fields.End) (enum : String) :
    constructedShape? enum (v.construction [Tree.word enum]) = some v.shape := by
  have hconstruction : v.construction [Tree.word enum] =
      .ident enum Span.unknown :: .punct "::" Span.unknown :: v.name.tree :: v.fields.constructed := rfl
  rw [hconstruction, constructedShape?, if_pos rfl, Name.tree, Shape.ofTrees?,
    Fields.ofTrees?_constructed h]
  rfl

end Variant

/-- The definition of a visited marker can be told from both its sides, up to types and values: they have
its name and its fields. -/
theorem Visit.definition?_shape {w : Walker} {x : Visit} {v : Variant} (h : x.definition? w = some v) :
    v.declaration.shape? = some v.shape ∧
      constructedShape? w.enum (v.construction [Tree.word w.enum]) = some v.shape := by
  obtain ⟨u, hu, rfl⟩ := Option.map_eq_some_iff.1 h
  have hend := (Variant.parse_end (parsed?_eq_some.1 hu)).walk w
  exact ⟨Variant.shape?_declaration hend, Variant.constructedShape?_construction hend w.enum⟩

end InlineVariants
