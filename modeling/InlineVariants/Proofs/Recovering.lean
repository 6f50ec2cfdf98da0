import InlineVariants.Proofs.Respanning
import InlineVariants.Proofs.Restoring
import InlineVariants.Variant.Projection

/-!
# A definition is recovered from its two sides

The declaration of a variant has the types and attributes of its fields, the construction has the
values, and both have the name. Types and values are joined with plain commas there, although each of
them may hold commas of its own: generic arguments, turbofish brackets, closure bars. What makes the
lists readable nevertheless is that the reader of the marker has cut out every type and every value by
counting brackets and bars, and that the same count cuts the joined lists at the same commas (`Cuts`).
Only the last value of a marker may leave something open, and then no comma comes behind it.

Main statement: definitions that were read from markers are the same up to spans exactly if both their
sides are (`Variant.same_sides_iff`).
-/

namespace InlineVariants

/-! ## Where types and values end -/

/-- The trees are taken as a type in front of a comma and in front of the end. -/
def TypeEnds (type : List Tree) : Prop :=
  type ≠ [] ∧ ∀ rest, EndsValue rest → typeRun 0 (type ++ rest) = (type, rest)

/-- A run of a type that something ends would end there in front of a comma as well. -/
theorem typeRun_again {depth : Nat} {ts rest : List Tree} (h : (typeRun depth ts).2 ≠ [])
    (hrest : EndsValue rest) :
    typeRun depth ((typeRun depth ts).1 ++ rest) = ((typeRun depth ts).1, rest) := by
  have hstop : typeRun 0 rest = ([], rest) := by
    rcases hrest with rfl | ⟨span, more, rfl⟩
    · rfl
    · simp [typeRun]
  fun_induction typeRun depth ts with
  | case1 => exact absurd rfl h
  | case2 depth op span ts hend =>
    obtain rfl : depth = 0 := by simp_all
    exact hstop
  | case3 depth op span ts _ hglued =>
    -- the pieces close what is open, one bracket each
    rcases gluedAngles?_cases hglued with ⟨rfl, rfl⟩ | ⟨rfl, rfl⟩ <;>
      simp [anglePieces, List.range, List.range.loop, typeRun, gluedAngles?, angleDepth, hstop]
  | case4 depth op span ts hend hglued run ih =>
    rw [List.cons_append, typeRun, if_neg hend, if_neg hglued]
    simp only [run] at h ⊢
    rw [ih h]
  | case5 depth t ts ht run ih =>
    rw [List.cons_append, typeRun_other ht]
    simp only [run] at h ⊢
    rw [ih h]

/-- A type begins with the first tree that is there. -/
theorem typeRun_head (ts : List Tree) :
    (typeRun 0 ts).1 = [] ∨ (typeRun 0 ts).1.head? = ts.head? := by
  fun_cases typeRun 0 ts with
  | case1 => exact .inl rfl
  | case2 => exact .inl rfl
  | case3 op span rest _ hglued => rcases gluedAngles?_cases hglued with ⟨-, h⟩ | ⟨-, h⟩ <;> cases h
  | case4 => exact .inr rfl
  | case5 => exact .inr rfl

/-- No comma among the trees ends the value. -/
def Uncut (value : List Tree) : Prop := value ≠ [] ∧ valueRun {} value = (value, [])

theorem valueRun_self (st : ValueState) (ts : List Tree) :
    valueRun st (valueRun st ts).1 = ((valueRun st ts).1, []) := by
  fun_induction valueRun st ts with
  | case1 => rfl
  | case2 => rfl
  | case3 st t rest h run ih =>
    rw [valueRun, if_neg h]
    simp only [run] at ih ⊢
    rw [ih]

/-- Something behind a value means that nothing is left open in it. -/
theorem valueRun_closes (st : ValueState) (ts : List Tree) :
    (valueRun st ts).2 = [] ∨ st.Closes (valueRun st ts).1 := by
  fun_induction valueRun st ts with
  | case1 => exact .inl rfl
  | case2 st t rest h =>
    simp only [ValueState.isEnd, Bool.and_eq_true, beq_iff_eq, Bool.not_eq_true'] at h
    exact .inr ⟨h.1.2, h.2⟩
  | case3 st t rest h run ih =>
    rcases ih with ih | ih
    · exact .inl ih
    · exact .inr ⟨by simpa using h, ih⟩

/-! ## The entries of a marker -/

namespace Reader

/-- Behind attributes there is no further one. -/
theorem attributes_stop : Meets attributes fun _ _ _ ahead' =>
    ∀ span more, ahead' ≠ .punct "#" span :: more := by
  have hfrom (region : Span) (passed ahead : List Tree) {as : List Attribute} {c : Cursor}
      (h : attributesFrom region passed ahead = .ok as c) :
      ∀ span more, c.ahead ≠ .punct "#" span :: more := by
    fun_induction attributesFrom region passed ahead generalizing as with
    | case1 passed pound inner brackets ahead as' c' he ih =>
      cases h
      exact ih he
    | case2 => cases h
    | case3 => cases h
    | case4 passed ahead hgroup hpound =>
      cases h
      exact hpound
  intro c
  have hmeets := attributes_meets c
  unfold attributes at hmeets ⊢
  cases he : attributesFrom c.region c.passed c.ahead with
  | error e c' =>
    rw [he] at hmeets
    exact hmeets
  | ok as c' =>
    rw [he] at hmeets
    obtain ⟨hr, left, hl, hs, -⟩ := hmeets
    exact ⟨hr, left, hl, hs, hfrom _ _ _ he⟩

theorem typeTrees_runs : Meets typeTrees fun ahead type _ ahead' =>
    typeRun 0 ahead = (type, ahead') := by
  intro c
  obtain ⟨hs, -⟩ := typeRun_spec 0 c.ahead
  exact ⟨rfl, _, rfl, hs, rfl⟩

theorem valueTrees_runs : Meets valueTrees fun ahead value _ ahead' =>
    valueRun {} ahead = (value, ahead') := by
  intro c
  have h := valueRun_append {} c.ahead
  exact ⟨rfl, _, rfl, by simpa [h, Cursor.pass] using .refl _, rfl⟩

/-- An entry is cut by two runs with a `=` between them. -/
theorem typeAndValue_runs (start : Nat) (label : FieldLabel) :
    Meets (typeAndValue start label) fun ahead r _ ahead' => r.1 ≠ [] ∧ r.2 ≠ [] ∧
      ∃ span rest, typeRun 0 ahead = (r.1, .punct "=" span :: rest) ∧
        valueRun {} rest = (r.2, ahead') := by
  refine typeTrees_runs.bind (q := fun type ahead r _ ahead' => ¬ type.isEmpty = true ∧ r.1 = type ∧
    r.2 ≠ [] ∧ ∃ span rest, ahead = .punct "=" span :: rest ∧ valueRun {} rest = (r.2, ahead'))
    (fun type => .guard ?_) ?_
  · refine (eat?_meets "=").bind (q := fun found ahead r _ ahead' => ¬ found.isNone = true ∧
      r.1 = type ∧ r.2 ≠ [] ∧ valueRun {} ahead = (r.2, ahead')) (fun found => .guard ?_) ?_
    · cases TypeExpr.ofTrees type with
      | error e => exact fun _ => ⟨rfl, .refl _⟩
      | ok _ =>
        refine valueTrees_runs.bind (fun value => (Meets.pure (type, value)).guard) ?_
        rintro ahead value _ mid _ _ _ hrun ⟨hne, rfl, -, rfl⟩
        exact ⟨rfl, by simpa using hne, hrun⟩
    · rintro ahead found _ mid r _ ahead' (⟨rfl, -⟩ | ⟨span, -, -, rfl⟩) ⟨hfound, hr, hne, hrun⟩
      · exact absurd rfl hfound
      · exact ⟨hr, hne, span, mid, rfl, hrun⟩
  · rintro ahead type _ mid r _ ahead' htype ⟨hne, rfl, hvalue, span, rest, rfl, hrun⟩
    exact ⟨by simpa using hne, hvalue, span, rest, htype, hrun⟩

/-- The type and the value of an entry end where they were cut off. -/
theorem entry_ends (start : Nat) (label : FieldLabel) (mk : List Tree → List Tree → Cursor → α) :
    Meets (do
      let (type, value) ← typeAndValue start label
      return mk type value (← get)) fun ahead a _ ahead' =>
        ∃ type value c, a = mk type value c ∧ TypeEnds type ∧ type.head? = ahead.head? ∧
          Uncut value ∧ (ahead' = [] ∨ ({} : ValueState).Closes value) := by
  refine (typeAndValue_runs _ _).bind (q := fun r ahead a _ ahead' =>
    ∃ c, a = mk r.1 r.2 c ∧ ahead' = ahead) (fun r => .look fun c => ?_) ?_
  · exact (Meets.pure _).conseq fun _ _ _ _ ⟨ha, _, he⟩ _ => ⟨c, ha, he⟩
  · rintro ahead r _ _ a _ ahead' ⟨hne, hvalue, span, rest, htype, hrun⟩ ⟨c, ha, rfl⟩
    have hagain := @typeRun_again 0 ahead
    have hhead := typeRun_head ahead
    have hself := valueRun_self {} rest
    have hcloses := valueRun_closes {} rest
    rw [htype] at hagain hhead
    rw [hrun] at hself hcloses
    exact ⟨r.1, r.2, c, ha, ⟨hne, fun more => hagain (by simp)⟩, hhead.resolve_left hne,
      ⟨hvalue, hself⟩, hcloses⟩

end Reader

/-- What is known of every named field of a marker. -/
def NamedField.Ends (f : NamedField) : Prop := TypeEnds f.type ∧ Uncut f.value

/-- What is known of every unnamed field of a marker; a type that looked like an attribute would have
been read as one. -/
def UnnamedField.Ends (f : UnnamedField) : Prop :=
  TypeEnds f.type ∧ (∀ span more, f.type ≠ .punct "#" span :: more) ∧ Uncut f.value

/-- The fields end where they were cut off: all values but the last leave nothing open. -/
def Fields.End : Fields → Prop
  | .unit => True
  | .named fs => (∀ f ∈ fs, f.Ends) ∧ ∀ f ∈ fs.dropLast, ({} : ValueState).Closes f.value
  | .unnamed fs => (∀ f ∈ fs, f.Ends) ∧ ∀ f ∈ fs.dropLast, ({} : ValueState).Closes f.value

namespace Reader

theorem namedEntry_ends : Meets namedEntry fun _ f _ ahead' =>
    f.Ends ∧ (ahead' = [] ∨ ({} : ValueState).Closes f.value) := by
  refine .look fun c => attributes_meets.bind (q := fun _ _ f _ ahead' =>
    f.Ends ∧ (ahead' = [] ∨ ({} : ValueState).Closes f.value)) (fun as =>
      (fieldName_leaves c.pos).bind (fun name => entry_ends c.pos _ fun type value c' =>
        NamedField.mk as name type value (c'.spanSince c.pos)) ?_) ?_
  · rintro ahead name _ mid f _ ahead' - ⟨type, value, c', rfl, htype, -, hvalue, hcloses⟩
    exact ⟨⟨htype, hvalue⟩, hcloses⟩
  · rintro ahead as _ mid f _ ahead' - hf -
    exact hf

theorem unnamedEntry_ends (index : Nat) : Meets (unnamedEntry index) fun _ f _ ahead' =>
    f.Ends ∧ (ahead' = [] ∨ ({} : ValueState).Closes f.value) := by
  refine .look fun c => attributes_stop.bind (fun as => entry_ends c.pos _ fun type value c' =>
    UnnamedField.mk as type value (c'.spanSince c.pos)) ?_
  rintro ahead as _ mid f _ ahead' hstop ⟨type, value, c', rfl, htype, hhead, hvalue, hcloses⟩ -
  refine ⟨⟨htype, ?_, hvalue⟩, hcloses⟩
  rintro span more rfl
  obtain ⟨rest, rfl⟩ := List.head?_eq_some_iff.1 hhead.symm
  exact hstop span rest rfl

/-- What holds of an entry with something behind it holds of all entries but the last. -/
theorem entries_end {entry : Nat → Reader α} {p q : α → Prop}
    (h : ∀ index, Meets (entry index) fun _ a _ ahead' => p a ∧ (ahead' = [] ∨ q a))
    (limit index : Nat) : Meets (entries entry limit index) fun _ as _ _ =>
      (∀ a ∈ as, p a) ∧ ∀ a ∈ as.dropLast, q a := by
  induction limit generalizing index with
  | zero => exact (Meets.pure []).conseq fun _ _ _ _ ⟨ha, _⟩ => by simp [ha]
  | succ limit ih =>
    refine .look fun c => .ite (fun _ => ?_) fun _ => ?_
    · exact (Meets.pure []).conseq fun _ _ _ _ ⟨ha, _⟩ _ => by simp [ha]
    refine (h index).bind (q := fun first ahead as _ _ => as = [first] ∨ (ahead ≠ [] ∧
      ∃ others, as = first :: others ∧ (∀ a ∈ others, p a) ∧ ∀ a ∈ others.dropLast, q a))
      (fun first => another_leaves.bind (q := fun more _ as _ _ => (more = false ∧ as = [first]) ∨
        (more = true ∧ ∃ others, as = first :: others ∧ (∀ a ∈ others, p a) ∧
          ∀ a ∈ others.dropLast, q a)) (fun more => .ite (fun hmore => ?_) fun hmore => ?_) ?_) ?_
    · refine (ih (index + 1)).bind (fun others => Meets.pure (first :: others)) ?_
      rintro ahead others _ _ _ _ _ hothers ⟨rfl, -⟩
      exact .inr ⟨hmore, others, rfl, hothers⟩
    · apply (Meets.pure [first]).conseq
      rintro ahead _ _ _ ⟨rfl, -⟩
      exact .inl ⟨by simpa using hmore, rfl⟩
    · rintro ahead more _ mid as _ _ hmore (⟨-, rfl⟩ | ⟨rfl, hothers⟩)
      · exact .inl rfl
      · rcases hmore with ⟨-, h, -⟩ | ⟨span, rfl, -⟩
        · cases h
        · exact .inr ⟨by simp, hothers⟩
    · rintro ahead first _ mid as _ _ ⟨hp, hq⟩ (rfl | ⟨hmid, others, rfl, hothers⟩) -
      · simpa using hp
      · refine ⟨List.forall_mem_cons.2 ⟨hp, hothers.1⟩, fun a ha => ?_⟩
        cases others with
        | nil => cases ha
        | cons b others =>
          rcases List.mem_cons.1 ha with rfl | ha
          · exact hq.resolve_left hmid
          · exact hothers.2 a ha

theorem fieldGroup_end : Meets fieldGroup fun _ fields _ _ => fields.End := by
  have hnamed : Meets namedFields fun _ fields _ _ => fields.End := by
    refine Meets.bind (.look fun c => (entries_end (fun _ => namedEntry_ends) _ _).conseq
      fun _ _ _ _ h _ => h) (fun fs => Meets.pure (Fields.named fs)) ?_
    rintro ahead fs _ mid fields _ ahead' hfs ⟨rfl, -⟩
    exact hfs
  have hunnamed : Meets unnamedFields fun _ fields _ _ => fields.End := by
    refine Meets.bind (.look fun c => (entries_end unnamedEntry_ends _ _).conseq
      fun _ _ _ _ h _ => h) (fun fs => Meets.pure (Fields.unnamed fs)) ?_
    rintro ahead fs _ mid fields _ ahead' hfs ⟨rfl, -⟩
    exact hfs
  intro c
  unfold fieldGroup
  split
  · rename_i inner span rest hc
    exact (inside_follows hnamed hc).conseq fun _ _ _ ⟨_, _, _, _, h⟩ => h
  · rename_i inner span rest hc
    exact (inside_follows hunnamed hc).conseq fun _ _ _ ⟨_, _, _, _, h⟩ => h
  · exact ⟨rfl, [], rfl, .refl _, trivial⟩

theorem variant_end : Meets variant fun _ v _ _ => v.fields.End := by
  have hfields (as : List Attribute) (name : Name) := fieldGroup_end.bind
    (r := fun _ v _ _ => v.fields.End) (fun fields => (discriminant_leaves name.text).bind
      (r := fun _ v _ _ => v.fields = fields) (variantEnd_leaves as name fields) (by
        rintro ahead d _ mid v _ ahead' - ⟨-, -, hf, -⟩
        exact hf)) (by
      rintro ahead fields _ mid v _ ahead' hf rfl
      exact hf)
  exact attributes_meets.bind (fun as => visibility_leaves.bind (fun _ =>
    (name_meets "variant name").bind (hfields as) fun _ h => h) fun _ h => h) fun _ h => h

end Reader

/-- The fields of an accepted definition end where they were cut off. -/
theorem Variant.parse_end {stream : List Tree} {span : Span} {v : Variant}
    (h : (Variant.parse stream span).result = .ok v) : v.fields.End := by
  unfold Variant.parse Reader.over at h
  have hv := Reader.variant_end { ahead := stream, region := span.orElse (streamSpan stream) }
  cases he : Reader.variant { ahead := stream, region := span.orElse (streamSpan stream) } with
  | error e c =>
    rw [he] at h
    cases h
  | ok w c =>
    rw [he] at h hv
    obtain rfl : w = v := Except.ok.inj h
    obtain ⟨-, left, -, -, hend⟩ := hv
    exact hend

/-! ## Lists that are cut again -/

/-- A run takes each of the entries in front of the comma that stands behind it, and the last one in
front of the end. -/
def Cuts (run : List Tree → List Tree × List Tree) (es : List (List Tree)) : Prop :=
  (∀ e ∈ es, e ≠ [] ∧ run e = (e, [])) ∧
    ∀ e ∈ es.dropLast, ∀ more, run (e ++ Tree.mark "," :: more) = (e, Tree.mark "," :: more)

namespace Cuts

variable {run : List Tree → List Tree × List Tree} {e e' : List Tree} {es es' : List (List Tree)}

theorem tail (h : Cuts run (e :: es)) : Cuts run es := by
  refine ⟨fun x hx => h.1 x (List.mem_cons_of_mem _ hx), fun x hx => h.2 x ?_⟩
  cases es with
  | nil => cases hx
  | cons a es => exact List.mem_cons_of_mem _ hx

theorem run_last (h : Cuts run [e]) : run e = (e, []) := (h.1 e List.mem_cons_self).2

theorem run_cons (h : Cuts run (e :: e' :: es)) :
    run (separated "," (e :: e' :: es)) = (e, Tree.mark "," :: separated "," (e' :: es)) :=
  h.2 e List.mem_cons_self _

theorem separated_ne_nil (h : Cuts run (e :: es)) : separated "," (e :: es) ≠ [] := by
  have hne := (h.1 e List.mem_cons_self).1
  cases es with
  | nil => exact hne
  | cons a es => simp [separated]

/-- Only one list of entries is written like this. -/
theorem separated_inj (h : Cuts run es) (h' : Cuts run es')
    (he : separated "," es = separated "," es') : es = es' := by
  induction es generalizing es' with
  | nil =>
    cases es' with
    | nil => rfl
    | cons e' es' => exact absurd he.symm h'.separated_ne_nil
  | cons e es ih =>
    cases es' with
    | nil => exact absurd he h.separated_ne_nil
    | cons e' es' =>
      have hrun := congrArg run he
      cases es with
      | nil =>
        cases es' with
        | nil =>
          obtain rfl : e = e' := he
          rfl
        | cons b es' =>
          rw [h'.run_cons, show separated "," [e] = e from rfl, h.run_last] at hrun
          cases hrun
      | cons a es =>
        cases es' with
        | nil =>
          rw [h.run_cons, show separated "," [e'] = e' from rfl, h'.run_last] at hrun
          cases hrun
        | cons b es' =>
          rw [h.run_cons, h'.run_cons] at hrun
          obtain ⟨rfl, hrest⟩ := Prod.mk.inj hrun
          rw [ih h.tail h'.tail (List.cons.inj hrest).2]

end Cuts

/-- Passes over a name and its colon, and runs over a value. -/
def namedValueRun : List Tree → List Tree × List Tree
  | name :: colon :: rest => (name :: colon :: (valueRun {} rest).1, (valueRun {} rest).2)
  | ts => (ts, [])

/-- A comma that was put in ends a type or a value. -/
theorem EndsValue.comma (more : List Tree) : EndsValue (Tree.mark "," :: more) := .inr ⟨_, _, rfl⟩

/-- Entries that are taken in front of whatever may stand behind them are cut. -/
theorem cuts_of_ends {run : List Tree → List Tree × List Tree} {es : List (List Tree)}
    (h : ∀ e ∈ es, e ≠ [] ∧ ∀ rest, EndsValue rest → run (e ++ rest) = (e, rest)) : Cuts run es := by
  refine ⟨fun e he => ⟨(h e he).1, ?_⟩, fun e he more => ?_⟩
  · simpa using (h e he).2 [] (.inl rfl)
  · exact (h e (List.mem_of_mem_dropLast he)).2 _ (.comma more)

/-- Attributes are no part of a type that counts. -/
theorem typeRun_attributeTrees (as : List Attribute) (rest : List Tree) :
    typeRun 0 (attributeTrees as ++ rest) =
      (attributeTrees as ++ (typeRun 0 rest).1, (typeRun 0 rest).2) := by
  induction as with
  | nil => rfl
  | cons a as ih =>
    rw [attributeTrees_cons_append, attributeTrees_cons_append, typeRun, if_neg (by decide),
      if_neg (by decide), typeRun_other (by simp)]
    simp [angleDepth, ih]

namespace Fields

theorem cuts_declared_named {fs : List NamedField} (h : ∀ f ∈ fs, f.Ends) :
    Cuts (typeRun 0) (fs.map NamedField.declared) := by
  refine cuts_of_ends (List.forall_mem_map.2 fun f hf => ⟨by simp [NamedField.declared], ?_⟩)
  intro rest hrest
  have htype := (h f hf).1.2 rest hrest
  have hcolon : typeRun 0 (f.name.tree :: Tree.mark ":" :: (f.type ++ rest)) =
      (f.name.tree :: Tree.mark ":" :: f.type, rest) := by
    rw [typeRun_other (by simp [Name.tree]), Tree.mark, typeRun, if_neg (by decide),
      if_neg (by decide)]
    simp [angleDepth, htype]
  rw [NamedField.declared, List.append_assoc, List.cons_append, List.cons_append]
  exact (typeRun_attributeTrees _ _).trans (by rw [hcolon]; rfl)

theorem cuts_declared_unnamed {fs : List UnnamedField} (h : ∀ f ∈ fs, f.Ends) :
    Cuts (typeRun 0) (fs.map UnnamedField.declared) := by
  refine cuts_of_ends (List.forall_mem_map.2 fun f hf => ⟨?_, fun rest hrest => ?_⟩)
  · simp [UnnamedField.declared, (h f hf).1.1]
  · rw [UnnamedField.declared, List.append_assoc]
    exact (typeRun_attributeTrees _ _).trans (by rw [(h f hf).1.2 rest hrest]; rfl)

theorem cuts_constructed_named {fs : List NamedField} (h : (Fields.named fs).End) :
    Cuts namedValueRun (fs.map NamedField.constructed) := by
  refine ⟨List.forall_mem_map.2 fun f hf => ⟨by simp [NamedField.constructed], ?_⟩, ?_⟩
  · simp [NamedField.constructed, namedValueRun, (h.1 f hf).2.2]
  · rw [← List.map_dropLast]
    refine List.forall_mem_map.2 fun f hf more => ?_
    simp [NamedField.constructed, namedValueRun, (h.2 f hf).valueRun_eq (.comma more)]

theorem cuts_constructed_unnamed {fs : List UnnamedField} (h : (Fields.unnamed fs).End) :
    Cuts (valueRun {}) (fs.map UnnamedField.value) := by
  refine ⟨List.forall_mem_map.2 fun f hf => (h.1 f hf).2.2, ?_⟩
  rw [← List.map_dropLast]
  exact List.forall_mem_map.2 fun f hf more => (h.2 f hf).valueRun_eq (.comma more)

end Fields

/-! ## Fields with the same sides -/

/-- Attributes in front of something else can be told from it. -/
theorem attributeTrees_append_inj {as bs : List Attribute} {ts us : List Tree}
    (hts : ∀ span more, ts ≠ .punct "#" span :: more) (hus : ∀ span more, us ≠ .punct "#" span :: more)
    (h : attributeTrees as ++ ts = attributeTrees bs ++ us) : as = bs ∧ ts = us := by
  induction as generalizing bs with
  | nil =>
    cases bs with
    | nil => exact ⟨rfl, h⟩
    | cons b bs => exact absurd (h.trans (attributeTrees_cons_append b bs us)) (hts _ _)
  | cons a as ih =>
    cases bs with
    | nil => exact absurd (h.symm.trans (attributeTrees_cons_append a as ts)) (hus _ _)
    | cons b bs =>
      obtain ⟨pound, inner, brackets⟩ := a
      obtain ⟨pound', inner', brackets'⟩ := b
      simp only [attributeTrees_cons_append, List.cons.injEq, Tree.punct.injEq, Tree.group.injEq, true_and] at h
      obtain ⟨rfl, ⟨rfl, rfl⟩, hrest⟩ := h
      obtain ⟨rfl, hts⟩ := ih hrest
      exact ⟨rfl, hts⟩

theorem Name.tree_inj {n m : Name} (h : n.tree = m.tree) : n = m := by
  cases n
  cases m
  simpa [Name.tree] using h

theorem NamedField.eq_of_sides {f g : NamedField} (hd : f.declared = g.declared)
    (hc : f.constructed = g.constructed) (hs : f.span = g.span) : f = g := by
  obtain ⟨hattributes, hrest⟩ := attributeTrees_append_inj (by simp [Name.tree]) (by simp [Name.tree]) hd
  obtain ⟨hname, hvalue⟩ := List.cons.inj hc
  have hname := Name.tree_inj hname
  simp only [List.cons.injEq, true_and] at hvalue hrest
  cases f
  cases g
  simp_all

theorem UnnamedField.eq_of_sides {f g : UnnamedField} (hf : f.Ends) (hg : g.Ends)
    (hd : f.declared = g.declared) (hc : f.value = g.value) (hs : f.span = g.span) : f = g := by
  obtain ⟨hattributes, htype⟩ := attributeTrees_append_inj hf.2.1 hg.2.1 hd
  cases f
  cases g
  simp_all

/-- Lists of the same length whose members agree pairwise in two ways. -/
theorem eq_of_maps {α β γ : Type} {d : α → β} {c : α → γ} {p : α → Prop}
    (hinj : ∀ a b, p a → p b → d a = d b → c a = c b → a = b) {as bs : List α}
    (has : ∀ a ∈ as, p a) (hbs : ∀ b ∈ bs, p b) (hd : as.map d = bs.map d)
    (hc : as.map c = bs.map c) : as = bs := by
  induction as generalizing bs with
  | nil => simpa using hd
  | cons a as ih =>
    cases bs with
    | nil => simp at hd
    | cons b bs =>
      simp only [List.map_cons, List.cons.injEq] at hd hc
      obtain ⟨ha, has⟩ := List.forall_mem_cons.1 has
      obtain ⟨hb, hbs⟩ := List.forall_mem_cons.1 hbs
      rw [hinj a b ha hb hd.1 hc.1, ih has hbs hd.2 hc.2]

namespace Fields

/-- The fields have no spans of their own. -/
def Unplaced : Fields → Prop
  | .unit => True
  | .named fs => ∀ f ∈ fs, f.span = Span.unknown
  | .unnamed fs => ∀ f ∈ fs, f.span = Span.unknown

/-- Fields are told apart by their sides. -/
theorem eq_of_sides {fields fields' : Fields} (h : fields.End) (h' : fields'.End)
    (hu : fields.Unplaced) (hu' : fields'.Unplaced) (hd : fields.declared = fields'.declared)
    (hc : fields.constructed = fields'.constructed) : fields = fields' := by
  cases fields with
  | unit => cases fields' <;> simp [constructed, listGroup] at hc ⊢
  | named fs =>
    cases fields' with
    | unit | unnamed => simp [constructed, listGroup] at hc
    | named gs =>
      simp only [declared, constructed, listGroup, List.cons.injEq, Tree.group.injEq, true_and,
        and_true] at hd hc
      have hd := (cuts_declared_named h.1).separated_inj (cuts_declared_named h'.1) hd
      have hc := (cuts_constructed_named h).separated_inj (cuts_constructed_named h') hc
      rw [eq_of_maps (p := fun f : NamedField => f.span = Span.unknown) (fun f g hf hg hd hc =>
        NamedField.eq_of_sides hd hc (hf.trans hg.symm)) hu hu' hd hc]
  | unnamed fs =>
    cases fields' with
    | unit | named => simp [constructed, listGroup] at hc
    | unnamed gs =>
      simp only [declared, constructed, listGroup, List.cons.injEq, Tree.group.injEq, true_and,
        and_true] at hd hc
      have hd := (cuts_declared_unnamed h.1).separated_inj (cuts_declared_unnamed h'.1) hd
      have hc := (cuts_constructed_unnamed h).separated_inj (cuts_constructed_unnamed h') hc
      rw [eq_of_maps (p := fun f => f.Ends ∧ f.span = Span.unknown) (fun f g hf hg hd hc =>
        UnnamedField.eq_of_sides hf.1 hg.1 hd hc (hf.2.trans hg.2.symm))
        (fun f hf => ⟨h.1 f hf, hu f hf⟩) (fun f hf => ⟨h'.1 f hf, hu' f hf⟩) hd hc]

theorem length_declared {fields fields' : Fields} (h : fields.constructed = fields'.constructed) :
    fields.declared.length = fields'.declared.length := by
  cases fields <;> cases fields' <;> simp [constructed, declared] at h ⊢

end Fields

/-! ## Definitions without spans -/

/-- No span at all. -/
def noSpan (_ : Span) : Span := Span.unknown

theorem noSpan_isMove : Span.IsMove noSpan where
  unknown := rfl
  join _ _ := rfl
  charAt _ _ := rfl

/-- A definition without its spans. -/
def Variant.bare (v : Variant) : Variant := v.mapSpans noSpan

mutual

theorem Tree.mapSpans_noSpan : ∀ t : Tree, t.mapSpans noSpan = t.bare
  | .ident .. | .punct .. | .literal .. => rfl
  | .group d ts span => by rw [Tree.mapSpans, Tree.bare, mapSpansOf_noSpan ts]; rfl

theorem mapSpansOf_noSpan : ∀ ts : List Tree, mapSpansOf noSpan ts = bareOf ts
  | [] => rfl
  | t :: ts => by rw [mapSpansOf, bareOf, Tree.mapSpans_noSpan t, mapSpansOf_noSpan ts]

end

theorem bareOf_eq_mapSpans (ts : List Tree) : bareOf ts = ts.map (Tree.mapSpans noSpan) := by
  rw [← mapSpansOf_noSpan, mapSpansOf_eq_map]

/-- An accepted definition without its spans is what the trees without spans are read as. -/
theorem Variant.parse_bare {stream : List Tree} {span : Span} {v : Variant}
    (h : (Variant.parse stream span).result = .ok v) :
    (Variant.parse (bareOf stream)).result = .ok v.bare := by
  have hmap := Variant.parse_mapSpans noSpan_isMove stream span Span.unknown
  rw [h, ← bareOf_eq_mapSpans] at hmap
  cases hr : (Variant.parse (bareOf stream)).result with
  | error e =>
    rw [hr] at hmap
    exact hmap.elim
  | ok w =>
    rw [hr] at hmap
    exact congrArg Except.ok hmap

section Sides

variable {f : Span → Span}

theorem attributeTrees_mapSpans (as : List Attribute) :
    attributeTrees (as.map (Attribute.mapSpans f)) = (attributeTrees as).map (Tree.mapSpans f) := by
  simp [attributeTrees, List.flatMap_map, List.map_flatMap, Attribute.trees, Attribute.mapSpans]

theorem separated_map {g : Tree → Tree} {sep : String} (hg : g (Tree.mark sep) = Tree.mark sep)
    (es : List (List Tree)) : separated sep (es.map (List.map g)) = (separated sep es).map g := by
  induction es with
  | nil => rfl
  | cons e es ih =>
    cases es with
    | nil => rfl
    | cons a es => simp_all [separated]

/-- A group of entries whose spans are changed one by one. -/
theorem listGroup_mapSpans {α : Type} {change : α → α} {written : α → List Tree}
    (hf : f Span.unknown = Span.unknown)
    (h : ∀ a, written (change a) = (written a).map (Tree.mapSpans f)) (d : Delimiter) (as : List α) :
    listGroup d ((as.map change).map written) = (listGroup d (as.map written)).mapSpans f := by
  have hentries : (as.map change).map written = (as.map written).map (List.map (Tree.mapSpans f)) := by
    simp [h]
  rw [listGroup, hentries, separated_map (by simp [Tree.mark, hf]), listGroup, Tree.mapSpans_group, hf]

namespace NamedField

theorem declared_mapSpans (hf : f Span.unknown = Span.unknown) (g : NamedField) :
    (g.mapSpans f).declared = g.declared.map (Tree.mapSpans f) := by
  have has : (g.attributes.map (Attribute.mapSpans f)).flatMap Attribute.trees =
      (g.attributes.flatMap Attribute.trees).map (Tree.mapSpans f) := attributeTrees_mapSpans _
  simp [declared, NamedField.mapSpans, has, Name.tree, Name.mapSpans, Tree.mark, hf]

theorem constructed_mapSpans (hf : f Span.unknown = Span.unknown) (g : NamedField) :
    (g.mapSpans f).constructed = g.constructed.map (Tree.mapSpans f) := by
  simp [constructed, NamedField.mapSpans, Name.tree, Name.mapSpans, Tree.mark, hf]

end NamedField

theorem UnnamedField.declared_mapSpans (g : UnnamedField) :
    (g.mapSpans f).declared = g.declared.map (Tree.mapSpans f) := by
  have has : (g.attributes.map (Attribute.mapSpans f)).flatMap Attribute.trees =
      (g.attributes.flatMap Attribute.trees).map (Tree.mapSpans f) := attributeTrees_mapSpans _
  simp [declared, UnnamedField.mapSpans, has]

namespace Fields

theorem declared_mapSpans (hf : f Span.unknown = Span.unknown) (fields : Fields) :
    (fields.mapSpans f).declared = fields.declared.map (Tree.mapSpans f) := by
  cases fields with
  | unit => rfl
  | named fs => exact congrArg (fun t => [t]) (listGroup_mapSpans hf (NamedField.declared_mapSpans hf) _ fs)
  | unnamed fs => exact congrArg (fun t => [t]) (listGroup_mapSpans hf UnnamedField.declared_mapSpans _ fs)

theorem constructed_mapSpans (hf : f Span.unknown = Span.unknown) (fields : Fields) :
    (fields.mapSpans f).constructed = fields.constructed.map (Tree.mapSpans f) := by
  cases fields with
  | unit => rfl
  | named fs =>
    exact congrArg (fun t => [t]) (listGroup_mapSpans hf (NamedField.constructed_mapSpans hf) _ fs)
  | unnamed fs =>
    have hvalue (g : UnnamedField) : (g.mapSpans f).value = g.value.map (Tree.mapSpans f) := rfl
    exact congrArg (fun t => [t]) (listGroup_mapSpans hf hvalue _ fs)

end Fields

end Sides

namespace Variant

variable {v w : Variant}

theorem trees_declaration_bare (v : Variant) :
    v.bare.declaration.trees = bareOf v.declaration.trees := by
  have hdiscriminant : v.bare.declaredDiscriminant =
      v.declaredDiscriminant.map (Tree.mapSpans noSpan) := by
    cases hd : v.discriminant with
    | none => simp [declaredDiscriminant, bare, mapSpans, hd]
    | some value => simp [declaredDiscriminant, bare, mapSpans, hd, Tree.mark, noSpan]
  have hfields : v.bare.fields.declared = v.fields.declared.map (Tree.mapSpans noSpan) :=
    Fields.declared_mapSpans rfl _
  simp only [declaration, hdiscriminant, hfields, bareOf_eq_mapSpans, List.map_cons, List.map_append,
    List.cons_append]
  rfl

theorem construction_bare (v : Variant) (path : List Tree) :
    v.bare.construction (bareOf path) = bareOf (v.construction path) := by
  have hfields : v.bare.fields.constructed = v.fields.constructed.map (Tree.mapSpans noSpan) :=
    Fields.constructed_mapSpans rfl _
  have hempty : (bareOf path).isEmpty = path.isEmpty := by rw [bareOf_eq_mapSpans, List.isEmpty_map]
  have hname : v.bare.name.tree = v.name.tree.mapSpans noSpan := rfl
  have hmark : (Tree.mark "::").mapSpans noSpan = Tree.mark "::" := rfl
  rw [construction, hempty, hfields, hname, construction]
  cases path.isEmpty <;> simp [bareOf_eq_mapSpans, hmark]

theorem bare_attributes_iff : v.bare.attributes = w.bare.attributes ↔
    v.declaration.attributes.map (fun a => bareOf a.trees) =
      w.declaration.attributes.map (fun a => bareOf a.trees) := by
  have htrees (as : List Attribute) : as.map (fun a => bareOf a.trees) =
      (as.map (Attribute.mapSpans noSpan)).map Attribute.trees := by
    simp [bareOf_eq_mapSpans, Attribute.trees, Attribute.mapSpans]
  have hinj : Function.Injective Attribute.trees := by
    rintro ⟨pound, inner, brackets⟩ ⟨pound', inner', brackets'⟩ h
    simpa [Attribute.trees, and_assoc] using h
  rw [htrees, htrees]
  exact (List.map_injective_iff.2 hinj).eq_iff.symm

theorem unplaced_bare (v : Variant) : v.bare.fields.Unplaced := by
  cases hf : v.fields with
  | unit => simp [bare, mapSpans, hf, Fields.mapSpans, Fields.Unplaced]
  | named fs => simp [bare, mapSpans, hf, Fields.mapSpans, Fields.Unplaced, NamedField.mapSpans, noSpan]
  | unnamed fs =>
    simp [bare, mapSpans, hf, Fields.mapSpans, Fields.Unplaced, UnnamedField.mapSpans, noSpan]

theorem discriminant_eq_of_declared (h : v.declaredDiscriminant = w.declaredDiscriminant) :
    v.discriminant = w.discriminant := by
  unfold declaredDiscriminant at h
  cases hv : v.discriminant <;> cases hw : w.discriminant <;> simp_all

/-- Definitions that were read from markers are the same up to spans exactly if their declarations and
their constructions behind one path are. -/
theorem same_sides_iff {stream stream' : List Tree} {span span' : Span}
    (hv : (Variant.parse stream span).result = .ok v)
    (hw : (Variant.parse stream' span').result = .ok w) (path : List Tree) :
    (v.declaration.attributes.map (fun a => bareOf a.trees) =
        w.declaration.attributes.map (fun a => bareOf a.trees) ∧
      bareOf v.declaration.trees = bareOf w.declaration.trees ∧
      bareOf (v.construction path) = bareOf (w.construction path)) ↔ v.bare = w.bare := by
  rw [← trees_declaration_bare, ← trees_declaration_bare, ← construction_bare, ← construction_bare,
    ← bare_attributes_iff]
  refine ⟨fun ⟨hattributes, htrees, hconstruction⟩ => ?_, fun h => by rw [h]; exact ⟨rfl, rfl, rfl⟩⟩
  obtain ⟨hname, hconstructed⟩ := List.cons.inj (List.append_cancel_left hconstruction)
  obtain ⟨hdeclared, hdiscriminant⟩ :=
    List.append_inj (List.cons.inj htrees).2 (Fields.length_declared hconstructed)
  have hfields : v.bare.fields = w.bare.fields :=
    Fields.eq_of_sides (parse_end (parse_bare hv)) (parse_end (parse_bare hw)) (unplaced_bare v)
      (unplaced_bare w) hdeclared hconstructed
  have hmk (u : Variant) : u.bare =
    ⟨u.bare.name, u.bare.attributes, u.bare.fields, u.bare.discriminant, Span.unknown⟩ := rfl
  rw [hmk v, hmk w, Name.tree_inj hname, hattributes, hfields,
    discriminant_eq_of_declared hdiscriminant]

/-- Two markers that are told apart by a visibility and a span only. The first field has commas in its
type and in its value, and the bar of the last value is never closed. -/
theorem same_sides_iff_open_bar :
    let fields : List Tree := [.word "f", .mark ":", .word "M", .mark "<", .word "K", .mark ",",
      .word "V", .mark ">=", .word "g", .mark "::", .mark "<", .word "S", .mark ",", .word "T",
      .mark ">", .group .paren [] .unknown, .mark ",", .word "h", .mark ":", .word "u8", .mark "=",
      .mark "|", .word "a", .mark ",", .word "b"]
    let place : Span := ⟨none, some 1, some 5, some 1, some 6, some 4, some 5⟩
    let f : NamedField :=
      { attributes := [], name := ⟨"f", .unknown⟩
        type := [.word "M", .mark "<", .word "K", .mark ",", .word "V", .mark ">"]
        value := [.word "g", .mark "::", .mark "<", .word "S", .mark ",", .word "T", .mark ">",
          .group .paren [] .unknown]
        span := .unknown }
    let h : NamedField :=
      { attributes := [], name := ⟨"h", .unknown⟩, type := [.word "u8"]
        value := [.mark "|", .word "a", .mark ",", .word "b"], span := .unknown }
    let v : Variant := ⟨⟨"A", .unknown⟩, [], .named [f, h], none, .unknown⟩
    let w : Variant := ⟨⟨"A", place⟩, [], .named [f, h], none, place⟩
    let stream : List Tree := [.word "A", .group .brace fields .unknown]
    let stream' : List Tree := [.word "pub", .ident "A" place, .group .brace fields .unknown]
    (Variant.parse stream).result = .ok v ∧ (Variant.parse stream').result = .ok w ∧ v.bare = w.bare := by
  intro fields place f h v w stream stream'
  have hv : (Variant.parse stream).result = .ok v := by
    cbv
  have hw : (Variant.parse stream').result = .ok w := by
    set_option maxRecDepth 2000 in cbv
  exact ⟨hv, hw, (same_sides_iff hv hw [.word "E"]).1 ⟨rfl, rfl, rfl⟩⟩

end Variant

end InlineVariants
