import InlineVariants.Proofs.Accounting
import InlineVariants.Proofs.TypeExtent

/-!
# Written definitions are read back

What an accepted marker holds is its definition, token for token (`Variant.parse_written`). Here is
the way back: whoever writes a definition down gets that definition from the reader. Its types have
to be types, made of tokens of some text, and its values have to end where the reader of values says
that they end (`IsValue`). The spans of a definition and of its fields are those of the trees that
they are written with.

A reader is described by the trees it takes from the front and the value it makes of them
(`Reader.Yields`), whatever the cursor has passed.

Main statement: `Variant.parse_spelled`.
-/

namespace InlineVariants

/-! ## Values -/

/-- No comma among the trees ends the value, and behind them no turbofish bracket and no closure bar
is open. -/
def ValueState.Closes (st : ValueState) : List Tree → Prop
  | [] => st.angles = 0 ∧ st.bars = false
  | t :: ts => st.isEnd t = false ∧ (st.push t).Closes ts

/-- The trees are a value on their own. -/
def IsValue (value : List Tree) : Prop := value ≠ [] ∧ ({} : ValueState).Closes value

/-- What may stand behind a value: nothing, or a comma. -/
def EndsValue (rest : List Tree) : Prop := rest = [] ∨ ∃ span more, rest = .punct "," span :: more

theorem ValueState.Closes.valueRun_eq {st : ValueState} {value rest : List Tree}
    (h : st.Closes value) (hrest : EndsValue rest) : valueRun st (value ++ rest) = (value, rest) := by
  induction value generalizing st with
  | nil =>
    obtain ⟨hangles, hbars⟩ := h
    rcases hrest with rfl | ⟨span, more, rfl⟩
    · rfl
    · simp [valueRun, ValueState.isEnd, Tree.isPunct, hangles, hbars]
  | cons t ts ih =>
    obtain ⟨ht, hts⟩ := h
    rw [List.cons_append, valueRun, ht, ih hts]
    rfl

/-! ## Definitions and their trees -/

/-- A field that is made of lexed types and whole values, with the span of its trees. -/
def Spelled (type value : List Tree) (span : Span) (ts : List Tree) : Prop :=
  Lexed type ∧ IsValue value ∧ span = streamSpan ts

/-- The trees of a named entry that can be read back. -/
def NamedField.SpelledAs (f : NamedField) (ts : List Tree) : Prop :=
  f.WrittenAs ts ∧ Spelled f.type f.value f.span ts

/-- The trees of an unnamed entry that can be read back. -/
def UnnamedField.SpelledAs (f : UnnamedField) (ts : List Tree) : Prop :=
  f.WrittenAs ts ∧ Spelled f.type f.value f.span ts

theorem TypedValue.ne_nil {type value ts : List Tree} (h : TypedValue type value ts) : ts ≠ [] := by
  obtain ⟨span, rfl, -⟩ := h
  simp

theorem NamedField.SpelledAs.ne_nil {f : NamedField} {ts : List Tree} (h : f.SpelledAs ts) :
    ts ≠ [] := by
  obtain ⟨⟨colon, us, rfl, -⟩, -⟩ := h
  simp

theorem UnnamedField.SpelledAs.ne_nil {f : UnnamedField} {ts : List Tree} (h : f.SpelledAs ts) :
    ts ≠ [] := by
  obtain ⟨⟨us, rfl, htv⟩, -⟩ := h
  simp [htv.ne_nil]

/-- The trees of fields that can be read back. -/
def Fields.SpelledAs : Fields → List Tree → Prop
  | .unit, ts => ts = []
  | .named fs, ts => ∃ inner span, ts = [.group .brace inner span] ∧
      Joined NamedField.SpelledAs fs inner
  | .unnamed fs, ts => ∃ inner span, ts = [.group .paren inner span] ∧
      Joined UnnamedField.SpelledAs fs inner

/-- The trees of a definition that can be read back. -/
def Variant.SpelledAs (v : Variant) (ts : List Tree) : Prop :=
  ∃ visibility group discriminant,
    ts = attributeTrees v.attributes ++ (visibility ++ v.name.tree :: (group ++ discriminant)) ∧
    IsVisibility visibility ∧ isKeyword v.name.text = false ∧ v.fields.SpelledAs group ∧
    IsDiscriminant v.discriminant discriminant ∧ (∀ value ∈ v.discriminant, IsValue value) ∧
    v.span = streamSpan ts

/-! ## Readers -/

namespace Reader

/-- In front of `rest`, the reader takes the trees and makes the value of them. -/
def Yields (reader : Reader α) (ts rest : List Tree) (a : α) : Prop :=
  ∀ c : Cursor, c.ahead = ts ++ rest → reader c = .ok a (c.pass ts rest)

variable {α β : Type} {reader : Reader α} {ts us rest : List Tree} {a : α} {b : β}

theorem pass_pass (c : Cursor) (ts us mid rest : List Tree) :
    (c.pass ts mid).pass us rest = c.pass (ts ++ us) rest := by
  simp [Cursor.pass]

theorem pass_nil {c : Cursor} (h : c.ahead = [] ++ rest) : c.pass [] rest = c := by
  obtain rfl : c.ahead = rest := h
  rfl

theorem spanSince_pass (c : Cursor) (ts rest : List Tree) :
    (c.pass ts rest).spanSince c.pos = streamSpan ts := by
  have hstream : (c.pass ts rest).stream = c.passed.reverse ++ (ts ++ rest) := by
    simp [Cursor.pass, Cursor.stream]
  have hpos : (c.pass ts rest).pos = c.passed.reverse.length + ts.length := by
    simp [Cursor.pass, Cursor.pos, Nat.add_comm]
  have hlen : c.pos = c.passed.reverse.length := by simp [Cursor.pos]
  rw [Cursor.spanSince, hstream, hpos, hlen, Text.slice_natCast, List.drop_left,
    Nat.add_sub_cancel_left, List.take_left]

namespace Yields

theorem pure (a : α) : Yields (Pure.pure a) [] rest a := by
  intro c hc
  show EStateM.Result.ok a c = .ok a (c.pass [] rest)
  rw [pass_nil hc]

theorem bind {f : α → Reader β} (h : Yields reader ts (us ++ rest) a) (hf : Yields (f a) us rest b) :
    Yields (reader >>= f) (ts ++ us) rest b := by
  intro c hc
  rw [List.append_assoc] at hc
  have hmid := hf (c.pass ts (us ++ rest)) rfl
  rw [pass_pass] at hmid
  simp only [Bind.bind, EStateM.bind, h c hc, hmid]

theorem bind_cons {t : Tree} {f : α → Reader β} (h : Yields reader [t] (us ++ rest) a)
    (hf : Yields (f a) us rest b) : Yields (reader >>= f) (t :: us) rest b := h.bind hf

/-- A reader behind which nothing more is taken. -/
theorem bind_nil {f : α → Reader β} (h : Yields reader ts rest a) (hf : Yields (f a) [] rest b) :
    Yields (reader >>= f) ts rest b := by
  rw [← List.append_nil ts]
  exact Yields.bind h hf

/-- A look at the cursor. -/
theorem look {f : Cursor → Reader α} (h : ∀ c, c.ahead = ts ++ rest → Yields (f c) ts rest a) :
    Yields (get >>= f) ts rest a := fun c hc => h c hc c hc

/-- A check that does not refuse. -/
theorem guard {p : Prop} [Decidable p] {k : γ → Reader α} {fault : Cursor → GrammarFault}
    {anchor : Cursor → Span} (hp : ¬ p) (h : Yields reader ts rest a) :
    Yields (if p then Reader.refuse fault anchor >>= k else reader) ts rest a := by
  rwa [if_neg hp]

end Yields

theorem eat?_yields (op : String) (span : Span) :
    Yields (eat? op) [.punct op span] rest (some span) := by
  intro c hc
  simp [eat?, hc, Tree.isPunct, Tree.span]

theorem eat?_yields_none {op : String} (h : ∀ span more, rest ≠ .punct op span :: more) :
    Yields (eat? op) [] rest none := by
  intro c hc
  rw [pass_nil hc]
  rw [List.nil_append] at hc
  cases rest with
  | nil => simp [eat?, hc]
  | cons t more =>
    have ht : t.isPunct op = false := by
      by_contra ht
      obtain ⟨span, rfl⟩ := Tree.eq_punct (by simpa using ht)
      exact h span more rfl
    simp [eat?, hc, ht]

theorem expect_yields (op context : String) (span : Span) :
    Yields (expect op context) [.punct op span] rest span :=
  (eat?_yields op span).bind_nil (.pure span)

theorem name_yields (what : String) {n : Name} (hn : isKeyword n.text = false) :
    Yields (name what) [n.tree] rest n := by
  intro c hc
  simp [name, hc, Name.tree, hn]

theorem attributes_yields (as : List Attribute) (h : ∀ span more, rest ≠ .punct "#" span :: more) :
    Yields attributes (attributeTrees as) rest as := by
  have hfrom (region : Span) (passed : List Tree) :
      attributesFrom region passed (attributeTrees as ++ rest) =
        .ok as ⟨(attributeTrees as).reverse ++ passed, rest, region⟩ := by
    induction as generalizing passed with
    | nil =>
      simp only [attributeTrees, List.flatMap_nil, List.nil_append, List.reverse_nil]
      unfold attributesFrom
      split
      · exact absurd rfl (h _ _)
      · exact absurd rfl (h _ _)
      · rfl
    | cons a as ih =>
      simp only [attributeTrees, List.flatMap_cons, Attribute.trees, List.cons_append,
        List.nil_append] at ih ⊢
      rw [attributesFrom, ih]
      simp
  intro c hc
  rw [attributes, hc, hfrom]
  rfl

/-! ## Entries -/

theorem run_bind {f : α → Reader β} {c c' : Cursor} (h : reader c = .ok a c') :
    (reader >>= f) c = f a c' := by
  simp only [Bind.bind, EStateM.bind, h]

/-- A type and a value are read as they are cut off. -/
theorem typeAndValue_cut {start : Nat} {label : FieldLabel} {type value : List Tree} {ty : TypeExpr}
    {span : Span} {c : Cursor} (hcut : typeRun 0 c.ahead = (type, .punct "=" span :: (value ++ rest)))
    (hty : TypeExpr.ofTrees type = .ok ty) (hne : value ≠ [])
    (hvalue : valueRun {} (value ++ rest) = (value, rest)) :
    typeAndValue start label c =
      .ok (type, value) (c.pass (type ++ .punct "=" span :: value) rest) := by
  have htype : type ≠ [] := by
    rintro rfl
    simp [TypeExpr.ofTrees] at hty
  have htypes : typeTrees c = .ok type (c.pass type (.punct "=" span :: value ++ rest)) := by
    simp only [typeTrees, hcut, List.cons_append]
  have hvalues : Yields valueTrees value rest value := by
    intro c hc
    simp only [valueTrees, hc, hvalue]
  refine (run_bind htypes).trans ?_
  rw [← pass_pass c type (.punct "=" span :: value) _ rest]
  refine (Yields.guard (by simpa using htype) ?_ : Yields _ (.punct "=" span :: value) rest _) _ rfl
  refine (eat?_yields "=" span).bind_cons (.guard (by simp) ?_)
  rw [hty]
  exact hvalues.bind_nil (.guard (by simpa using hne) (.pure _))

theorem typeAndValue_yields (start : Nat) (label : FieldLabel) {type value ts : List Tree}
    (h : TypedValue type value ts) (hlex : Lexed type) (hvalue : IsValue value)
    (hrest : EndsValue rest) : Yields (typeAndValue start label) ts rest (type, value) := by
  obtain ⟨span, rfl, ⟨ty, hty⟩, hne⟩ := h
  intro c hc
  refine typeAndValue_cut ?_ hty hne (hvalue.2.valueRun_eq hrest)
  rw [hc, List.append_assoc, List.cons_append, typeRun_type hty hlex]

theorem fieldName_yields (start : Nat) {n : Name} (hn : isKeyword n.text = false) (colon : Span) :
    Yields (anchoredFrom start do
      let name ← name "field name"
      let _ ← expect ":" ("after field name `" ++ name.text ++ "`")
      return name) [n.tree, .punct ":" colon] rest n := by
  have h : Yields (do
      let name ← name "field name"
      let _ ← expect ":" ("after field name `" ++ name.text ++ "`")
      return name) [n.tree, .punct ":" colon] rest n :=
    (name_yields _ hn).bind_cons ((expect_yields _ _ colon).bind_nil (.pure n))
  intro c hc
  rw [anchoredFrom, h c hc]

/-- Reads the type and the value of an entry that began at an index, and makes the entry. -/
def typedEntry (start : Nat) (label : FieldLabel) (mk : List Tree → List Tree → Span → α) : Reader α := do
  let (type, value) ← typeAndValue start label
  return mk type value ((← get).spanSince start)

/-- Behind the name of a named entry come its type and its value. -/
theorem namedEntry_lead {as : List Attribute} {n : Name} {colon : Span} {c : Cursor}
    (hc : c.ahead = attributeTrees as ++ n.tree :: .punct ":" colon :: ts)
    (hn : isKeyword n.text = false) :
    namedEntry c = typedEntry c.pos (.named n.text) (NamedField.mk as n)
      (c.pass (attributeTrees as ++ [n.tree, .punct ":" colon]) ts) := by
  have hattributes : Yields attributes _ (n.tree :: .punct ":" colon :: ts) _ :=
    attributes_yields as (by simp [Name.tree])
  have hname : Yields _ _ ts n := fieldName_yields c.pos hn colon
  show (attributes >>= _) c = _
  rw [run_bind (hattributes c hc), run_bind (hname _ rfl), pass_pass]
  rfl

/-- Behind the attributes of an unnamed entry come its type and its value. -/
theorem unnamedEntry_lead {index : Nat} {as : List Attribute} {c : Cursor}
    (hc : c.ahead = attributeTrees as ++ ts) (hhead : ∀ span more, ts ≠ .punct "#" span :: more) :
    unnamedEntry index c =
      typedEntry c.pos (.position index) (UnnamedField.mk as) (c.pass (attributeTrees as) ts) :=
  run_bind (attributes_yields as hhead c hc)

/-- The span of an entry is that of all its trees. -/
theorem typedEntry_cut {label : FieldLabel} {type value lead after : List Tree} {c : Cursor}
    {mk : List Tree → List Tree → Span → α} (h : typeAndValue c.pos label (c.pass lead ts) =
      .ok (type, value) ((c.pass lead ts).pass after rest)) :
    typedEntry c.pos label mk (c.pass lead ts) =
      .ok (mk type value (streamSpan (lead ++ after))) (c.pass (lead ++ after) rest) := by
  rw [typedEntry, run_bind h, pass_pass]
  show EStateM.Result.ok (mk type value (Cursor.spanSince (c.pass _ rest) c.pos)) _ = _
  rw [spanSince_pass]

theorem namedEntry_yields {f : NamedField} (h : f.SpelledAs ts) (hrest : EndsValue rest) :
    Yields namedEntry ts rest f := by
  obtain ⟨⟨colon, us, rfl, hn, htv⟩, hlex, hvalue, hspan⟩ := h
  intro c hc
  have htyped := typeAndValue_yields c.pos (.named f.name.text) htv hlex hvalue hrest
  rw [namedEntry_lead (by simpa using hc) hn, typedEntry_cut (htyped _ rfl),
    List.append_assoc, List.cons_append, List.cons_append, List.nil_append, ← hspan]

theorem unnamedEntry_yields (index : Nat) {f : UnnamedField} (h : f.SpelledAs ts)
    (hrest : EndsValue rest) : Yields (unnamedEntry index) ts rest f := by
  obtain ⟨⟨us, rfl, htv⟩, hlex, hvalue, hspan⟩ := h
  intro c hc
  have hhead : ∀ span more, us ++ rest ≠ .punct "#" span :: more := by
    obtain ⟨span, rfl, ⟨ty, hty⟩, -⟩ := htv
    rw [List.append_assoc]
    exact TypeExpr.ofTrees_head hty hlex _
  have htyped := typeAndValue_yields c.pos (.position index) htv hlex hvalue hrest
  rw [unnamedEntry_lead (by simpa using hc) hhead, typedEntry_cut (htyped _ rfl), ← hspan]

/-! ## Lists of entries -/

/-- The end of the level, or a comma and the end. -/
theorem another_yields_false (h : ts = [] ∨ ∃ span, ts = [.punct "," span]) :
    Yields another ts [] false := by
  refine .look fun c hc => ?_
  rcases h with rfl | ⟨span, rfl⟩
  · rw [if_pos (by simp [Cursor.atEnd, hc])]
    exact .pure false
  · rw [if_neg (by simp [Cursor.atEnd, hc])]
    refine (expect_yields "," _ span).bind_nil (.look fun c' hc' => ?_)
    have hmore : (!c'.atEnd) = false := by simp [Cursor.atEnd, hc']
    rw [hmore]
    exact .pure false

/-- A comma that more trees follow. -/
theorem another_yields_true (span : Span) (h : rest ≠ []) :
    Yields another [.punct "," span] rest true := by
  refine .look fun c hc => ?_
  rw [if_neg (by simp [Cursor.atEnd, hc])]
  refine (expect_yields "," _ span).bind_nil (.look fun c' hc' => ?_)
  have hmore : (!c'.atEnd) = true := by simpa [Cursor.atEnd, hc'] using h
  rw [hmore]
  exact .pure true

theorem entries_none {entry : Nat → Reader α} (limit index : Nat) :
    Yields (entries entry limit index) [] [] [] := by
  cases limit with
  | zero => exact .pure []
  | succ limit =>
    refine .look fun c hc => ?_
    rw [if_pos (by simp [Cursor.atEnd, hc])]
    exact .pure []

theorem entries_yields {entry : Nat → Reader α} {written : α → List Tree → Prop}
    (hentry : ∀ {a ts rest}, written a ts → EndsValue rest → ∀ index, Yields (entry index) ts rest a)
    (hne : ∀ {a ts}, written a ts → ts ≠ []) {as : List α} (h : Joined written as ts) {limit : Nat}
    (hlimit : ts.length ≤ limit) (index : Nat) : Yields (entries entry limit index) ts [] as := by
  -- an entry takes at least one tree, so the limit is not reached
  have hfirst {a : α} {ts us rest : List Tree} {as : List α} {limit : Nat} {index : Nat}
      (hw : written a ts) (hends : EndsValue (us ++ rest)) (hlen : (ts ++ us).length ≤ limit)
      (hmore : ∀ limit', us.length ≤ limit' → Yields (do
        if ← another then return a :: (← entries entry limit' (index + 1))
        return [a]) us rest as) : Yields (entries entry limit index) (ts ++ us) rest as := by
    have hpos := List.length_pos_iff.2 (hne hw)
    rw [List.length_append] at hlen
    obtain ⟨limit, rfl⟩ : ∃ n, limit = n + 1 := ⟨limit - 1, by omega⟩
    refine .look fun c hc => ?_
    rw [if_neg]
    · exact (hentry hw hends index).bind (hmore limit (by omega))
    · simp [Cursor.atEnd, hc, hne hw]
  induction h generalizing limit index with
  | nil => exact entries_none limit index
  | @last a ts hw =>
    rw [← List.append_nil ts] at hlimit ⊢
    exact hfirst hw (.inl rfl) hlimit fun _ _ =>
      (another_yields_false (.inl rfl)).bind_nil (.pure [a])
  | @trailing a ts span hw =>
    exact hfirst hw (.inr ⟨span, _, rfl⟩) hlimit fun _ _ =>
      (another_yields_false (.inr ⟨span, rfl⟩)).bind_nil (.pure [a])
  | @cons a b more ts us span hw hj ih =>
    refine hfirst hw (.inr ⟨span, _, rfl⟩) hlimit fun limit' hlen => ?_
    have hus : us ≠ [] := by
      cases hj with
      | last hb => exact hne hb
      | trailing hb => simp
      | cons hb => simp
    refine (another_yields_true span (by simpa using hus)).bind_cons ?_
    refine Yields.bind_nil (ih ?_ (index + 1)) (.pure _)
    rw [List.length_cons] at hlen
    omega

theorem allEntries_yields {entry : Nat → Reader α} {written : α → List Tree → Prop}
    (hentry : ∀ {a ts rest}, written a ts → EndsValue rest → ∀ index, Yields (entry index) ts rest a)
    (hne : ∀ {a ts}, written a ts → ts ≠ []) {as : List α} (h : Joined written as ts) :
    Yields (allEntries entry) ts [] as := by
  refine .look fun c hc => entries_yields hentry hne h ?_ 0
  rw [hc, List.append_nil]

/-! ## Variants -/

/-- A reader of entries that runs inside of a group. -/
theorem inside_yields {mk : List α → Fields} {reader : Reader (List α)} {as : List α}
    {d : Delimiter} {inner rest : List Tree} {span : Span} {c : Cursor}
    (h : Yields reader inner [] as) :
    inside d inner span rest (do return mk (← reader)) c =
      .ok (mk as) (c.pass [.group d inner span] rest) := by
  have hread : Yields (do return mk (← reader)) inner [] (mk as) := h.bind_nil (.pure (mk as))
  unfold inside
  rw [hread { ahead := inner, region := span } (by simp)]
  simp [Cursor.pass, Cursor.stream]

theorem fieldGroup_yields {fields : Fields} (h : fields.SpelledAs ts)
    (hrest : ∀ d inner span more, rest ≠ .group d inner span :: more) :
    Yields fieldGroup ts rest fields := by
  intro c hc
  cases fields with
  | unit =>
    obtain rfl : ts = [] := h
    rw [pass_nil hc]
    unfold fieldGroup
    split
    · rename_i heq
      exact absurd (hc.symm.trans heq) (hrest _ _ _ _)
    · rename_i heq
      exact absurd (hc.symm.trans heq) (hrest _ _ _ _)
    · rfl
  | named fs =>
    obtain ⟨inner, span, rfl, hj⟩ := h
    unfold fieldGroup
    rw [hc]
    exact inside_yields (allEntries_yields (fun hf hends _ => namedEntry_yields hf hends)
      NamedField.SpelledAs.ne_nil hj)
  | unnamed fs =>
    obtain ⟨inner, span, rfl, hj⟩ := h
    unfold fieldGroup
    rw [hc]
    exact inside_yields (allEntries_yields (fun hf hends i => unnamedEntry_yields i hf hends)
      UnnamedField.SpelledAs.ne_nil hj)

theorem visibility_yields {vis more : List Tree} {n : Name} (h : IsVisibility vis)
    (hn : isKeyword n.text = false) : Yields visibility vis (n.tree :: more) () := by
  intro c hc
  unfold visibility
  rcases h with rfl | ⟨span, rfl⟩ | ⟨span, inner, parens, rfl⟩
  · rw [pass_nil hc]
    have hpub : n.text ≠ "pub" := by
      rintro hpub
      rw [hpub] at hn
      revert hn
      decide
    rw [hc]
    simp [Name.tree, hpub]
  · rw [hc]
    rfl
  · rw [hc]
    rfl

theorem discriminant_yields (name : String) {d : Option (List Tree)} (h : IsDiscriminant d ts)
    (hvalue : ∀ value ∈ d, IsValue value) : Yields (discriminant name) ts [] d := by
  cases d with
  | none =>
    obtain rfl : ts = [] := h
    exact (eat?_yields_none (by simp)).bind_nil (.pure none)
  | some value =>
    obtain ⟨hne, span, rfl⟩ := h
    have hvalues : Yields valueTrees value [] value := by
      intro c hc
      simp only [valueTrees, hc, (hvalue value rfl).2.valueRun_eq (.inl rfl)]
    refine (eat?_yields "=" span).bind_cons ?_
    exact hvalues.bind_nil (.guard (by simpa using hne) (.pure _))

end Reader

theorem IsDiscriminant.ne_group {d : Option (List Tree)} {ts : List Tree} (h : IsDiscriminant d ts)
    (e : Delimiter) (inner : List Tree) (span : Span) (more : List Tree) :
    ts ≠ .group e inner span :: more := by
  cases d with
  | none =>
    obtain rfl : ts = [] := h
    simp
  | some value =>
    obtain ⟨-, eq, rfl⟩ := h
    simp

/-- A written definition is read back as it is, and its trees stay as they are. -/
theorem Variant.parse_spelled {v : Variant} {stream : List Tree} (h : v.SpelledAs stream)
    (span : Span) : Variant.parse stream span = ⟨.ok v, stream⟩ := by
  obtain ⟨vis, group, disc, hstream, hvis, hn, hfields, hdisc, hvalue, hspan⟩ := h
  have hattributes : Reader.Yields Reader.attributes _ (vis ++ v.name.tree :: (group ++ disc)) _ :=
    Reader.attributes_yields v.attributes (by
      rcases hvis with rfl | ⟨_, rfl⟩ | ⟨_, _, _, rfl⟩ <;> simp [Name.tree])
  have hvisibility : Reader.Yields _ _ (v.name.tree :: (group ++ disc)) _ :=
    Reader.visibility_yields hvis hn
  have hname : Reader.Yields _ _ (group ++ disc) _ := Reader.name_yields "variant name" hn
  have hgroup := Reader.fieldGroup_yields hfields hdisc.ne_group
  have hdiscriminant := Reader.discriminant_yields v.name.text hdisc hvalue
  have hread (c : Cursor) (hc : c.ahead = stream) (hp : c.passed = []) :
      Reader.variant c = .ok v (c.pass stream []) := by
    show (Reader.attributes >>= _) c = _
    rw [Reader.run_bind (hattributes c (by rw [hc, hstream])), Reader.run_bind (hvisibility _ rfl),
      Reader.run_bind (hname _ rfl), Reader.run_bind (hgroup _ rfl),
      Reader.run_bind (hdiscriminant _ (by simp [Cursor.pass]))]
    have htaken : attributeTrees v.attributes ++ vis ++ [v.name.tree] ++ group ++ disc = stream := by
      simp [hstream]
    simp only [Reader.pass_pass, htaken]
    show EStateM.Result.ok { v with span := streamSpan (c.pass stream []).stream } _ = _
    simp only [Cursor.stream, Cursor.pass, hp, List.append_nil, List.reverse_reverse, ← hspan]
  unfold Variant.parse Reader.over
  rw [hread _ rfl rfl]
  simp [Cursor.pass, Cursor.stream]

/-- A definition with every part: an attribute, a type with a comma and a binding between its angle
brackets, a value with commas between closure bars and between turbofish brackets, a trailing comma
and a discriminant. -/
theorem Variant.parse_spelled_every_part :
    let type : List Tree := [.word "Map", .mark "<", .word "K", .mark ",", .word "Item", .mark "=",
      .word "u8", .mark ">"]
    let value : List Tree := [.mark "|", .word "a", .mark ",", .word "b", .mark "|", .word "g",
      .mark "::", .mark "<", .word "A", .mark ",", .word "B", .mark ">", .group .paren [] .unknown]
    let field : NamedField :=
      { attributes := [], name := ⟨"x", .unknown⟩, type := type, value := value, span := .unknown }
    let v : Variant :=
      { name := ⟨"A", .unknown⟩, attributes := [⟨.unknown, [.word "doc"], .unknown⟩]
        fields := .named [field], discriminant := some [.word "n"], span := .unknown }
    let entry : List Tree := [.word "x", .mark ":"] ++ type ++ [.mark "="] ++ value
    let contents : List Tree := [.mark "#", .group .bracket [.word "doc"] .unknown, .word "A",
      .group .brace (entry ++ [.mark ","]) .unknown, .mark "=", .word "n"]
    v.SpelledAs contents ∧ Variant.parse contents .unknown = ⟨.ok v, contents⟩ := by
  have htype : TypeExpr.ofTrees [.word "Map", .mark "<", .word "K", .mark ",", .word "Item",
      .mark "=", .word "u8", .mark ">"] = .ok (.path none false [.generic "Map"
        [.type (.path none false [.plain "K"]),
          .binding "Item" (.path none false [.plain "u8"])]]) := by cbv
  have hlexed : Lexed [.word "Map", .mark "<", .word "K", .mark ",", .word "Item", .mark "=",
      .word "u8", .mark ">"] :=
    .of_text "Map<K, Item = u8>".toList (by set_option maxRecDepth 2000 in cbv)
  intro type value field v entry contents
  have hvalue : IsValue value := by
    refine ⟨by simp [value], ?_⟩
    simp [value, ValueState.Closes, ValueState.isEnd, ValueState.push, closureMayStart, Tree.isPunct,
      Tree.mark, Tree.word]
  have hfield : field.SpelledAs entry :=
    ⟨⟨.unknown, _, rfl, rfl, .unknown, rfl, ⟨_, htype⟩, hvalue.1⟩, hlexed, hvalue, rfl⟩
  have hnumber : IsValue [.word "n"] := by
    simp [IsValue, ValueState.Closes, ValueState.isEnd, ValueState.push, Tree.isPunct, Tree.word]
  have hspelled : v.SpelledAs contents := by
    refine ⟨[], [.group .brace (entry ++ [.mark ","]) .unknown], [.mark "=", .word "n"], rfl,
      .inl rfl, rfl, ⟨_, .unknown, rfl, .trailing hfield⟩, ⟨by simp, .unknown, rfl⟩, ?_, rfl⟩
    rintro value ⟨⟩
    exact hnumber
  exact ⟨hspelled, Variant.parse_spelled hspelled .unknown⟩

end InlineVariants
