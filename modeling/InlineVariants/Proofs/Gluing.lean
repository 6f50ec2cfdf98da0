import InlineVariants.Proofs.Recovering

/-!
# Glued closing brackets

The lexer makes one token of the `>` that ends a type and the `=` behind it. The reader of entries takes
the token apart if it closes just the brackets that are open. An entry may be written with the `=` apart
or glued (`GluedValue`), and it is read as the same either way, as long as the brackets that are closed
were opened in the type itself and outside of groups (`LeavesOpen`). A `<` that comes out of an invisible
group is not counted, and behind it the reader looks for the end of the type further on.

Main statements: what is true of reading one entry (`Reader.Reglues`), for named entries
(`Reader.namedEntry_reglues`) and unnamed ones (`Reader.unnamedEntry_reglues`).
-/

namespace InlineVariants

/-! ## Ways to write an entry -/

/-- How many angle brackets are open behind some trees; those inside of groups do not count. -/
def openAngles (depth : Nat) : List Tree → Nat
  | [] => depth
  | .punct op _ :: ts => openAngles (angleDepth depth op) ts
  | _ :: ts => openAngles depth ts

/-- Trees that leave a number of angle brackets open. -/
def LeavesOpen (front : List Tree) (n : Nat) : Prop := openAngles 0 front = n

/-- Glued `>` may stand anywhere. -/
def Anywhere (_ : List Tree) (_ : Nat) : Prop := True

/-- No `>` may be glued. -/
def Nowhere (_ : List Tree) (_ : Nat) : Prop := False

/-- The ways to write `type = value`: with the `=` apart, or with one or two `>` that end the type glued
to it. Which trees may stand in front of how many glued `>`, is up to `closes`. -/
inductive GluedValue (closes : List Tree → Nat → Prop) (type value : List Tree) : List Tree → Prop
  | apart {span : Span} : GluedValue closes type value (type ++ .punct "=" span :: value)
  | glued {front closers : List Tree} {op : String} {span : Span} :
      type = front ++ closers → (∀ t ∈ closers, t.isPunct ">" = true) →
      gluedAngles? op = some closers.length → closes front closers.length →
      GluedValue closes type value (front ++ .punct op span :: value)

/-- The ways to write a named entry. -/
def NamedField.GluedAs (closes : List Tree → Nat → Prop) (f : NamedField) (ts : List Tree) : Prop :=
  ∃ colon us, ts = attributeTrees f.attributes ++ f.name.tree :: .punct ":" colon :: us ∧
    GluedValue closes f.type f.value us

/-- The ways to write an unnamed entry. -/
def UnnamedField.GluedAs (closes : List Tree → Nat → Prop) (f : UnnamedField) (ts : List Tree) : Prop :=
  ∃ us, ts = attributeTrees f.attributes ++ us ∧ GluedValue closes f.type f.value us

/-- A field with the same attributes, name and value, and with a type of the same tokens. -/
def NamedField.SameAs (f g : NamedField) : Prop :=
  g.attributes = f.attributes ∧ g.name = f.name ∧ bareOf g.type = bareOf f.type ∧ g.value = f.value

/-- A field with the same attributes and value, and with a type of the same tokens. -/
def UnnamedField.SameAs (f g : UnnamedField) : Prop :=
  g.attributes = f.attributes ∧ bareOf g.type = bareOf f.type ∧ g.value = f.value

theorem GluedValue.weaken {closes : List Tree → Nat → Prop} {type value ts : List Tree}
    (h : GluedValue closes type value ts) : GluedValue Anywhere type value ts := by
  cases h with
  | apart => exact .apart
  | glued htype hclosers hop _ => exact .glued htype hclosers hop trivial

theorem TypedValue.glued {closes : List Tree → Nat → Prop} {type value ts : List Tree}
    (h : TypedValue type value ts) : GluedValue closes type value ts := by
  obtain ⟨span, rfl, -⟩ := h
  exact .apart

theorem GluedValue.cons {closes closes' : List Tree → Nat → Prop} {t : Tree} {type value ts : List Tree}
    (h : GluedValue closes type value ts)
    (himp : ∀ front n, closes front n → closes' (t :: front) n) :
    GluedValue closes' (t :: type) value (t :: ts) := by
  cases h with
  | apart => exact .apart
  | @glued front closers op span htype hclosers hop hopen =>
    exact @GluedValue.glued _ _ _ (t :: front) closers op span (congrArg (t :: ·) htype) hclosers hop
      (himp _ _ hopen)

/-- The value may be cut. -/
theorem GluedValue.cut {closes : List Tree → Nat → Prop} {type value rest ts : List Tree}
    (h : GluedValue closes type (value ++ rest) ts) :
    ∃ us, ts = us ++ rest ∧ GluedValue closes type value us := by
  cases h with
  | @apart span => exact ⟨type ++ .punct "=" span :: value, by simp, .apart⟩
  | @glued front closers op span htype hclosers hop hopen =>
    exact ⟨front ++ .punct op span :: value, by simp, .glued htype hclosers hop hopen⟩

theorem GluedValue.ne_nil {closes : List Tree → Nat → Prop} {type value ts : List Tree}
    (h : GluedValue closes type value ts) : ts ≠ [] := by
  cases h <;> simp

/-- A type that does not begin like an attribute does not begin like one when it is glued. -/
theorem GluedValue.head_ne {closes : List Tree → Nat → Prop} {type value ts : List Tree}
    (h : GluedValue closes type value ts) (hne : type ≠ [])
    (hhead : ∀ span more, type ≠ .punct "#" span :: more) (rest : List Tree) (span : Span)
    (more : List Tree) : ts ++ rest ≠ .punct "#" span :: more := by
  cases h with
  | apart =>
    obtain ⟨t, ts, rfl⟩ := List.exists_cons_of_ne_nil hne
    rintro he
    cases he
    exact hhead _ _ rfl
  | @glued front closers op _ htype _ hop =>
    cases front with
    | nil => rcases gluedAngles?_cases hop with ⟨rfl, -⟩ | ⟨rfl, -⟩ <;> simp
    | cons t front =>
      rintro he
      cases he
      exact hhead _ _ htype

/-! ## Runs over types -/

theorem bareOf_append (ts us : List Tree) : bareOf (ts ++ us) = bareOf ts ++ bareOf us := by
  simp [bareOf_eq_map]

theorem openAngles_cons (depth : Nat) (t : Tree) (ts : List Tree) :
    openAngles depth (t :: ts) = openAngles (openAngles depth [t]) ts := by
  cases t <;> rfl

theorem openAngles_append (depth : Nat) (ts us : List Tree) :
    openAngles depth (ts ++ us) = openAngles (openAngles depth ts) us := by
  induction ts generalizing depth with
  | nil => rfl
  | cons t ts ih => rw [List.cons_append, openAngles_cons, ih, ← openAngles_cons]

/-- A run that takes everything counts the first tree and goes on, whatever is behind it. -/
theorem typeRun_cons_inv {depth : Nat} {t : Tree} {ts : List Tree}
    (h : typeRun depth (t :: ts) = (t :: ts, [])) : typeRun (openAngles depth [t]) ts = (ts, []) ∧
      ∀ us, typeRun depth (t :: us) =
        (t :: (typeRun (openAngles depth [t]) us).1, (typeRun (openAngles depth [t]) us).2) := by
  have hstep : ∀ us, typeRun depth (t :: us) =
      (t :: (typeRun (openAngles depth [t]) us).1, (typeRun (openAngles depth [t]) us).2) := by
    cases t with
    | punct op span =>
      intro us
      rw [typeRun] at h
      split_ifs at h with hend hglued
      · simp at h
      · simp at h
      · rw [typeRun, if_neg hend, if_neg hglued]
        rfl
    | ident | literal | group => exact typeRun_other (by simp)
  rw [hstep, Prod.mk.injEq, List.cons.injEq] at h
  exact ⟨Prod.ext h.1.2 h.2, hstep⟩

/-- A run that has taken everything goes on behind it with the brackets that are open. -/
theorem typeRun_append {depth : Nat} {ts : List Tree} (h : typeRun depth ts = (ts, []))
    (rest : List Tree) : typeRun depth (ts ++ rest) =
      (ts ++ (typeRun (openAngles depth ts) rest).1, (typeRun (openAngles depth ts) rest).2) := by
  induction ts generalizing depth with
  | nil => rfl
  | cons t ts ih =>
    obtain ⟨hts, hstep⟩ := typeRun_cons_inv h
    rw [List.cons_append, hstep, ih hts, ← openAngles_cons]
    rfl

/-- A run that takes everything takes every beginning of it. -/
theorem typeRun_front {depth : Nat} {front more : List Tree}
    (h : typeRun depth (front ++ more) = (front ++ more, [])) : typeRun depth front = (front, []) := by
  induction front generalizing depth with
  | nil => rfl
  | cons t front ih =>
    obtain ⟨hts, hstep⟩ := typeRun_cons_inv h
    rw [hstep, ih hts]

/-- Closing brackets are the same up to spans if there are as many of them. -/
theorem bareOf_closers {closers : List Tree} (h : ∀ t ∈ closers, t.isPunct ">" = true) :
    bareOf closers = List.replicate closers.length (.mark ">") := by
  induction closers with
  | nil => rfl
  | cons t closers ih =>
    obtain ⟨span, rfl⟩ := Tree.eq_punct (h t List.mem_cons_self)
    rw [bareOf, ih fun u hu => h u (List.mem_cons_of_mem _ hu)]
    rfl

theorem bareOf_anglePieces (span : Span) (n : Nat) :
    bareOf (anglePieces span n) = List.replicate n (.mark ">") := by
  rw [bareOf_closers]
  · simp [anglePieces]
  · simp [anglePieces, Tree.isPunct]

section TypeEnds

variable {type value : List Tree} (h : TypeEnds type)

include h

theorem TypeEnds.typeRun_self : typeRun 0 type = (type, []) := by simpa using h.2 [] (.inl rfl)

/-- A type that ends in front of a comma leaves no bracket open. -/
theorem TypeEnds.openAngles_eq : openAngles 0 type = 0 := by
  have hcomma := h.2 [.mark ","] (.comma [])
  rw [typeRun_append h.typeRun_self] at hcomma
  by_contra hne
  simp [Tree.mark, typeRun, hne, gluedAngles?] at hcomma

/-- However an entry is written, if its glued token closes what is open, its type is cut off, and the
`=` and the value are behind it. -/
theorem TypeEnds.typeRun_glued {ts : List Tree} (hts : GluedValue LeavesOpen type value ts) :
    ∃ type' span, bareOf type' = bareOf type ∧
      ∀ rest, typeRun 0 (ts ++ rest) = (type', .punct "=" span :: (value ++ rest)) := by
  cases hts with
  | @apart span =>
    refine ⟨type, span, rfl, fun rest => ?_⟩
    rw [List.append_assoc, typeRun_append h.typeRun_self, h.openAngles_eq]
    simp [typeRun]
  | @glued front closers op span htype hclosers hop hopen =>
    subst htype
    have hfront := typeRun_front h.typeRun_self
    refine ⟨front ++ anglePieces span closers.length, span.charAt closers.length, ?_, fun rest => ?_⟩
    · rw [bareOf_append, bareOf_append, bareOf_anglePieces, bareOf_closers hclosers]
    · rw [List.append_assoc, typeRun_append hfront, hopen]
      rcases gluedAngles?_cases hop with ⟨rfl, hn⟩ | ⟨rfl, hn⟩ <;>
        simp [typeRun, hn, gluedAngles?, equalsPiece]

/-- A glued token that does not close what is open becomes a part of the type. -/
theorem TypeEnds.typeRun_passes {front closers : List Tree} {op : String} (span : Span)
    (htype : type = front ++ closers) (hop : gluedAngles? op = some closers.length)
    (hopen : ¬ LeavesOpen front closers.length) (rest : List Tree) :
    ∃ more, (typeRun 0 (front ++ .punct op span :: rest)).1 = front ++ .punct op span :: more := by
  subst htype
  have hfront := typeRun_front h.typeRun_self
  have hdepth : gluedAngles? op ≠ some (openAngles 0 front) := fun he =>
    hopen (Option.some.inj (he.symm.trans hop))
  rw [typeRun_append hfront, typeRun, if_neg _, if_neg hdepth]
  · exact ⟨_, rfl⟩
  · rcases gluedAngles?_cases hop with ⟨rfl, -⟩ | ⟨rfl, -⟩ <;> simp

/-- If the right type is cut off, a glued token has closed what was open. -/
theorem TypeEnds.glued_of_cut {ts rest type' more : List Tree}
    (hts : GluedValue Anywhere type value ts) (hcut : typeRun 0 (ts ++ rest) = (type', more))
    (hbare : bareOf type' = bareOf type) : GluedValue LeavesOpen type value ts := by
  cases hts with
  | apart => exact .apart
  | @glued front closers op span htype hclosers hop =>
    by_cases hopen : LeavesOpen front closers.length
    · exact .glued htype hclosers hop hopen
    obtain ⟨more', hmore⟩ := h.typeRun_passes span htype hop hopen (value ++ rest)
    rw [List.append_assoc, List.cons_append] at hcut
    rw [hcut] at hmore
    dsimp only at hmore
    rw [hmore, htype, bareOf_append, bareOf_append, bareOf_closers hclosers, bareOf] at hbare
    have hhead := List.append_cancel_left hbare
    rcases gluedAngles?_cases hop with ⟨rfl, hn⟩ | ⟨rfl, hn⟩ <;>
      simp [hn, List.replicate, Tree.bare, Tree.mark] at hhead

end TypeEnds

/-- What was taken apart at the end of a type has closed what was open. -/
theorem typeRun_equals_inv {depth : Nat} {ts rest : List Tree} {span : Span}
    (h : (typeRun depth ts).2 = .punct "=" span :: rest) :
    GluedValue (fun front n => openAngles depth front = n) (typeRun depth ts).1 rest ts := by
  fun_induction typeRun depth ts with
  | case1 => cases h
  | case2 => cases h; exact .apart
  | case3 depth op glued ts _ hop =>
    cases h
    exact @GluedValue.glued _ _ _ [] (anglePieces glued depth) op glued rfl
      (by simp [anglePieces, Tree.isPunct]) (by simpa [anglePieces] using hop)
      (by simp [anglePieces, openAngles])
  | case4 depth op glued ts _ _ run ih => exact (ih h).cons fun front n hopen => hopen
  | case5 depth t ts ht run ih =>
    refine (ih h).cons fun front n hopen => ?_
    rw [openAngles.eq_3 _ _ _ ht, hopen]

/-! ## Types of a text -/

/-- The number of open brackets goes from `a` to `b`, and every `>` on the way closes one. -/
def Balanced (a : Nat) (ts : List Tree) (b : Nat) : Prop :=
  openAngles a ts = b ∧
    ∀ front t more, ts = front ++ t :: more → t.isPunct ">" = true → 0 < openAngles a front

theorem Balanced.cons {a b d : Nat} {t : Tree} {ts : List Tree} (ht : openAngles a [t] = d)
    (hpos : t.isPunct ">" = true → 0 < a) (h : Balanced d ts b) : Balanced a (t :: ts) b := by
  refine ⟨by rw [openAngles_cons, ht, h.1], fun front u more he hu => ?_⟩
  cases front with
  | nil => cases he; exact hpos hu
  | cons t' front =>
    cases he
    rw [openAngles_cons, ht]
    exact h.2 front u more rfl hu

/-- The brackets of trees are counted like those of the words that spell them. -/
theorem Spells.balanced {words : List Word} {ts : List Tree} (h : Spells words ts) {a b : Nat}
    (hlead : Depths.Leads ⟨0, a⟩ ⟨0, b⟩ words) : Balanced a ts b := by
  induction h generalizing a with
  | nil =>
    obtain rfl : a = b := by simpa [Depths.Leads] using hlead
    exact ⟨rfl, by simp⟩
  | @leaf w t words ts hl ht _ ih =>
    obtain ⟨d, hpass, hrest⟩ := hlead.cons_inv
    obtain ⟨cls, text⟩ := w
    cases cls with
    | opening | closing => simp [LexemeClass.isLeaf] at hl
    | punct =>
      cases t with
      | punct op span =>
        obtain rfl : op = text := by simpa [Tree.bare, Word.leaf, Lexeme.leaf] using ht
        rcases passMark_cases hpass with ⟨rfl, rfl⟩ | ⟨rfl, ha, rfl⟩ | ⟨hlt, hgt, -, -, rfl⟩
        · exact (ih hrest).cons rfl (by simp [Tree.isPunct])
        · exact (ih hrest).cons rfl fun _ => Nat.pos_of_ne_zero ha
        · have hdepth : openAngles a [.punct op span] = a := by simp [openAngles, angleDepth, hlt, hgt]
          exact (ih hrest).cons hdepth (by simp [Tree.isPunct, hgt])
      | _ => simp [Tree.bare, Word.leaf, Lexeme.leaf] at ht
    | _ =>
      obtain rfl : ⟨0, a⟩ = d := by simpa [Depths.pass] using hpass
      cases t with
      | punct | group => simp [Tree.bare, Word.leaf, Lexeme.leaf] at ht
      | ident | literal => exact (ih hrest).cons rfl (by simp [Tree.isPunct])
  | @group d span inner words children ts hin _ _ ih =>
    obtain ⟨-, hrest⟩ := hin.leads_group_inv hlead
    exact (ih hrest).cons rfl (by simp [Tree.isPunct])

/-- If nothing is open behind some `>`, as many brackets were open in front of them. -/
theorem Balanced.leavesOpen {front closers : List Tree} (h : Balanced 0 (front ++ closers) 0)
    (hclosers : ∀ t ∈ closers, t.isPunct ">" = true) : LeavesOpen front closers.length := by
  induction closers generalizing front with
  | nil => exact List.append_nil front ▸ h.1
  | cons t closers ih =>
    obtain ⟨ht, hclosers⟩ := List.forall_mem_cons.1 hclosers
    have hopen := h.2 front t closers rfl ht
    rw [List.append_cons] at h
    have hrest : openAngles 0 (front ++ [t]) = closers.length := ih h hclosers
    obtain ⟨span, rfl⟩ := Tree.eq_punct ht
    have hlast : openAngles 0 (front ++ [.punct ">" span]) = openAngles 0 front - 1 :=
      openAngles_append _ _ _
    show openAngles 0 front = closers.length + 1
    omega

/-- In a type that is made of tokens of a text, every `>` closes a bracket that is open. -/
theorem GluedValue.leavesOpen {type value ts : List Tree} {ty : TypeExpr}
    (h : GluedValue Anywhere type value ts) (hty : TypeExpr.ofTrees type = .ok ty)
    (hlex : Lexed type) : GluedValue LeavesOpen type value ts := by
  cases h with
  | apart => exact .apart
  | @glued front closers op span htype hclosers hop =>
    obtain ⟨ls, e, htypes, hspells⟩ := TypeExpr.ofTrees_eq_ok hty hlex
    have hbalanced := hspells.balanced (htypes.keeps ⟨0, 0⟩)
    refine .glued htype hclosers hop ?_
    subst htype
    exact hbalanced.leavesOpen hclosers

namespace Reader

/-! ## Runs over one entry -/

/-- A way to write an entry is read as what it says. -/
theorem typeAndValue_glued {type value ts rest : List Tree} (h : TypeEnds type) (hvalue : value ≠ [])
    (hty : ∃ ty, TypeExpr.ofTrees type = .ok ty) (hts : GluedValue LeavesOpen type value ts)
    (hrest : valueRun {} (value ++ rest) = (value, rest)) :
    ∃ type' after, bareOf type' = bareOf type ∧ bareOf after = bareOf (type ++ .mark "=" :: value) ∧
      ∀ start label c, c.ahead = ts ++ rest →
        typeAndValue start label c = .ok (type', value) (c.pass after rest) := by
  obtain ⟨type', span, hbare, hcut⟩ := h.typeRun_glued hts
  obtain ⟨ty, hty⟩ := hty
  have hty' : TypeExpr.ofTrees type' = .ok ty := by
    rw [TypeExpr.ofTrees_eq_ok_iff] at hty ⊢
    rwa [renderSpaced, ← streamWords_bareOf, hbare, streamWords_bareOf]
  refine ⟨type', type' ++ .punct "=" span :: value, hbare, ?_, fun start label c hc => ?_⟩
  · rw [bareOf_append, hbare, bareOf_append]
    rfl
  · exact typeAndValue_cut (hc ▸ hcut rest) hty' hvalue hrest

/-- If a way to write an entry is read as what it says, a glued token has closed what was open, and the
value ends where it says. -/
theorem typeAndValue_glued_inv {type value ts rest : List Tree} {start : Nat} {label : FieldLabel}
    {c c' : Cursor} {r : List Tree × List Tree} (h : TypeEnds type)
    (hts : GluedValue Anywhere type value ts) (hc : c.ahead = ts ++ rest)
    (hr : typeAndValue start label c = .ok r c') (hbare : bareOf r.1 = bareOf type)
    (hvalue : r.2 = value) :
    GluedValue LeavesOpen type value ts ∧ valueRun {} (value ++ rest) = (value, rest) := by
  have hruns := typeAndValue_runs start label c
  rw [hr] at hruns
  obtain ⟨-, left, -, -, -, -, span, mid, hcut, hrun⟩ := hruns
  rw [hc] at hcut
  have hglued := h.glued_of_cut hts hcut hbare
  obtain ⟨type', span', -, hcut'⟩ := h.typeRun_glued hglued
  obtain rfl : value ++ rest = mid := by
    rw [hcut'] at hcut
    simp only [Prod.mk.injEq, List.cons.injEq] at hcut
    exact hcut.2.2
  have hahead : value ++ c'.ahead = value ++ rest := by
    simpa [hrun, hvalue] using valueRun_append {} (value ++ rest)
  exact ⟨hglued, by rw [hrun, hvalue, List.append_cancel_left hahead]⟩

theorem run_bind_inv {reader : Reader α} {f : α → Reader β} {b : β} {c c' : Cursor}
    (h : (reader >>= f) c = .ok b c') : ∃ a c₁, reader c = .ok a c₁ ∧ f a c₁ = .ok b c' := by
  simp only [Bind.bind, EStateM.bind] at h
  cases hr : reader c with
  | error e c₁ => simp [hr] at h
  | ok a c₁ => exact ⟨a, c₁, rfl, by rwa [hr] at h⟩

theorem typedEntry_inv {start : Nat} {label : FieldLabel} {mk : List Tree → List Tree → Span → α}
    {a : α} {c c' : Cursor} (h : typedEntry start label mk c = .ok a c') :
    ∃ r c₁ span, typeAndValue start label c = .ok r c₁ ∧ a = mk r.1 r.2 span := by
  obtain ⟨r, c₁, hr, h⟩ := run_bind_inv h
  cases h
  exact ⟨r, _, _, hr, rfl⟩

/-- What is read as a type and a value is a way to write them. -/
theorem typeAndValue_written (start : Nat) (label : FieldLabel) :
    Meets (typeAndValue start label) fun ahead r _ ahead' =>
      ∃ ts, ahead = ts ++ ahead' ∧ GluedValue LeavesOpen r.1 r.2 ts := by
  apply (typeAndValue_runs start label).conseq
  rintro ahead r left ahead' ⟨-, -, span, mid, hcut, hrun⟩
  have hmid : mid = r.2 ++ ahead' := by simpa [hrun] using (valueRun_append {} mid).symm
  have hglued := typeRun_equals_inv (congrArg Prod.snd hcut)
  rw [hcut, hmid] at hglued
  exact hglued.cut

section

variable {written : List Tree → List Tree → List Tree → Prop}
  (h : ∀ start label, Meets (typeAndValue start label) fun ahead r _ ahead' =>
    ∃ ts, ahead = ts ++ ahead' ∧ written r.1 r.2 ts)
include h

theorem entry_written (start : Nat) (label : FieldLabel) (mk : List Tree → List Tree → Cursor → α) :
    Meets (do
      let (type, value) ← typeAndValue start label
      return mk type value (← get)) fun ahead a _ ahead' => ∃ type value c ts,
        a = mk type value c ∧ ahead = ts ++ ahead' ∧ written type value ts := by
  refine (h _ _).bind (q := fun r ahead a _ ahead' =>
    ∃ c, a = mk r.1 r.2 c ∧ ahead' = ahead) (fun r => .look fun c => ?_) ?_
  · exact (Meets.pure _).conseq fun _ _ _ _ ⟨ha, _, he⟩ _ => ⟨c, ha, he⟩
  · rintro ahead r _ mid a _ ahead' ⟨ts, rfl, hts⟩ ⟨c, ha, rfl⟩
    exact ⟨r.1, r.2, c, ts, ha, rfl, hts⟩

/-- A named entry stands in the source as its type and value do. -/
theorem namedEntry_written : Meets namedEntry fun ahead f _ ahead' => ∃ ts, ahead = ts ++ ahead' ∧
    ∃ colon us, ts = attributeTrees f.attributes ++ f.name.tree :: .punct ":" colon :: us ∧
      written f.type f.value us := by
  refine .look fun c => attributes_meets.bind (q := fun as ahead f _ ahead' => f.attributes = as ∧
    ∃ colon ts, ahead = f.name.tree :: .punct ":" colon :: (ts ++ ahead') ∧
      written f.type f.value ts) (fun as => (fieldName_leaves c.pos).bind
        (fun name => entry_written h c.pos _ fun type value c' =>
          NamedField.mk as name type value (c'.spanSince c.pos)) ?_) ?_
  · rintro ahead n _ mid f _ ahead' ⟨-, colon, rfl, rfl⟩ ⟨type, value, c', ts, rfl, rfl, hts⟩
    exact ⟨rfl, colon, ts, rfl, hts⟩
  · rintro ahead as _ mid f _ ahead' ⟨rfl, rfl⟩ ⟨rfl, colon, ts, hmid, hts⟩ -
    refine ⟨attributeTrees f.attributes ++ f.name.tree :: .punct ":" colon :: ts, ?_,
      colon, ts, rfl, hts⟩
    simp [attributeTrees, hmid]

theorem unnamedEntry_written (index : Nat) : Meets (unnamedEntry index) fun ahead f _ ahead' =>
    ∃ ts, ahead = ts ++ ahead' ∧ ∃ us, ts = attributeTrees f.attributes ++ us ∧
      written f.type f.value us := by
  refine .look fun c => attributes_meets.bind (fun as => entry_written h c.pos _ fun type value c' =>
    UnnamedField.mk as type value (c'.spanSince c.pos)) ?_
  rintro ahead as _ mid f _ ahead' ⟨rfl, rfl⟩ ⟨type, value, c', ts, rfl, rfl, hts⟩ -
  exact ⟨_, by simp [attributeTrees], ts, rfl, hts⟩

end

/-- What reading one entry has to do with the ways to write it. -/
structure Reglues {α : Type} (entry : Nat → Reader α) (good : α → Prop)
    (gluedAs : (List Tree → Nat → Prop) → α → List Tree → Prop) (same : α → α → Prop)
    (type value apart : α → List Tree) : Prop where
  refl : ∀ f, same f f
  ne_nil : ∀ {closes f ts}, gluedAs closes f ts → ts ≠ []
  weaken : ∀ {f ts}, gluedAs LeavesOpen f ts → gluedAs Anywhere f ts
  /-- In an entry of a text, glued tokens close what is open. -/
  lexed : ∀ {f ts}, good f → Lexed (type f) → gluedAs Anywhere f ts → gluedAs LeavesOpen f ts
  /-- An entry whose glued tokens close what is open is read, and left apart. -/
  reads : ∀ {f ts rest}, good f → gluedAs LeavesOpen f ts →
    valueRun {} (value f ++ rest) = (value f, rest) →
    ∃ f' after, same f f' ∧ bareOf after = bareOf (apart f) ∧
      ∀ index c, c.ahead = ts ++ rest → entry index c = .ok f' (c.pass after rest)
  /-- Only such an entry is read as what it says. -/
  closes : ∀ {f f' ts rest index c c'}, good f → gluedAs Anywhere f ts →
    c.ahead = ts ++ rest → entry index c = .ok f' c' → same f f' →
    gluedAs LeavesOpen f ts ∧ valueRun {} (value f ++ rest) = (value f, rest)
  /-- Whatever is read is such an entry, and is left apart. -/
  writes : ∀ {f index c c'}, entry index c = .ok f c' →
    ∃ ts left, c.ahead = ts ++ c'.ahead ∧ c'.passed = left.reverse ++ c.passed ∧
      good f ∧ gluedAs LeavesOpen f ts ∧ gluedAs Nowhere f left

theorem namedEntry_reglues : Reglues (fun _ => namedEntry) (fun f => f.Ends ∧ ∃ ts, f.WrittenAs ts)
    NamedField.GluedAs NamedField.SameAs NamedField.type NamedField.value fun f =>
      attributeTrees f.attributes ++ f.name.tree :: .mark ":" :: (f.type ++ .mark "=" :: f.value) where
  refl f := ⟨rfl, rfl, rfl, rfl⟩
  ne_nil := by
    rintro _ f _ ⟨colon, us, rfl, -⟩
    simp
  weaken := by
    rintro f _ ⟨colon, us, rfl, hus⟩
    exact ⟨colon, us, rfl, hus.weaken⟩
  lexed := by
    rintro f _ ⟨-, _, _, _, -, -, _, -, ⟨ty, hty⟩, -⟩ hlex ⟨colon, us, rfl, hus⟩
    exact ⟨colon, us, rfl, hus.leavesOpen hty hlex⟩
  reads := by
    rintro f _ rest ⟨⟨htype, hvalue⟩, _, _, _, -, hn, _, -, hty, -⟩ ⟨colon, us, rfl, hus⟩ hrest
    obtain ⟨type', after, hbare, hafter, hread⟩ := typeAndValue_glued htype hvalue.1 hty hus hrest
    let lead := attributeTrees f.attributes ++ [f.name.tree, .punct ":" colon]
    refine ⟨⟨f.attributes, f.name, type', f.value, streamSpan (lead ++ after)⟩, lead ++ after,
      ⟨rfl, rfl, hbare, rfl⟩, ?_, fun index c hc => ?_⟩
    · simp [lead, bareOf_append, hafter, bareOf, Tree.bare, Tree.mark]
    · rw [namedEntry_lead (by simpa using hc) hn, typedEntry_cut (hread _ _ _ rfl)]
  closes := by
    rintro f f' _ rest index c c' ⟨⟨htype, -⟩, _, _, _, -, hn, -⟩ ⟨colon, us, rfl, hus⟩ hc h
      ⟨-, -, hbare, hvalue⟩
    rw [namedEntry_lead (by simpa using hc) hn] at h
    obtain ⟨r, c₁, span, hr, rfl⟩ := typedEntry_inv h
    obtain ⟨hglued, hrun⟩ := typeAndValue_glued_inv htype hus rfl hr hbare hvalue
    exact ⟨⟨colon, us, rfl, hglued⟩, hrun⟩
  writes := by
    intro f _ c c' h
    have hmeets := (namedEntry_ends.and
      (namedEntry_leaves.and (namedEntry_written typeAndValue_written))) c
    rw [h] at hmeets
    obtain ⟨-, left, hleft, -, ⟨hends, -⟩, ⟨hwritten, -⟩, ts, hts, hglued⟩ := hmeets
    refine ⟨ts, left, hts, hleft, ⟨hends, left, hwritten⟩, hglued, ?_⟩
    obtain ⟨colon, us, rfl, -, hus⟩ := hwritten
    exact ⟨colon, us, rfl, hus.glued⟩

theorem unnamedEntry_reglues : Reglues unnamedEntry (fun f => f.Ends ∧ ∃ ts, f.WrittenAs ts)
    UnnamedField.GluedAs UnnamedField.SameAs UnnamedField.type UnnamedField.value fun f =>
      attributeTrees f.attributes ++ (f.type ++ .mark "=" :: f.value) where
  refl f := ⟨rfl, rfl, rfl⟩
  ne_nil := by
    rintro _ f _ ⟨us, rfl, hus⟩
    simp [hus.ne_nil]
  weaken := by
    rintro f _ ⟨us, rfl, hus⟩
    exact ⟨us, rfl, hus.weaken⟩
  lexed := by
    rintro f _ ⟨-, _, _, -, _, -, ⟨ty, hty⟩, -⟩ hlex ⟨us, rfl, hus⟩
    exact ⟨us, rfl, hus.leavesOpen hty hlex⟩
  reads := by
    rintro f _ rest ⟨⟨htype, hhead, hvalue⟩, _, _, -, _, -, hty, -⟩ ⟨us, rfl, hus⟩ hrest
    obtain ⟨type', after, hbare, hafter, hread⟩ := typeAndValue_glued htype hvalue.1 hty hus hrest
    refine ⟨⟨f.attributes, type', f.value, streamSpan (attributeTrees f.attributes ++ after)⟩,
      attributeTrees f.attributes ++ after, ⟨rfl, hbare, rfl⟩, ?_, fun index c hc => ?_⟩
    · simp [bareOf_append, hafter]
    · rw [unnamedEntry_lead (by simpa using hc) (hus.head_ne htype.1 hhead rest),
        typedEntry_cut (hread _ _ _ rfl)]
  closes := by
    rintro f f' _ rest index c c' ⟨⟨htype, hhead, -⟩, -⟩ ⟨us, rfl, hus⟩ hc h ⟨-, hbare, hvalue⟩
    rw [unnamedEntry_lead (by simpa using hc) (hus.head_ne htype.1 hhead rest)] at h
    obtain ⟨r, c₁, span, hr, rfl⟩ := typedEntry_inv h
    obtain ⟨hglued, hrun⟩ := typeAndValue_glued_inv htype hus rfl hr hbare hvalue
    exact ⟨⟨us, rfl, hglued⟩, hrun⟩
  writes := by
    intro f index c c' h
    have hmeets := ((unnamedEntry_ends index).and
      ((unnamedEntry_leaves index).and (unnamedEntry_written typeAndValue_written index))) c
    rw [h] at hmeets
    obtain ⟨-, left, hleft, -, ⟨hends, -⟩, ⟨hwritten, -⟩, ts, hts, hglued⟩ := hmeets
    refine ⟨ts, left, hts, hleft, ⟨hends, left, hwritten⟩, hglued, ?_⟩
    obtain ⟨us, rfl, hus⟩ := hwritten
    exact ⟨us, rfl, hus.glued⟩

end Reader

end InlineVariants
