import InlineVariants.Proofs.TypeGrammar

/-!
# Innermost derivations of types

Taking every `::` and `+` into the innermost phrase that can take it loses no type: whatever has a
derivation has an innermost one. The argument follows the rules twice. First, a phrase that ends in
an open chain can be made longer by what may stand behind that chain (`Extends`). Then the items of a
chain are gone through from the last to the first. An item that would take the separator behind it
takes the whole rest of the chain; any other item stands in front of the rest as it is.

Main statement: `IsType.exists_innermost`.
-/

namespace InlineVariants

namespace TypeExpr

/-! ## Phrases that go on -/

/-- Shorter phrases that end in an open chain stay phrases of their kind with `more` behind them. -/
def Extends (k : Link) (n : Nat) (more : List Lexeme) (p : Phrase α) : Prop :=
  ∀ ls a e, ls.length < n → p ls a e → e.goesOn k = true → ∃ a' e', p (ls ++ more) a' e'

/-- What may stand behind the separator of a chain, in an innermost derivation. -/
def Continues (path ty : Phrase TypeExpr) : Link → List Lexeme → Prop
  | .path, ls => ∃ segments e, Chain true .path (IsSegment ty) ls segments e
  | .bounds, ls => ∃ bs e, Chain true .bounds (IsBound path) ls bs e

section Extending

variable {k : Link} {n : Nat} {s : Lexeme} {more : List Lexeme} {path ty : Phrase TypeExpr}

theorem Returned.extends (h : Extends k n more ty) : Extends k n more (Returned ty) := by
  intro ls ts e hn hr hopen
  cases hr with
  | none => cases k <;> simp [Ends.goesOn] at hopen
  | some hm ht =>
    rw [List.length_cons] at hn
    obtain ⟨t', e', ht'⟩ := h _ _ _ (by omega) ht hopen
    exact ⟨_, _, .some hm ht'⟩

theorem Listed.not_goesOn {close : Lexeme → Bool} {item : Phrase α} {ls : List Lexeme}
    {as : List α} {e : Ends} (h : Listed close item ls as e) : e.goesOn k = false := by
  rw [h.ends_eq]
  cases k <;> rfl

theorem IsSegment.extends (h : Extends k n more ty) : Extends k (n + 1) more (IsSegment ty) := by
  intro ls a e hn hseg hopen
  cases hseg with
  | plain => cases k <;> simp [Ends.goesOn] at hopen
  | generic _ _ hargs => simp [hargs.not_goesOn] at hopen
  | callable hl ho hparams hresult =>
    simp only [List.length_cons, List.length_append] at hn
    obtain ⟨result', e', hresult'⟩ := Returned.extends h _ _ _ (by omega) hresult hopen
    exact ⟨_, _, by simpa using IsSegment.callable hl ho hparams hresult'⟩

/-- A chain goes on in its last item if that can go on, and otherwise behind it. -/
theorem Chain.extends {k' : Link} {item : Phrase α} (h : Extends k n (s :: more) item)
    (hsep : k.isSep s = true) (hmore : k = k' → ∃ as e, Chain true k' item more as e) :
    Extends k n (s :: more) (Chain true k' item) := by
  intro _ _ _ hn hc hopen
  obtain @⟨ls, ms, a, as, e, e', ha, ht⟩ := hc
  induction ht generalizing ls a with
  | @nil e =>
    rw [List.append_nil] at hn ⊢
    by_cases hlast : e.goesOn k = true
    · obtain ⟨a', e', ha'⟩ := h _ _ _ hn ha hlast
      exact ⟨_, _, .single ha'⟩
    · obtain rfl := (Ends.goesOn_opened.1 hopen).resolve_right hlast
      obtain ⟨as', e', hc⟩ := hmore rfl
      refine ⟨_, _, .cons ha hsep (fun _ => ?_) hc⟩
      rw [Ends.takes_of_isSep hsep]
      exact Bool.eq_false_iff.2 hlast
  | cons hs hcut hb _ ih =>
    simp only [List.length_append, List.length_cons] at hn
    obtain ⟨as', e', hc⟩ := ih hopen hb (by rw [List.length_append]; omega)
    exact ⟨_, _, by simpa using Chain.cons ha hs hcut hc⟩

/-- The segments of a path go on. -/
theorem Chain.extends_segments (hty : Extends k n (s :: more) ty) (hsep : k.isSep s = true)
    (hmore : Continues path ty k more) :
    Extends k (n + 1) (s :: more) (Chain true .path (IsSegment ty)) :=
  Chain.extends (IsSegment.extends hty) hsep fun hk => by subst hk; exact hmore

theorem PathOver.extends (hty : Extends k n (s :: more) ty) (hsep : k.isSep s = true)
    (hmore : Continues path ty k more) :
    Extends k (n + 1) (s :: more) (PathOver true path ty) := by
  have hsegs := Chain.extends_segments hty hsep hmore
  intro ls t e hn hp hopen
  cases hp with
  | relative hc =>
    obtain ⟨segments', e', hc'⟩ := hsegs _ _ _ hn hc hopen
    exact ⟨_, _, .relative hc'⟩
  | absolute hm hc =>
    rw [List.length_cons] at hn
    obtain ⟨segments', e', hc'⟩ := hsegs _ _ _ (by omega) hc hopen
    exact ⟨_, _, .absolute hm hc'⟩
  | qualified ho hself hm hc =>
    simp only [List.length_cons, List.length_append] at hn
    obtain ⟨segments', e', hc'⟩ := hsegs _ _ _ (by omega) hc hopen
    exact ⟨_, _, by simpa using PathOver.qualified ho hself hm hc'⟩

theorem IsBound.extends (h : Extends k n more path) : Extends k n more (IsBound path) := by
  intro ls ts e hn hb hopen
  cases hb with
  | plain hp =>
    obtain ⟨t', e', hp'⟩ := h _ _ _ hn hp hopen
    exact ⟨_, _, .plain hp'⟩
  | lifetime => cases k <;> simp [Ends.goesOn] at hopen
  | relaxed hm hp =>
    rw [List.length_cons] at hn
    obtain ⟨t', e', hp'⟩ := h _ _ _ (by omega) hp hopen
    exact ⟨_, _, .relaxed hm hp'⟩
  | bound hbs hp =>
    rw [List.length_append] at hn
    obtain ⟨t', e', hp'⟩ := h _ _ _ (by omega) hp hopen
    exact ⟨_, _, by simpa using IsBound.bound hbs hp'⟩

theorem TypeOver.extends (hpath : Extends k n (s :: more) path) (hty : Extends k n (s :: more) ty)
    (hsep : k.isSep s = true) (hmore : Continues path ty k more) :
    Extends k (n + 1) (s :: more) (TypeOver true path ty) := by
  have hbounds : Extends k n (s :: more) (Chain true .bounds (IsBound path)) :=
    Chain.extends (IsBound.extends hpath) hsep fun hk => by subst hk; exact hmore
  intro ls t e hn h hopen
  cases h with
  | path hp =>
    obtain ⟨t', e', hp'⟩ := PathOver.extends hty hsep hmore _ _ _ hn hp hopen
    exact ⟨_, _, .path hp'⟩
  | reference hm ha hu ht =>
    simp only [List.length_cons, List.length_append] at hn
    obtain ⟨t', e', ht'⟩ := hty _ _ _ (by omega) ht hopen
    exact ⟨_, _, by simpa using TypeOver.reference hm ha hu ht'⟩
  | pointer hm hk ht =>
    simp only [List.length_cons] at hn
    obtain ⟨t', e', ht'⟩ := hty _ _ _ (by omega) ht hopen
    exact ⟨_, _, .pointer hm hk ht'⟩
  | tuple _ hparts => simp [hparts.not_goesOn] at hopen
  | slice => cases k <;> simp [Ends.goesOn] at hopen
  | array => cases k <;> simp [Ends.goesOn] at hopen
  | never => cases k <;> simp [Ends.goesOn] at hopen
  | impl hw hbs =>
    rw [List.length_cons] at hn
    obtain ⟨bs', e', hbs'⟩ := hbounds _ _ _ (by omega) hbs hopen
    exact ⟨_, _, .impl hw hbs'⟩
  | dyn hw hbs =>
    rw [List.length_cons] at hn
    obtain ⟨bs', e', hbs'⟩ := hbounds _ _ _ (by omega) hbs hopen
    exact ⟨_, _, .dyn hw hbs'⟩
  | function hh hparams hresult =>
    have hpos := hh.length_pos
    simp only [List.length_append] at hn
    obtain ⟨result', e', hresult'⟩ := Returned.extends hty _ _ _ (by omega) hresult hopen
    exact ⟨_, _, by simpa using TypeOver.function hh hparams hresult'⟩

/-- Paths and types that end in an open chain go on with what may stand behind the chain. -/
theorem extends_within (hsep : k.isSep s = true)
    (hmore : Continues (IsPath true) (IsType true) k more) (n : Nat) :
    Extends k n (s :: more) (IsPath true) ∧ Extends k n (s :: more) (IsType true) := by
  induction n with
  | zero => exact ⟨fun _ _ _ hn => absurd hn (by omega), fun _ _ _ hn => absurd hn (by omega)⟩
  | succ n ih =>
    obtain ⟨hpath, hty⟩ := ih
    constructor
    · rintro ls t e hn ⟨hp⟩ hopen
      obtain ⟨t', e', hp'⟩ := PathOver.extends hty hsep hmore _ _ _ hn hp hopen
      exact ⟨t', e', .mk hp'⟩
    · rintro ls t e hn ⟨ht⟩ hopen
      obtain ⟨t', e', ht'⟩ := TypeOver.extends hpath hty hsep hmore _ _ _ hn ht hopen
      exact ⟨t', e', .mk ht'⟩

end Extending

/-! ## From any derivation to an innermost one -/

/-- One more step of nesting: paths and types are recast when those inside them are. -/
theorem recast_succ {same : Prop} {n : Nat} {g g' : Bool}
    (hpath : Recast same n (IsPath g) (IsPath g')) (hty : Recast same n (IsType g) (IsType g'))
    (hsegs : Recast same (n + 1) (Chain g .path (IsSegment (IsType g)))
      (Chain g' .path (IsSegment (IsType g'))))
    (hbounds : Recast same n (Chain g .bounds (IsBound (IsPath g)))
      (Chain g' .bounds (IsBound (IsPath g')))) :
    Recast same (n + 1) (IsPath g) (IsPath g') ∧ Recast same (n + 1) (IsType g) (IsType g') := by
  constructor
  · rintro ls t e hn ⟨hp⟩
    obtain ⟨t', e', hp', hsame⟩ := PathOver.recast hpath hty hsegs _ _ _ hn hp
    exact ⟨t', e', .mk hp', hsame⟩
  · rintro ls t e hn ⟨ht⟩
    obtain ⟨t', e', ht', hsame⟩ := TypeOver.recast hpath hty hsegs hbounds _ _ _ hn ht
    exact ⟨t', e', .mk ht', hsame⟩

theorem Recast.zero {same : Prop} {p p' : Phrase α} : Recast same 0 p p' :=
  fun _ _ _ hn => absurd hn (Nat.not_lt_zero _)

/-- The items of a chain are recast from the last to the first. -/
theorem Chain.recast_innermost {n : Nat} {k : Link} {p p' : Phrase α} (h : Recast False n p p')
    (hext : ∀ s ms as e, k.isSep s = true → Chain true k p' ms as e → Extends k n (s :: ms) p') :
    Recast False n (Chain false k p) (Chain true k p') := by
  intro _ _ _ hn hc
  obtain @⟨ls, ms, a, as, e, e', ha, ht⟩ := hc
  induction ht generalizing ls a with
  | nil =>
    rw [List.append_nil] at hn ⊢
    obtain ⟨a', e', ha', -⟩ := h _ _ _ hn ha
    exact ⟨_, _, .single ha', False.elim⟩
  | @cons s _ _ _ _ _ _ _ hs _ hb _ ih =>
    simp only [List.length_append, List.length_cons] at hn
    obtain ⟨as', e', hc, -⟩ := ih hb (by rw [List.length_append]; omega)
    obtain ⟨a', e₂, ha', -⟩ := h _ _ _ (by omega) ha
    by_cases hopen : e₂.takes s = true
    · rw [Ends.takes_of_isSep hs] at hopen
      obtain ⟨a'', e₃, ha''⟩ := hext _ _ _ _ hs hc _ _ _ (by omega) ha' hopen
      exact ⟨_, _, .single ha'', False.elim⟩
    · exact ⟨_, _, .cons ha' hs (fun _ => Bool.eq_false_iff.2 hopen) hc, False.elim⟩

theorem recast_innermost (n : Nat) :
    Recast False n (IsPath false) (IsPath true) ∧ Recast False n (IsType false) (IsType true) := by
  induction n with
  | zero => exact ⟨.zero, .zero⟩
  | succ n ih =>
    obtain ⟨hpath, hty⟩ := ih
    refine recast_succ hpath hty ?_ ?_
    · refine Chain.recast_innermost (IsSegment.recast hty) fun s ms as e hs hc => ?_
      exact IsSegment.extends (extends_within hs ⟨as, e, hc⟩ n).2
    · refine Chain.recast_innermost (IsBound.recast hpath) fun s ms as e hs hc => ?_
      exact IsBound.extends (extends_within hs ⟨as, e, hc⟩ n).1

theorem recast_free (n : Nat) :
    Recast True n (IsPath true) (IsPath false) ∧ Recast True n (IsType true) (IsType false) := by
  induction n with
  | zero => exact ⟨.zero, .zero⟩
  | succ n ih =>
    obtain ⟨hpath, hty⟩ := ih
    refine recast_succ hpath hty ?_ ?_
    · exact Chain.recast (IsSegment.recast hty) (fun h => absurd h Bool.false_ne_true)
    · exact Chain.recast (IsBound.recast hpath) (fun h => absurd h Bool.false_ne_true)

/-- An innermost derivation is a derivation. -/
theorem IsType.free {ls : List Lexeme} {t : TypeExpr} {e : Ends} (h : IsType true ls t e) :
    IsType false ls t e := by
  obtain ⟨t', e', h', hsame⟩ := (recast_free (ls.length + 1)).2 _ _ _ (Nat.lt_succ_self _) h
  obtain ⟨rfl, rfl⟩ := hsame trivial
  exact h'

/-- Lexemes that have a derivation have an innermost one. -/
theorem IsType.exists_innermost {ls : List Lexeme} {t : TypeExpr} {e : Ends}
    (h : IsType false ls t e) : ∃ t' e', IsType true ls t' e' := by
  obtain ⟨t', e', h', -⟩ := (recast_innermost (ls.length + 1)).2 _ _ _ (Nat.lt_succ_self _) h
  exact ⟨t', e', h'⟩

end TypeExpr

end InlineVariants
