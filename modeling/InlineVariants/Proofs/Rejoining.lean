import InlineVariants.Proofs.Relexing

/-!
# Stretches of text put together

A stretch of a text can be put in front of another one, and its tokens are found there as before, if
what follows begins alike up to an inert character, or begins with an inert character at once
(`Sees`). Some tokens could grow nevertheless: a `/` in front of a `*`, or an `r` in front of a `#` or a
quote, may begin a comment or a raw string that is closed only by the other text. A text in which
there is no such token is called definite.

Main statement: the trees that are read in a stretch of a definite text are found in front of
another text; where the last of them is a group any text will do (`Reads.run`).
-/

namespace InlineVariants

open Text Lexeme

/-! ## Tokens that may grow -/

namespace Lexeme

/-- Whether a token in front of a text may begin a comment or a raw string that is not closed there. -/
def mayGrow (text rest : List Char) : Bool :=
  (text == ['/'] && rest.head? == some '*') ||
    ((text == ['r'] || text == ['b', 'r']) && (rest.head? == some '#' || rest.head? == some '\x22'))

/-- No token that is found in `cs`, from `p` on, may grow; `cs` is what the text `s` holds there. -/
def DefiniteFrom (s : List Char) (p : Position) (cs : List Char) : Prop :=
  ∀ l ∈ (scanFrom p cs).lexemes, mayGrow l.text.toList (s.drop l.stop.offset) = false

/-- No token of a text may grow. -/
def Definite (s : List Char) : Prop := DefiniteFrom s .first s

instance (s : List Char) : Decidable (Definite s) := inferInstanceAs (Decidable (∀ l ∈ _, _ = _))

namespace DefiniteFrom

variable {s cs rest : List Char} {p : Position}

theorem gap {gap : List Char} (hg : Gap gap) (h : DefiniteFrom s p (gap ++ cs)) :
    DefiniteFrom s (p.advance gap) cs := by
  rwa [DefiniteFrom, scanFrom_gap hg] at h

theorem token {cls : LexemeClass} {text : List Char} (ht : IsToken cls text rest)
    (hp : s.drop p.offset = text ++ rest) (h : DefiniteFrom s p (text ++ rest)) :
    mayGrow text rest = false ∧ DefiniteFrom s (p.advance text) rest := by
  rw [DefiniteFrom, scanFrom_token p ht] at h
  obtain ⟨hfirst, hrest⟩ := List.forall_mem_cons.1 h
  rw [String.toList_ofList, Position.drop_advance hp] at hfirst
  exact ⟨hfirst, hrest⟩

end DefiniteFrom

/-- A token that may not grow into a raw string in front of one text does not in front of another. -/
theorem rawString?_eq_none_of_mayGrow {old new text : List Char} {cls : LexemeClass}
    (h : Shared old new) (ht : token? (text ++ old) = some (cls, text.length))
    (hgrow : mayGrow text old = false) (ho : rawString? (text ++ old) = none) :
    rawString? (text ++ new) = none := by
  refine rawString?_eq_none_of_name ht h.akin ho fun hr => ?_
  rcases new with _ | ⟨c, new⟩
  · rfl
  have hnot : ∀ d, (d = '#' ∨ d = '\x22') → c ≠ d := by
    rintro d hd rfl
    obtain ⟨old', rfl, -⟩ := h.cons_of_not_inert (by rcases hd with rfl | rfl <;> decide)
    rcases hr with rfl | rfl <;> rcases hd with rfl | rfl <;> simp [mayGrow] at hgrow
  simp [rawFrom?, hnot '#' (.inl rfl), hnot '\x22' (.inr rfl)]

/-! ## Tokens that stay -/

/-- What follows a token tells the scanner no more than the old text did, and is no `:` that was not
there. -/
structure Sees (old new : List Char) : Prop extends Glance old new where
  colon : ∀ rest, new = ':' :: rest → ∃ rest', old = ':' :: rest'

/-- A `:` that is a token has no `:` behind it. -/
theorem not_isToken_colon {cls : LexemeClass} (rest : List Char) : ¬ IsToken cls [':'] (':' :: rest) := by
  intro h
  have hpair : IsToken .punct "::".toList rest := isToken_mark (by decide) (by simp) (by simp)
  have := h.token.symm.trans hpair.token
  simp at this

/-- A token that may not grow stays what it is. -/
theorem IsToken.stays {old new text : List Char} {cls : LexemeClass} (ht : IsToken cls text old)
    (h : Sees old new) (hgrow : mayGrow text old = false) : IsToken cls text new := by
  refine ht.move_of_raw h.toGlance (rawString?_eq_none_of_mayGrow h.shared ht.token hgrow) ?_ ?_
  · rintro rfl rest hnew
    obtain ⟨rest', rfl⟩ := h.colon rest hnew
    exact not_isToken_colon rest' ht
  · rintro rfl
    rcases new with _ | ⟨c, new⟩
    · rfl
    · have hstar : c ≠ '*' := by
        rintro rfl
        obtain ⟨old', rfl, -⟩ := h.shared.cons_of_not_inert (by decide)
        simp [mayGrow] at hgrow
      simp [blockComment?, hstar]

namespace Sees

variable {old new : List Char}

theorem of_inert (hi : Inert new) (hcolon : ∀ rest, new ≠ ':' :: rest) : Sees old new :=
  ⟨.of_inert hi, fun rest h => absurd h (hcolon rest)⟩

theorem of_char {c : Char} (hinert : c ∈ inertChars) (hcolon : c ≠ ':') : Sees old (c :: new) := by
  refine .of_inert ?_ ?_
  · rintro d rest ⟨⟩
    exact hinert
  · rintro rest ⟨⟩
    exact hcolon rfl

theorem sole {c : Char} {cls : LexemeClass} (h : (c, cls) ∈ soleMarks) : Sees old (c :: new) :=
  .of_char (inert_sole h).1 (inert_sole h).2

theorem gap_append {gap : List Char} (h : Sees old new) (hg : Gap gap) :
    Sees (gap ++ old) (gap ++ new) where
  toGlance := h.toGlance.gap_append hg
  colon rest hnew := by
    rcases gap with _ | ⟨c, gap⟩
    · exact h.colon rest hnew
    · obtain ⟨rfl, -⟩ := List.cons.inj hnew
      exact ⟨_, rfl⟩

theorem token_append {cls : LexemeClass} {text : List Char} (h : Sees old new)
    (ht : IsToken cls text old) : Sees (text ++ old) (text ++ new) where
  toGlance := h.toGlance.token_append ht
  colon rest hnew := by
    rcases text with _ | ⟨c, text⟩
    · exact absurd rfl ht.ne_nil
    · obtain ⟨rfl, -⟩ := List.cons.inj hnew
      exact ⟨_, rfl⟩

theorem opening {d : Delimiter} (h : d ≠ .invisible) : Sees old (d.opening.toList ++ new) := by
  obtain ⟨c, hc, hsole⟩ := sole_opening h
  rw [hc]
  exact .sole hsole

theorem closing {d : Delimiter} (h : d ≠ .invisible) : Sees old (d.closing.toList ++ new) := by
  obtain ⟨c, hc, hsole⟩ := sole_closing h
  rw [hc]
  exact .sole hsole

/-- Behind a space or a line break the texts may differ. -/
theorem gap_space {gap : List Char} {c : Char} (hg : Gap (gap ++ [c]))
    (hc : c ∈ [' ', '\n', '\t', '\r']) : Sees (gap ++ c :: old) (gap ++ c :: new) := by
  have hspaces : ∀ c ∈ [' ', '\n', '\t', '\r'], c ∈ inertChars ∧ c ≠ ':' := by
    simp [inertChars]
  obtain ⟨hinert, hcolon⟩ := hspaces c hc
  have hsees : Sees (c :: old) (c :: new) := .of_char hinert hcolon
  rcases gap with _ | ⟨d, gap⟩
  · exact hsees
  · refine ⟨.of_gap hg (hsees.shared.append gap), ?_⟩
    rintro rest ⟨⟩
    exact ⟨_, rfl⟩

/-- What may be left of a text that is passed over begins no token. -/
theorem passed {gap tail : List Char} (hg : Gap gap) (ht : Trailing tail) :
    Sees (gap ++ tail) (gap ++ tail) := by
  refine gap_append ?_ hg
  rcases ht with rfl | ⟨body, rfl, -⟩
  · exact .of_inert (by rintro c rest ⟨⟩) (by rintro rest ⟨⟩)
  · have hnil : Shared [] [] := .inert (by rintro c rest ⟨⟩)
    have hshared : Shared body body := by simpa using hnil.append body
    exact ⟨⟨.cons (.cons hshared), by rintro rest ⟨⟩, fun h => h⟩, by rintro rest ⟨⟩⟩

end Sees

end Lexeme

/-! ## Texts that are cut into words -/

/-- The text is cut into the words, up to the given rest of it. -/
inductive Cut : List Char → List Word → List Char → Prop
  | nil {cs : List Char} : Cut cs [] cs
  | gap {gap cs rest : List Char} {words : List Word} :
      Gap gap → Cut cs words rest → Cut (gap ++ cs) words rest
  | token {cls : LexemeClass} {text cs rest : List Char} {words : List Word} :
      IsToken cls text cs → Cut cs words rest →
      Cut (text ++ cs) ((cls, String.ofList text) :: words) rest

namespace Cut

theorem append {cs mid rest : List Char} {words words' : List Word} (h : Cut cs words mid)
    (h' : Cut mid words' rest) : Cut cs (words ++ words') rest := by
  induction h with
  | nil => exact h'
  | gap hg _ ih => exact .gap hg (ih h')
  | token ht _ ih => exact .token ht (ih h')

theorem group {gap inner gap' new : List Char} {d : Delimiter} {words : List Word} (hd : d ≠ .invisible)
    (hg : Gap gap) (hg' : Gap gap')
    (h : Cut (inner ++ (gap' ++ (d.closing.toList ++ new))) words
      (gap' ++ (d.closing.toList ++ new))) :
    Cut (gap ++ (d.opening.toList ++ (inner ++ (gap' ++ (d.closing.toList ++ new)))))
      ((.opening d, d.opening) :: (words ++ [(.closing d, d.closing)])) new := by
  have hclose : Cut (d.closing.toList ++ new) [(.closing d, d.closing)] new := by
    simpa using Cut.token (isToken_closing hd new) .nil
  have hopen := Cut.token (isToken_opening hd _) (h.append (.gap hg' hclose))
  rw [String.ofList_toList] at hopen
  exact .gap hg hopen

/-- The scanner finds the words, and goes on with the rest. -/
theorem scanFrom_eq {cs rest : List Char} {words : List Word} (h : Cut cs words rest) (p : Position) :
    ∃ q, (scanFrom p cs).lexemes.map Lexeme.word =
        words ++ (scanFrom q rest).lexemes.map Lexeme.word ∧
      (scanFrom p cs).stuck = (scanFrom q rest).stuck := by
  induction h generalizing p with
  | nil => exact ⟨p, rfl, rfl⟩
  | @gap gap cs rest words hg _ ih =>
    obtain ⟨q, hwords, hstuck⟩ := ih (p.advance gap)
    rw [scanFrom_gap hg]
    exact ⟨q, hwords, hstuck⟩
  | @token cls text cs rest words ht _ ih =>
    obtain ⟨q, hwords, hstuck⟩ := ih (p.advance text)
    rw [scanFrom_token p ht]
    exact ⟨q, by simp [hwords, Lexeme.word], hstuck⟩

end Cut

namespace Reads

variable {file : Option String} {s cs rest : List Char} {p q : Position} {ts : List Tree}

theorem definite (h : Reads file p cs ts q rest) (hp : s.drop p.offset = cs)
    (hd : DefiniteFrom s p cs) : DefiniteFrom s q rest := by
  induction h with
  | nil => exact hd
  | leaf hg ht _ _ _ ih =>
    have htext := Position.drop_advance hp
    exact ih (Position.drop_advance htext) ((hd.gap hg).token ht htext).2
  | group hg ho hr hg' hc _ ih ih' =>
    have hopening := Position.drop_advance hp
    have hinner := Position.drop_advance hopening
    have hclosing := Position.drop_advance (hr.drop_stop hinner)
    have hdinner := ih hinner ((hd.gap hg).token ho hopening).2
    exact ih' (Position.drop_advance hclosing) ((hdinner.gap hg').token hc hclosing).2

/-- What is read in a definite text is found in front of another text, if that tells the scanner no
more than what was there, or if the last tree is a group. -/
theorem run (h : Reads file p cs ts q rest) (hp : s.drop p.offset = cs) (hd : DefiniteFrom s p cs) :
    ∃ taken words, cs = taken ++ rest ∧ q = p.advance taken ∧ Spells words ts ∧
      (ts = [] → taken = [] ∧ words = []) ∧
      ∀ new, Sees rest new ∨ (∃ d inner span, ts.getLast? = some (.group d inner span)) →
        Cut (taken ++ new) words new ∧ Sees cs (taken ++ new) := by
  induction h with
  | nil =>
    refine ⟨[], [], rfl, rfl, .nil, fun _ => ⟨rfl, rfl⟩, fun new hnew => ⟨.nil, ?_⟩⟩
    rcases hnew with hnew | ⟨_, _, _, hlast⟩
    · exact hnew
    · cases hlast
  | @leaf p q gap text mid rest cls t ts hg ht hl he _ ih =>
    have htext := Position.drop_advance hp
    obtain ⟨hgrow, hdmid⟩ := (hd.gap hg).token ht htext
    obtain ⟨taken, words, rfl, rfl, hspells, -, hcut⟩ := ih (Position.drop_advance htext) hdmid
    refine ⟨gap ++ (text ++ taken), (cls, String.ofList text) :: words, by simp,
      by simp [Position.advance_append], .leaf hl (by rw [he, Lexeme.bare_leaf]; rfl) hspells, nofun, ?_⟩
    intro new hnew
    obtain ⟨hcut, hsees⟩ := hcut new <| by
      refine hnew.imp_right fun ⟨d, inner, span, hlast⟩ => ⟨d, inner, span, ?_⟩
      cases ts with
      | nil => exact absurd (he.symm.trans (Option.some.inj hlast)) leaf_ne_group
      | cons u us => rwa [List.getLast?_cons_cons] at hlast
    simp only [List.append_assoc]
    exact ⟨.gap hg (.token (ht.stays hsees hgrow) hcut), (hsees.token_append ht).gap_append hg⟩
  | @group p q r gap opening inner gap' closing mid rest d children ts hg ho hr hg' hc _ ih ih' =>
    have hopening := Position.drop_advance hp
    have hinner := Position.drop_advance hopening
    have hclosing := Position.drop_advance (hr.drop_stop hinner)
    have hdinner := ((hd.gap hg).token ho hopening).2
    have hdmid := (((hr.definite hinner hdinner).gap hg').token hc hclosing).2
    obtain ⟨taken, words, rfl, rfl, hspells, -, hcut⟩ := ih hinner hdinner
    obtain ⟨taken', words', rfl, rfl, hspells', hnil, hcut'⟩ :=
      ih' (Position.drop_advance hclosing) hdmid
    obtain ⟨rfl, hne⟩ := ho.opening
    obtain ⟨rfl, -⟩ := hc.closing
    refine ⟨gap ++ (d.opening.toList ++ (taken ++ (gap' ++ (d.closing.toList ++ taken')))),
      (.opening d, d.opening) :: (words ++ (.closing d, d.closing) :: words'), by simp,
      by simp [Position.advance_append], .group hspells hspells', nofun, fun new hnew => ?_⟩
    have hafter : Cut (taken' ++ new) words' new := by
      cases ts with
      | nil =>
        obtain ⟨rfl, rfl⟩ := hnil rfl
        exact .nil
      | cons u us =>
        refine (hcut' new (hnew.imp_right fun ⟨d, inner, span, hlast⟩ => ⟨d, inner, span, ?_⟩)).1
        rwa [List.getLast?_cons_cons] at hlast
    have hgroup := Cut.group hne hg hg' (hcut (gap' ++ (d.closing.toList ++ (taken' ++ new)))
      (.inl (Sees.gap_append (.closing hne) hg'))).1
    have hall := hgroup.append hafter
    simp only [List.append_assoc, List.cons_append, List.nil_append] at hall ⊢
    exact ⟨hall, Sees.gap_append (.opening hne) hg⟩

end Reads

end InlineVariants
