import InlineVariants.Proofs.Relexing

/-!
# Reading the spaced form

In the spaced form of a list of trees every word has a space or the end behind it, so no token can
grow, and it does not matter what stood behind the token where it came from. Only the brackets of an
empty group touch, and a bracket is a token whatever follows.

Main statements: the scanner finds in the spaced form of trees from some text the words that spell
these trees (`Lexed.scan_spaced`), so the spaced form of a text is read as the text was
(`tokenize_renderSpaced`).
-/

namespace InlineVariants

open Text Lexeme

/-! ## Words that stand apart -/

/-- A text that is empty or begins with a space. -/
def Apart (cs : List Char) : Prop := ∀ c rest, cs = c :: rest → c = ' '

theorem Lexeme.IsToken.apart {cls : LexemeClass} {text old new : List Char} (h : IsToken cls text old)
    (hn : Apart new) : IsToken cls text new := by
  have hi : Inert new := by
    intro c rest he
    rw [hn c rest he]
    decide
  refine h.move (.of_inert hi) ?_ ?_
  · rintro - rest rfl
    exact absurd (hn _ _ rfl) (by decide)
  · rintro rfl
    rcases new with _ | ⟨c, rest⟩
    · rfl
    · rw [hn c rest rfl]
      rfl

/-- The words of a spaced form and the tokens they stand for: each is a token on its own, or the two
brackets of an empty group. -/
inductive Laid : List String → List Word → Prop
  | nil : Laid [] []
  | token {cls : LexemeClass} {text : String} {ss : List String} {ws : List Word} :
      IsToken cls text.toList [] → Laid ss ws → Laid (text :: ss) ((cls, text) :: ws)
  | hollow {d : Delimiter} {ss : List String} {ws : List Word} :
      d ≠ .invisible → IsToken (.closing d) d.closing.toList [] → Laid ss ws →
      Laid ((d.opening ++ d.closing) :: ss) ((.opening d, d.opening) :: (.closing d, d.closing) :: ws)

namespace Laid

theorem append {ss ss' : List String} {ws ws' : List Word} (h : Laid ss ws) (h' : Laid ss' ws') :
    Laid (ss ++ ss') (ws ++ ws') := by
  induction h with
  | nil => exact h'
  | token ht _ ih => exact .token ht ih
  | hollow hd ht _ ih => exact .hollow hd ht ih

/-- The first word of a spaced form stands in front of the rest of it. -/
theorem intercalate_cons (s : String) (ss : List String) :
    ∃ tail, (" ".intercalate (s :: ss)).toList = s.toList ++ tail ∧ Apart tail ∧
      ∀ p, ∃ q, scanFrom p tail = scanFrom q (" ".intercalate ss).toList := by
  cases ss with
  | nil => exact ⟨[], by simp, nofun, fun p => ⟨p, by simp⟩⟩
  | cons t ts =>
    refine ⟨' ' :: (" ".intercalate (t :: ts)).toList, ?_, ?_, fun p => ⟨p.next ' ', ?_⟩⟩
    · simp [String.toList_intercalate]
    · rintro c rest ⟨⟩
      rfl
    · exact scanFrom_blank p _ (by decide)

/-- The scanner finds the tokens of a spaced form. -/
theorem scan_eq {ss : List String} {ws : List Word} (h : Laid ss ws) (p : Position) :
    (scanFrom p (" ".intercalate ss).toList).stuck = none ∧
      (scanFrom p (" ".intercalate ss).toList).lexemes.map Lexeme.word = ws := by
  induction h generalizing p with
  | nil => simp
  | @token cls text ss ws ht _ ih =>
    obtain ⟨tail, htext, happart, hscan⟩ := intercalate_cons text ss
    obtain ⟨q, hq⟩ := hscan (p.advance text.toList)
    obtain ⟨hstuck, hwords⟩ := ih q
    rw [htext, scanFrom_token p (ht.apart happart), hq]
    refine ⟨hstuck, ?_⟩
    rw [List.map_cons, hwords, Lexeme.word, String.ofList_toList]
  | @hollow d ss ws hd ht _ ih =>
    obtain ⟨tail, htext, happart, hscan⟩ := intercalate_cons (d.opening ++ d.closing) ss
    obtain ⟨q, hq⟩ := hscan ((p.advance d.opening.toList).advance d.closing.toList)
    obtain ⟨hstuck, hwords⟩ := ih q
    rw [htext, String.toList_append, List.append_assoc, scanFrom_token p (isToken_opening hd _),
      scanFrom_token _ (ht.apart happart), hq]
    refine ⟨hstuck, ?_⟩
    simp only [List.map_cons, hwords, Lexeme.word, String.ofList_toList]

end Laid

/-! ## Trees from a text -/

/-- A leaf that was read has one word, its own text. -/
theorem Lexeme.words_leaf {file : Option String} {l : Lexeme} (h : l.text ≠ "") :
    (l.leaf file).words = [l.text] := by
  unfold Lexeme.leaf
  cases l.cls <;> simp [Tree.words, leafWords, h]

theorem words_group {d : Delimiter} (hd : d ≠ .invisible) (ts : List Tree) (span : Span) :
    (Tree.group d ts span).words =
      match streamWords ts with
      | [] => [d.opening ++ d.closing]
      | ws => d.opening :: ws ++ [d.closing] := by
  cases d with
  | invisible => exact absurd rfl hd
  | paren | brace | bracket => rfl

/-- Which words spell a tree does not depend on its spans. -/
theorem Spells.of_bareOf {words : List Word} {ts us : List Tree} (h : Spells words ts)
    (hbare : bareOf ts = bareOf us) : Spells words us := by
  induction h generalizing us with
  | nil =>
    cases us with
    | nil => exact .nil
    | cons u us => simp [bareOf] at hbare
  | leaf hl ht _ ih =>
    cases us with
    | nil => simp [bareOf] at hbare
    | cons u us =>
      obtain ⟨hu, hus⟩ := List.cons.inj hbare
      exact .leaf hl (hu ▸ ht) (ih hus)
  | group _ _ ihin ih =>
    cases us with
    | nil => simp [bareOf] at hbare
    | cons u us =>
      obtain ⟨hu, hus⟩ := List.cons.inj hbare
      cases u with
      | ident | punct | literal => simp [Tree.bare] at hu
      | group e inner span =>
        simp only [Tree.bare, Tree.group.injEq] at hu
        obtain ⟨rfl, hinner, -⟩ := hu
        exact .group (ihin hinner) (ih hus)

namespace Forms

variable {file : Option String} {ls : List Lexeme} {ts : List Tree}

/-- The words of trees that are made of tokens are tokens on their own. -/
theorem laid (h : Forms file ls ts) :
    Laid (streamWords ts) (ls.map Lexeme.word) ∧ (streamWords ts = [] → ls = []) := by
  induction h with
  | nil => exact ⟨.nil, fun _ => rfl⟩
  | @leaf l mid ls t ts ht hl he _ ih =>
    have hne : l.text ≠ "" := fun he => ht.ne_nil (by rw [he]; rfl)
    rw [streamWords, he, Lexeme.words_leaf hne]
    exact ⟨.token (ht.apart nofun) ih.1, by simp⟩
  | @group d p q mid ls ms children ts hd hc _ _ ihin ih =>
    have hclosing : IsToken (.closing d) d.closing.toList [] := hc.apart nofun
    rw [streamWords, words_group hd]
    cases hwords : streamWords children with
    | nil =>
      rw [ihin.2 hwords]
      exact ⟨.hollow hd hclosing ih.1, by simp⟩
    | cons s ss =>
      rw [hwords] at ihin
      simp only [List.map_cons, List.map_append, List.cons_append, List.append_assoc]
      exact ⟨.token (isToken_opening hd []) (ihin.1.append (.token hclosing ih.1)), by simp⟩

/-- The scanner finds in the spaced form of trees the words that they are made of. -/
theorem scan_spaced (h : Forms file ls ts) :
    (scan (renderSpaced ts).toList).stuck = none ∧
      (scan (renderSpaced ts).toList).lexemes.map Lexeme.word = ls.map Lexeme.word :=
  h.laid.1.scan_eq .first

end Forms

/-- The trees are those of some text, up to spans. -/
def Lexed (ts : List Tree) : Prop :=
  ∃ text file us, tokenize text file = .ok us ∧ bareOf us = bareOf ts

theorem Lexed.of_text {ts : List Tree} (text : List Char)
    (h : (tokenize text none).map bareOf = .ok (bareOf ts)) : Lexed ts := by
  cases hread : tokenize text none with
  | error e => simp [hread, Except.map] at h
  | ok us => exact ⟨text, none, us, hread, by simpa [hread, Except.map] using h⟩

/-- The scanner finds in the spaced form of lexed trees the words that spell them. -/
theorem Lexed.scan_spaced {ts : List Tree} (h : Lexed ts) :
    (scan (renderSpaced ts).toList).stuck = none ∧
      Spells ((scan (renderSpaced ts).toList).lexemes.map Lexeme.word) ts := by
  obtain ⟨text, file, us, hus, hbare⟩ := h
  have hforms := tokenize_forms hus
  obtain ⟨hstuck, hscan⟩ := hforms.scan_spaced
  have hwords : streamWords us = streamWords ts := by
    rw [← streamWords_bareOf, hbare, streamWords_bareOf]
  rw [renderSpaced, hwords] at hstuck hscan
  exact ⟨hstuck, hscan ▸ hforms.spells.of_bareOf hbare⟩

/-- Trees that were read in some place are those of a text of their own. -/
theorem Reads.lexed {file : Option String} {p q : Position} {cs rest : List Char} {ts : List Tree}
    (h : Reads file p cs ts q rest) : Lexed ts := by
  obtain ⟨ls, -, hforms⟩ := h.forms
  obtain ⟨hstuck, hscan⟩ := hforms.scan_spaced
  obtain ⟨us, hus, hbare⟩ := (hscan ▸ hforms.spells).tokenize hstuck none
  exact ⟨_, none, us, hus, hbare⟩

theorem bareOf_eq_map (ts : List Tree) : bareOf ts = ts.map Tree.bare := by
  induction ts with
  | nil => rfl
  | cons t ts ih => rw [bareOf, ih, List.map_cons]

/-- A part of lexed trees is lexed. -/
theorem Lexed.part {ts us : List Tree} (h : Lexed ts) (hus : us <:+: ts) : Lexed us := by
  obtain ⟨text, file, ws, hws, hbare⟩ := h
  obtain ⟨before, after, rfl⟩ := hus
  simp only [bareOf_eq_map, List.append_assoc, List.map_append] at hbare
  obtain ⟨ws₁, ws', rfl, -, hbare⟩ := List.map_eq_append_iff.1 hbare
  obtain ⟨ws₂, ws₃, rfl, hbare, -⟩ := List.map_eq_append_iff.1 hbare
  obtain ⟨q, rest, hr, -⟩ := tokenize_reads hws
  obtain ⟨q₁, mid₁, -, hr⟩ := hr.append_inv
  obtain ⟨q₂, mid₂, hr, -⟩ := hr.append_inv
  obtain ⟨own, name, vs, hvs, hown⟩ := hr.lexed
  refine ⟨own, name, vs, hvs, hown.trans ?_⟩
  rw [bareOf_eq_map, bareOf_eq_map, hbare]

/-- The spaced form of a text is read as the same leaves in the same groups. -/
theorem tokenize_renderSpaced {s : List Char} {file : Option String} {trees : List Tree}
    (h : tokenize s file = .ok trees) (file' : Option String) :
    ∃ again, tokenize (renderSpaced trees).toList file' = .ok again ∧
      bareOf again = bareOf trees := by
  have hlexed : Lexed trees := ⟨s, file, trees, h, rfl⟩
  obtain ⟨hstuck, hspells⟩ := hlexed.scan_spaced
  exact hspells.tokenize hstuck file'

/-- A lifetime in front of a character, a raw string, an empty group, and a comment and a raw string
that are never closed. -/
theorem tokenize_renderSpaced_unclosed :
    let s := "f('a,'b',br#\"x\"#,1.e3)[]/*r#\"z\"".toList
    (tokenize s).map renderSpaced = .ok "f ( 'a , 'b' , br#\"x\"# , 1 . e3 ) [] / * r # \"z\"" ∧
    ∃ trees, tokenize s = .ok trees ∧ ∃ again, tokenize (renderSpaced trees).toList = .ok again ∧
      bareOf again = bareOf trees := by
  have hspaced : (tokenize "f('a,'b',br#\"x\"#,1.e3)[]/*r#\"z\"".toList).map renderSpaced =
      .ok "f ( 'a , 'b' , br#\"x\"# , 1 . e3 ) [] / * r # \"z\"" := by cbv
  refine ⟨hspaced, ?_⟩
  cases htrees : tokenize "f('a,'b',br#\"x\"#,1.e3)[]/*r#\"z\"".toList with
  | error e =>
    rw [htrees] at hspaced
    cases hspaced
  | ok trees => exact ⟨trees, rfl, tokenize_renderSpaced htrees none⟩

end InlineVariants
