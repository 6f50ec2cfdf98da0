import InlineVariants.Proofs.Declaring
import InlineVariants.Proofs.Emerging

/-!
# Firm texts

A printed text that is put into another one has to be cut into the same words there. It is firm if its
tokens are found one behind the other and none of them may grow. Firm texts can be put behind each other
where the second one begins with something inert (`Firm.join`), and a firm text that ends with a brace can
be read on its own (`Firm.legible`).

A printed text is firm if what it is printed from is steady: if no token that might be found in the source,
wherever one begins to look, may grow.

Main statements: what mirrors a steady source is firm if nothing fuses (`Mirrors.firm`), and a folded text
is firm if nothing in it is misread (`Retold.firm`).
-/

namespace InlineVariants

open Text Lexeme Layout

/-! ## Tokens that may not grow -/

namespace Lexeme

/-- The tokens that may grow. -/
def growing : List (List Char) := [['/'], ['r'], ['b', 'r']]

theorem mayGrow_of_not_mem {text : List Char} (h : text ∉ growing) (rest : List Char) :
    mayGrow text rest = false := by
  simp only [growing, List.mem_cons, List.not_mem_nil, or_false, not_or] at h
  simp [mayGrow, h]

/-- A token that may not grow in front of one text does not in front of another that looks like it. -/
theorem mayGrow_move {text old new : List Char} (h : Akin old new) (hgrow : mayGrow text old = false) :
    mayGrow text new = false := by
  rcases new with _ | ⟨c, new⟩
  · simp [mayGrow]
  have hsame (d : Char) (hd : d ∉ mildChars) (hc : c = d) : old.head? = some d := by
    subst hc
    obtain ⟨old', rfl⟩ := h.cons_of_not_mild hd
    rfl
  have hstar := hsame '*' (by decide)
  have hhash := hsame '#' (by decide)
  have hquote := hsame '\x22' (by decide)
  by_contra hnew
  simp only [mayGrow, List.head?_cons, Bool.not_eq_false, Bool.or_eq_true, Bool.and_eq_true, beq_iff_eq,
    Option.some.injEq] at hnew
  simp only [mayGrow, Bool.or_eq_false_iff, Bool.and_eq_false_iff, beq_eq_false_iff_ne] at hgrow
  grind

theorem mayGrow_nil (text : List Char) : mayGrow text [] = false := by simp [mayGrow]

/-- A `/` that may not grow opens no comment. -/
theorem blockComment?_of_mayGrow {text new : List Char} (h : mayGrow text new = false)
    (htext : text = ['/']) : blockComment? (text ++ new) = none := by
  subst htext
  rcases new with _ | ⟨c, new⟩
  · rfl
  · have hstar : c ≠ '*' := by
      rintro rfl
      simp [mayGrow] at h
    simp [blockComment?, hstar]

end Lexeme

/-- No token may grow that is found in the text, wherever in it one begins to look. -/
def Steady (s : List Char) : Prop :=
  ∀ cs ∈ s.tails, ∀ found ∈ token? cs, trivia? cs = none →
    mayGrow (cs.take found.2) (cs.drop found.2) = false

instance (s : List Char) : Decidable (Steady s) :=
  inferInstanceAs (Decidable (∀ cs ∈ s.tails, ∀ found ∈ token? cs, trivia? cs = none → _ = _))

namespace Steady

variable {s cs text rest : List Char} {cls : LexemeClass}

theorem of_suffix (h : Steady s) (hs : cs <:+ s) : Steady cs :=
  fun ds hds => h ds ((List.mem_tails _ _).2 (((List.mem_tails _ _).1 hds).trans hs))

theorem mayGrow_eq_false (h : Steady (text ++ rest)) (ht : IsToken cls text rest) :
    mayGrow text rest = false := by
  have hgrow := h _ ((List.mem_tails _ _).2 (List.suffix_refl _)) _ ht.token ht.not_trivia
  rwa [List.take_left, List.drop_left] at hgrow

theorem behind (h : Steady (text ++ cs)) : Steady cs := h.of_suffix (List.suffix_append _ _)

end Steady

/-! ## Firm texts -/

/-- The text is cut into the words, up to the given rest of it, and none of them may grow. -/
inductive Firm : List Char → List Word → List Char → Prop
  | nil {cs : List Char} : Firm cs [] cs
  | gap {gap cs rest : List Char} {words : List Word} :
      Gap gap → Firm cs words rest → Firm (gap ++ cs) words rest
  | token {cls : LexemeClass} {text cs rest : List Char} {words : List Word} :
      IsToken cls text cs → mayGrow text cs = false → Firm cs words rest →
      Firm (text ++ cs) ((cls, String.ofList text) :: words) rest

namespace Firm

variable {cs mid rest new : List Char} {words words' : List Word}

theorem append (h : Firm cs words mid) (h' : Firm mid words' rest) : Firm cs (words ++ words') rest := by
  induction h with
  | nil => exact h'
  | gap hg _ ih => exact .gap hg (ih h')
  | token ht hgrow _ ih => exact .token ht hgrow (ih h')

theorem word {w : Word} (ht : IsToken w.1 w.2.toList cs) (hgrow : mayGrow w.2.toList cs = false)
    (h : Firm cs words rest) : Firm (w.2.toList ++ cs) (w :: words) rest := by
  simpa using Firm.token ht hgrow h

/-- A single word. -/
theorem single {w : Word} (ht : IsToken w.1 w.2.toList []) : Firm w.2.toList [w] [] := by
  simpa using word ht (mayGrow_nil _) .nil

/-- A firm text stays firm in front of another rest, if that tells the scanner no more. -/
theorem before (h : Firm cs words rest) (hnew : Sees rest new) :
    ∃ taken, cs = taken ++ rest ∧ Firm (taken ++ new) words new ∧ Sees cs (taken ++ new) := by
  induction h with
  | nil => exact ⟨[], rfl, .nil, hnew⟩
  | @gap gap cs rest words hg _ ih =>
    obtain ⟨taken, rfl, hfirm, hsees⟩ := ih hnew
    refine ⟨gap ++ taken, by simp, ?_, ?_⟩
    · rw [List.append_assoc]
      exact .gap hg hfirm
    · rw [List.append_assoc]
      exact hsees.gap_append hg
  | @token cls text cs rest words ht hgrow _ ih =>
    obtain ⟨taken, rfl, hfirm, hsees⟩ := ih hnew
    refine ⟨text ++ taken, by simp, ?_, ?_⟩
    · rw [List.append_assoc]
      exact .token (ht.stays hsees hgrow) (mayGrow_move hsees.shared.akin hgrow) hfirm
    · rw [List.append_assoc]
      exact hsees.token_append ht

/-- A firm text behind another one. -/
theorem join (h : Firm cs words []) (h' : Firm new words' []) (hnew : Sees [] new) :
    Firm (cs ++ new) (words ++ words') [] := by
  obtain ⟨taken, hcs, hfirm, -⟩ := h.before hnew
  rw [List.append_nil] at hcs
  subst hcs
  exact hfirm.append h'

theorem opening {d : Delimiter} (hd : d ≠ .invisible) (h : Firm cs words rest) :
    Firm (d.opening.toList ++ cs) ((.opening d, d.opening) :: words) rest :=
  .word (w := (.opening d, d.opening)) (isToken_opening hd _)
    (mayGrow_of_not_mem (by cases d <;> decide) _) h

/-- A firm text in brackets. -/
theorem group {d : Delimiter} (hd : d ≠ .invisible) (h : Firm cs words []) :
    Firm (d.opening.toList ++ (cs ++ d.closing.toList))
      ((.opening d, d.opening) :: (words ++ [(.closing d, d.closing)])) [] := by
  have hclosing : Firm d.closing.toList [(.closing d, d.closing)] [] :=
    .single (w := (.closing d, d.closing)) (isToken_closing hd [])
  have hsees : Sees [] (d.closing.toList ++ []) := .closing hd
  rw [List.append_nil] at hsees
  exact opening hd (h.join hclosing hsees)

theorem nil_inv (h : Firm cs [] rest) : ∃ gap, Gap gap ∧ cs = gap ++ rest := by
  generalize hwords : [] = words at h
  induction h with
  | nil => exact ⟨[], .nil, rfl⟩
  | gap hg _ ih =>
    obtain ⟨gap, hgap, rfl⟩ := ih hwords
    exact ⟨_, hg.append hgap, (List.append_assoc _ _ _).symm⟩
  | token => cases hwords

theorem cons_inv {w : Word} (h : Firm cs (w :: words) rest) :
    ∃ gap mid, Gap gap ∧ cs = gap ++ (w.2.toList ++ mid) ∧ IsToken w.1 w.2.toList mid ∧
      Firm mid words rest := by
  generalize hwords : w :: words = all at h
  induction h with
  | nil => cases hwords
  | gap hg _ ih =>
    obtain ⟨gap, mid, hgap, rfl, ht, hfirm⟩ := ih hwords
    exact ⟨_, mid, hg.append hgap, (List.append_assoc _ _ _).symm, ht, hfirm⟩
  | token ht _ hfirm =>
    cases hwords
    exact ⟨[], _, .nil, by simp, by simpa using ht, hfirm⟩

/-- The words of trees are read as these trees, up to spans. -/
theorem reads {ts : List Tree} (hspells : Spells words ts) (h : Firm cs (words ++ words') rest)
    (file : Option String) (p : Position) :
    ∃ us q mid, Reads file p cs us q mid ∧ bareOf us = bareOf ts ∧ Firm mid words' rest := by
  induction hspells generalizing cs words' rest p with
  | nil => exact ⟨[], p, cs, .nil, rfl, h⟩
  | @leaf w t words ts hl hbare _ ih =>
    obtain ⟨gap, mid, hg, rfl, ht, h⟩ := h.cons_inv
    obtain ⟨us, q, mid', hr, hus, hrest⟩ := ih h ((p.advance gap).advance w.2.toList)
    refine ⟨_ :: us, q, mid', .leaf hg ht hl rfl hr, ?_, hrest⟩
    rw [bareOf, bareOf, Lexeme.bare_leaf, hus, hbare]
    simp [Lexeme.word]
  | @group d span inner words children ts _ _ ihin ih =>
    rw [List.cons_append, List.append_assoc] at h
    obtain ⟨gap, mid, hg, rfl, ho, h⟩ := h.cons_inv
    obtain ⟨vs, q, mid, hin, hvs, h⟩ := ihin h ((p.advance gap).advance d.opening.toList)
    obtain ⟨gap', mid', hg', rfl, hc, h⟩ := h.cons_inv
    obtain ⟨us, q', mid'', hr, hus, hrest⟩ := ih h ((q.advance gap').advance d.closing.toList)
    refine ⟨_ :: us, q', mid'', .group hg ho hin hg' hc hr, ?_, hrest⟩
    simp only [bareOf, Tree.bare, hvs, hus]

/-- No token of a firm text may grow, if no token is found in its rest. -/
theorem definiteFrom {s : List Char} {p : Position} (h : Firm cs words rest)
    (hrest : ∀ q, (scanFrom q rest).lexemes = []) (hp : s.drop p.offset = cs) :
    DefiniteFrom s p cs := by
  induction h generalizing p with
  | nil =>
    rw [DefiniteFrom, hrest]
    exact List.forall_mem_nil _
  | gap hg _ ih =>
    rw [DefiniteFrom, scanFrom_gap hg]
    exact ih hrest (Position.drop_advance hp)
  | token ht hgrow _ ih =>
    rw [DefiniteFrom, scanFrom_token p ht]
    have hmid := Position.drop_advance hp
    refine List.forall_mem_cons.2 ⟨?_, ih hrest hmid⟩
    rw [String.toList_ofList, hmid]
    exact hgrow

end Firm

/-- No gap ends with a brace. -/
theorem Lexeme.Gap.getLast?_ne_brace {gap : List Char} (h : Gap gap) : gap.getLast? ≠ some '\x7d' := by
  induction h with
  | nil => simp
  | @blank c gap hc _ ih =>
    rcases gap with _ | ⟨d, gap⟩
    · rintro ⟨⟩
      revert hc
      decide
    · rwa [List.getLast?_cons_cons]
  | @line body gap _ _ ih =>
    rw [← List.cons_append, ← List.cons_append, List.getLast?_append_cons]
    exact ih
  | @block body gap hbody _ ih =>
    rw [← List.cons_append, ← List.cons_append]
    rcases gap with _ | ⟨d, gap⟩
    · obtain ⟨-, front, hfront⟩ := take_blockRest? hbody
      rw [List.take_length] at hfront
      rw [hfront]
      simp [List.getLast?_append, List.getLast?_cons]
    · rw [List.getLast?_append_cons]
      exact ih

/-- A firm text that ends with a brace can be read on its own. -/
theorem Firm.legible {cs : List Char} {words : List Word} {ts : List Tree} (h : Firm cs words [])
    (hspells : Spells words ts) (hlast : cs.getLast? = some '\x7d') :
    ∃ us, Legible cs us ∧ bareOf us = bareOf ts := by
  obtain ⟨us, q, mid, hr, hus, hrest⟩ := Firm.reads hspells (by rwa [List.append_nil]) none .first
  obtain ⟨gap, hg, hmid⟩ := hrest.nil_inv
  obtain rfl : mid = gap := by rw [hmid, List.append_nil]
  obtain ⟨taken, htaken, -⟩ := hr.exists_append
  rcases mid with _ | ⟨c, mid⟩
  · exact ⟨us, ⟨h.definiteFrom (fun _ => by rw [scanFrom_nil]) rfl, q, hr⟩, hus⟩
  · rw [htaken, List.getLast?_append_cons] at hlast
    exact absurd hlast hg.getLast?_ne_brace

/-- What is read in a steady text is firm. -/
theorem Reads.firm {file : Option String} {p q : Position} {cs rest : List Char} {ts : List Tree}
    (h : Reads file p cs ts q rest) (hs : Steady cs) : ∃ words, Firm cs words rest := by
  induction h with
  | nil => exact ⟨[], .nil⟩
  | leaf hg ht _ _ _ ih =>
    obtain ⟨words, hfirm⟩ := ih hs.behind.behind
    exact ⟨_, .gap hg (.token ht (hs.behind.mayGrow_eq_false ht) hfirm)⟩
  | group hg ho hin hg' hc _ ih ih' =>
    have hinner := hs.behind.behind
    have hclosing := (hinner.of_suffix hin.rest_suffix).behind
    obtain ⟨words, hfirm⟩ := ih hinner
    obtain ⟨words', hfirm'⟩ := ih' hclosing.behind
    exact ⟨_, .gap hg (.token ho (hs.behind.mayGrow_eq_false ho)
      (hfirm.append (.gap hg' (.token hc (hclosing.mayGrow_eq_false hc) hfirm'))))⟩

/-- No token of a steady text that can be read may grow. -/
theorem Steady.definite {s : List Char} {file : Option String} {trees : List Tree} (hs : Steady s)
    (h : tokenize s file = .ok trees) : Definite s := by
  obtain ⟨q, rest, hr, hrest⟩ := tokenize_reads h
  obtain ⟨words, hfirm⟩ := hr.firm hs
  obtain ⟨gap, tail, rfl, hg, ht⟩ := scan_eq_empty_iff.1 hrest
  exact hfirm.definiteFrom (fun p => by rw [scanFrom_trailing hg ht]) rfl

/-! ## Printed texts are firm -/

namespace Layout

theorem fuses_token {kind : Kind} {text : String} {chunks : List Chunk}
    (h : fuses (.token ⟨kind, text⟩ :: chunks) = false) :
    (text = ":" → ∀ rest, textOf chunks ≠ ':' :: rest) ∧ fuses chunks = false := by
  simp only [fuses, Bool.or_eq_false_iff, Bool.and_eq_false_imp, beq_iff_eq] at h
  refine ⟨fun htext rest hrest => ?_, h.2⟩
  have := h.1 htext
  rw [hrest] at this
  simp at this

theorem fuses_gapChunk (gap : List Char) (chunks : List Chunk) :
    fuses (gapChunk gap ++ chunks) = fuses chunks := by
  unfold gapChunk
  split <;> simp [fuses]

end Layout

/-- A text that mirrors a steady source is firm if nothing fuses. -/
theorem Mirrors.firm {old : List Char} {chunks : List Chunk} {words : List Word}
    (h : Mirrors old chunks words) (hold : Steady old) (hf : fuses chunks = false) :
    Firm (textOf chunks) words [] := by
  have hmade : ∀ m ∈ madeMarks, m.1.toList ∉ growing := by decide
  induction h with
  | nil => exact .nil
  | gap hg _ ih => exact .gap hg (ih hold.behind hf)
  | @token cls kind text old chunks words ht h ih =>
    obtain ⟨hcolon, hf⟩ := fuses_token hf
    have hgrow := mayGrow_move h.lookahead.1.shared.akin (hold.mayGrow_eq_false ht)
    refine .word (w := (cls, text)) ?_ hgrow (ih hold.behind hf)
    exact ht.move h.lookahead.1 (fun htext => hcolon (String.toList_inj.1 htext))
      (blockComment?_of_mayGrow hgrow)
  | @pieces op n old chunks words hop ht h ih =>
    have hgrow := mayGrow_move h.lookahead.1.shared.akin (hold.mayGrow_eq_false ht)
    have hfuses : fuses chunks = false := by
      rcases gluedAngles?_cases hop with ⟨-, rfl⟩ | ⟨-, rfl⟩ <;> simpa [pieceChunks, fuses] using hf
    rw [textOf_append, textOf_pieceChunks hop]
    refine .word (w := (.punct, op)) ?_ hgrow (ih hold.behind hfuses)
    refine ht.move h.lookahead.1 ?_ (blockComment?_of_mayGrow hgrow)
    rcases gluedAngles?_cases hop with ⟨rfl, -⟩ | ⟨rfl, -⟩ <;> simp
  | blank _ ih => exact .gap (.blank (by decide) .nil) (ih hold hf)
  | @mark cls kind op old ahead chunks words hm hbang hs h ih =>
    obtain ⟨hcolon, hf⟩ := fuses_token hf
    exact .word (w := (cls, op)) (isToken_mark hm hcolon hbang) (mayGrow_of_not_mem (hmade _ hm) _)
      (ih (hold.of_suffix hs) hf)
  | @step cls kind kind' op name gap old chunks words hm hbang hg hname hi h ih =>
    obtain ⟨hcolon, hf⟩ := fuses_token hf
    rw [fuses_gapChunk] at hf
    have hsees : Lookahead [] (textOf chunks) := .of_inert hi
    have hgrow : mayGrow name.toList (textOf chunks) = false :=
      mayGrow_move hsees.shared.akin (mayGrow_nil _)
    have hname' : IsToken .name name.toList (textOf chunks) := by
      refine hname.move hsees ?_ (blockComment?_of_mayGrow hgrow)
      intro htext
      rw [htext] at hname
      exact absurd hname (by decide)
    have hgap : Gap gap := by
      rcases hg with rfl | rfl
      · exact .nil
      · exact .blank (by decide) .nil
    have hrest : Firm (textOf (gapChunk gap ++ .token ⟨kind', name⟩ :: chunks))
        ((.name, name) :: words) [] := by
      rw [textOf_append, textOf_gapChunk]
      exact .gap hgap (.word (w := (.name, name)) hname' hgrow (ih hold (fuses_token hf).2))
    exact .word (w := (cls, op)) (isToken_mark hm hcolon fun h => absurd h hbang)
      (mayGrow_of_not_mem (hmade _ hm) _) hrest

/-- A word that keeps close may not grow. -/
theorem Grips.mayGrow_eq_false {w : Word} {old new : List Char} (h : Grips w new)
    (ht : IsToken w.1 w.2.toList old) (rest : List Char) : mayGrow w.2.toList rest = false := by
  have hgrips : ∀ t ∈ ["(", "[", "\x7b", "::", ".", "#", "$", "!", "&"], t.toList ∉ growing := by decide
  exact mayGrow_of_not_mem (hgrips _ (h.text_mem ht)) rest

/-- A folded text from a steady source is firm if nothing in it is misread. -/
theorem Retold.firm {near : Bool} {l : Word} {old : List Char} {chunks : List Chunk}
    {words : List Word} (h : Retold near l old chunks words) (hold : Steady old)
    (hm : misread chunks = false) : Firm (textOf chunks) words [] := by
  have hdeclared : ∀ m ∈ declaredMarks, m.2.toList ∉ growing := by decide
  induction h with
  | nil => exact .nil
  | @token near l r old gap rest chunks words hseam ht hrest ih =>
    rw [misread_gapChunk hseam.gap, misread, Bool.or_eq_false_iff] at hm
    have hold := hold.of_suffix hseam.suffix
    have hgrow : mayGrow r.2.toList (textOf chunks) = false := by
      rcases hrest.preview with hpreview | hgrips
      · exact mayGrow_move hpreview.akin (hold.mayGrow_eq_false ht)
      · exact hgrips.mayGrow_eq_false ht _
    rw [textOf_append, textOf_gapChunk]
    exact .gap hseam.gap (.word (ht.kept hrest.preview hm.1 (blockComment?_of_mayGrow hgrow)) hgrow
      (ih hold.behind hm.2))
  | @mark near l r old ahead chunks words hr hsuffix hrest ih =>
    rw [misread_gapChunk (gap_spacing _ _), misread, Bool.or_eq_false_iff] at hm
    have hgrow := mayGrow_of_not_mem (hdeclared r hr) (textOf chunks)
    rw [textOf_append, textOf_gapChunk]
    refine .gap (gap_spacing _ _) (.word ?_ hgrow (ih (hold.of_suffix hsuffix) hm.2))
    exact (isToken_declared hr).kept (hrest.apart.imp_left .of_mild) hm.1 (blockComment?_of_mayGrow hgrow)
  | @angles near l old gap rest op n chunks words hop hseam ht hrest ih =>
    rw [misread_gapChunk hseam.gap] at hm
    have hmild := hrest.apart.resolve_right not_grips_angle
    have hangle : angleWord.2.toList ∉ growing := by decide
    have hone (hm : misread chunks = false) :
        Firm ('>' :: textOf chunks) (angleWord :: words) [] :=
      .word (w := angleWord) (Rereads.isToken_angle hmild) (mayGrow_of_not_mem hangle _)
        (ih (hold.of_suffix hseam.suffix).behind hm)
    rw [textOf_append, textOf_gapChunk]
    refine .gap hseam.gap ?_
    rcases gluedAngles?_cases hop with ⟨-, rfl⟩ | ⟨-, rfl⟩
    · simp only [List.replicate, List.cons_append, List.nil_append, misread, Bool.or_eq_false_iff] at hm
      exact hone hm.2
    · simp only [List.replicate, List.cons_append, List.nil_append, misread, Bool.or_eq_false_iff] at hm
      exact .word (w := angleWord) (Rereads.isToken_angle_angle hmild) (mayGrow_of_not_mem hangle _)
        (hone hm.2.2)
  | shown hgap hpub hname _ hrest _ =>
    rw [Rereads.misread_shown hgap (hrest.isToken_pub hpub hname)] at hm
    cases hm

end InlineVariants
