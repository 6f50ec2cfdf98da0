import InlineVariants.Proofs.Growing
import InlineVariants.Proofs.RoundTrip
import InlineVariants.Proofs.SpacedForm

/-!
# Folded text

A folded text is made of tokens that were read from a source, of marks that were put in, and of `>` that
were cut off from a `=` (`Retold`). Behind a token of the source the source goes on, gap and all; or the
spacing table decides, and the source is taken up again further on. The table puts two tokens next to
each other only if the second one begins with a mild character, or if the first one keeps close whatever
comes (`Grips`).

Main statement: the scanner finds the words of such a text exactly if no token takes in what is printed
behind it and no gap shows tokens (`Retold.rereads`), as long as no `/` opens a comment.
-/

namespace InlineVariants

open Text Lexeme Layout

/-! ## The spacing table -/

/-- How the spacing table sees a word. -/
def Word.piece (w : Word) : Piece where
  kind := match w.1 with
    | .name => .ident
    | .punct => .punct
    | .opening _ => .opening
    | .closing _ => .closing
    | _ => .literal
  text := w.2

@[simp] theorem Word.piece_text (w : Word) : w.piece.text = w.2 := rfl

/-- The words that are kept close to what comes behind them: opening brackets, some punctuation, and
`!` and `&` in front of what is no operator. -/
def Grips (l : Word) (new : List Char) : Prop :=
  (∃ d, l.1 = .opening d) ∨ l.1 = .punct ∧ (l.2 ∈ tightAfter ∨
    l.2 ∈ ["!", "&"] ∧ ∀ c rest, new = c :: rest → c ≠ '=' ∧ c ≠ '&')

/-- What is no symbol begins with no operator. -/
theorem Lexeme.IsToken.ne_operator {cls : LexemeClass} {text rest cs : List Char} {c : Char}
    (h : IsToken cls text rest) (hcls : cls ≠ .punct) (hc : text = c :: cs) : c ≠ '=' ∧ c ≠ '&' := by
  subst hc
  have htok := h.token
  constructor
  all_goals
    rintro rfl
    rw [List.cons_append, token?_eq_symbol? _ (by decide) (by decide) (by decide) (by decide)] at htok
    rcases symbol?_cases htok with hp | ⟨c, rest, he, -, hb⟩
    · exact hcls hp
    · obtain ⟨rfl, -⟩ := List.cons.inj he
      cases hb

/-- The texts of brackets and punctuation that begin with a mild character. -/
def mildTexts : List String := [",", ";", ":", ".", "?", "::", "!", "(", "[", ")", "]"]

theorem mild_text {text : String} (h : text ∈ mildTexts) (more : List Char) :
    Mild (text.toList ++ more) := by
  have hmild : ∀ t ∈ mildTexts, t.toList.head?.any mildChars.contains = true := by decide
  have hhead := hmild text h
  intro c rest he
  cases htext : text.toList with
  | nil => simp [htext] at hhead
  | cons c' cs =>
    rw [htext] at hhead he
    obtain rfl := (List.cons.inj he).1
    simpa using hhead

section

variable {l r : Word} {rest : List Char}

theorem Word.piece_kind_opening (h : l.piece.kind = .opening) : ∃ d, l.1 = .opening d := by
  obtain ⟨cls, text⟩ := l
  cases cls <;> simp [Word.piece] at h ⊢

theorem Word.piece_kind_punct (h : l.piece.kind = .punct) : l.1 = .punct := by
  obtain ⟨cls, text⟩ := l
  cases cls <;> simp [Word.piece] at h ⊢

/-- A bracket that is no brace begins with a mild character. -/
theorem bracket_mem_mildTexts {d : Delimiter} (hd : d ≠ .invisible) (hbrace : d ≠ .brace) :
    d.opening ∈ mildTexts ∧ d.closing ∈ mildTexts := by
  cases d with
  | paren | bracket => decide
  | brace => exact absurd rfl hbrace
  | invisible => exact absurd rfl hd

/-- The punctuation that the spacing table may put next to what comes before it. -/
theorem punct_mem_mildTexts {text : String} {path bang : Bool}
    (h : (if tightBefore.contains text then false else if text = "::" then path
      else if text = "!" then bang else true) = false) : text ∈ mildTexts := by
  have hsub : ∀ t ∈ tightBefore, t ∈ mildTexts := by decide
  by_cases hbefore : text ∈ tightBefore
  · exact hsub _ hbefore
  rw [if_neg (by simpa using hbefore)] at h
  by_cases hpath : text = "::"
  · subst hpath
    decide
  by_cases hbang : text = "!"
  · subst hbang
    decide
  simp [hpath, hbang] at h

/-- A `!` or `&` keeps close to what is no symbol. -/
theorem Grips.of_bang (hr : IsToken r.1 r.2.toList rest) (hcls : r.1 ≠ .punct)
    (h : (!(l.piece.kind == .punct && ["!", "&"].contains l.piece.text)) = false)
    (more : List Char) : Grips l (r.2.toList ++ more) := by
  simp only [Bool.not_eq_false', Bool.and_eq_true, beq_iff_eq, List.contains_iff_mem] at h
  refine .inr ⟨Word.piece_kind_punct h.1, .inr ⟨h.2, ?_⟩⟩
  intro c rest' he
  cases htext : r.2.toList with
  | nil => exact absurd htext hr.ne_nil
  | cons c' cs =>
    rw [htext] at he
    obtain rfl := (List.cons.inj he).1
    exact hr.ne_operator hcls htext

/-- Two words stand next to each other only if the first one keeps close or the second one begins with a
mild character. -/
theorem needsSpace_cases (hr : IsToken r.1 r.2.toList rest)
    (h : needsSpace l.piece r.piece = false) (more : List Char) :
    Mild (r.2.toList ++ more) ∨ Grips l (r.2.toList ++ more) := by
  obtain ⟨cls, text⟩ := r
  unfold needsSpace at h
  split at h
  next hopening => exact .inr (.inl (Word.piece_kind_opening hopening))
  split at h
  next hclosing =>
    cases cls with
    | closing d =>
      obtain ⟨htext, hd⟩ := hr.closing
      obtain rfl : text = d.closing := String.toList_inj.1 htext
      refine .inl (mild_text (bracket_mem_mildTexts hd ?_).2 more)
      rintro rfl
      simp [Word.piece, Delimiter.closing] at h
    | _ => simp [Word.piece] at hclosing
  next hclosing =>
  split at h
  next htight =>
    simp only [Bool.and_eq_true, decide_eq_true_eq, List.contains_iff_mem] at htight
    exact .inr (.inr ⟨Word.piece_kind_punct htight.1, .inl htight.2⟩)
  -- what is left depends on the second word
  cases cls with
  | punct => exact .inl (mild_text (punct_mem_mildTexts h) more)
  | opening d =>
    obtain ⟨htext, hd⟩ := hr.opening
    obtain rfl : text = d.opening := String.toList_inj.1 htext
    refine .inl (mild_text (bracket_mem_mildTexts hd ?_).1 more)
    rintro rfl
    simp [Word.piece, Delimiter.opening] at h
  | closing d => exact absurd rfl hclosing
  | name | lifetime | string | rawString | char | number =>
    exact .inr (.of_bang hr (by rintro ⟨⟩) h more)

theorem spacing_cases (hr : IsToken r.1 r.2.toList rest) (more : List Char) :
    Mild (spacing l.piece r.piece ++ (r.2.toList ++ more)) ∨
      Grips l (spacing l.piece r.piece ++ (r.2.toList ++ more)) := by
  unfold spacing
  cases h : needsSpace l.piece r.piece with
  | false => simpa [h] using needsSpace_cases hr h more
  | true =>
    refine .inl ?_
    rintro c rest' he
    obtain rfl : ' ' = c := by simpa [h] using (List.cons.inj he).1
    decide

theorem gap_spacing (left right : Piece) : Gap (spacing left right) := by
  unfold spacing
  split
  · exact .blank (by decide) .nil
  · exact .nil

end

/-! ## Where a folded text comes from -/

/-- The marks and brackets that are put into a declaration. -/
def declaredMarks : List Word :=
  [(.punct, ":"), (.punct, ","), (.punct, "="), (.opening .paren, "("), (.closing .paren, ")"),
   (.opening .brace, "\x7b"), (.closing .brace, "\x7d")]

/-- What is printed between a word and the next one, which the source holds at the front of `cs`: the
gap of the source if the source goes on behind the word, or what the spacing table says if it is taken
up again further on. -/
def Seam (near : Bool) (l : Word) (old gap : List Char) (r : Word) (cs : List Char) : Prop :=
  (near = true ∧ Gap gap ∧ old = gap ++ cs) ∨ (gap = spacing l.piece r.piece ∧ cs <:+ old)

/-- The `>` that a glued token is cut into. -/
def angleWord : Word := (.punct, ">")

/-- The chunks stand behind a word, and `old` is what the source holds there, or from there on if the
word is not `near` the source. They hold tokens of the source, with the words beside them, or something
that was put in. -/
inductive Retold : Bool → Word → List Char → List Chunk → List Word → Prop
  | nil {near : Bool} {l : Word} {old : List Char} : Retold near l old [] []
  | token {near : Bool} {l r : Word} {old gap rest : List Char} {chunks : List Chunk}
      {words : List Word} :
      Seam near l old gap r (r.2.toList ++ rest) → IsToken r.1 r.2.toList rest →
      Retold true r rest chunks words →
      Retold near l old (gapChunk gap ++ .token r.piece :: chunks) (r :: words)
  | mark {near : Bool} {l r : Word} {old ahead : List Char} {chunks : List Chunk}
      {words : List Word} :
      r ∈ declaredMarks → ahead <:+ old → Retold false r ahead chunks words →
      Retold near l old (gapChunk (spacing l.piece r.piece) ++ .token r.piece :: chunks) (r :: words)
  /-- The `>` of a glued token are printed, and its `=` is not. -/
  | angles {near : Bool} {l : Word} {old gap rest : List Char} {op : String} {n : Nat}
      {chunks : List Chunk} {words : List Word} :
      gluedAngles? op = some n → Seam near l old gap angleWord (op.toList ++ rest) →
      IsToken .punct op.toList rest → Retold false angleWord rest chunks words →
      Retold near l old (gapChunk gap ++ (List.replicate n (.token angleWord.piece) ++ chunks))
        (List.replicate n angleWord ++ words)
  /-- A visibility in front of a name is passed over, but the gap shows it. -/
  | shown {l : Word} {gap mid rest : List Char} {name : String} {chunks : List Chunk}
      {words : List Word} :
      Gap gap → IsToken .name "pub".toList (mid ++ (name.toList ++ rest)) →
      IsToken .name name.toList rest → name ≠ "pub" → Retold true (.name, name) rest chunks words →
      Retold true l (gap ++ ("pub".toList ++ (mid ++ (name.toList ++ rest))))
        (.gap (gap ++ ("pub".toList ++ mid)) :: .token (Word.piece (.name, name)) :: chunks)
        ((.name, name) :: words)

/-- A mark is a token of its own. -/
theorem isToken_declared {r : Word} (h : r ∈ declaredMarks) : IsToken r.1 r.2.toList [] :=
  (by decide : ∀ m ∈ declaredMarks, IsToken m.1 m.2.toList []) r h

namespace Seam

variable {near : Bool} {l r : Word} {old blank cs : List Char}

theorem gap (h : Seam near l old blank r cs) : Gap blank := by
  rcases h with ⟨-, hg, -⟩ | ⟨rfl, -⟩
  · exact hg
  · exact gap_spacing _ _

theorem suffix (h : Seam near l old blank r cs) : cs <:+ old := by
  rcases h with ⟨-, -, rfl⟩ | ⟨-, hs⟩
  · exact List.suffix_append _ _
  · exact hs

end Seam

/-! ## What a token sees of a folded text -/

/-- What a word that keeps close is. -/
theorem Grips.text_mem {w : Word} {old new : List Char} (h : Grips w new)
    (ht : IsToken w.1 w.2.toList old) :
    w.2 ∈ ["(", "[", "\x7b", "::", ".", "#", "$", "!", "&"] := by
  obtain ⟨cls, text⟩ := w
  rcases h with ⟨d, rfl⟩ | ⟨-, htight | ⟨htext, -⟩⟩
  · obtain ⟨htext, hd⟩ := ht.opening
    obtain rfl : text = d.opening := String.toList_inj.1 htext
    cases d with
    | invisible => exact absurd rfl hd
    | paren | bracket | brace => decide
  · have hsub : ∀ t ∈ tightAfter, t ∈ ["(", "[", "\x7b", "::", ".", "#", "$", "!", "&"] := by decide
    exact hsub _ htight
  · have hsub : ∀ t ∈ ["!", "&"], t ∈ ["(", "[", "\x7b", "::", ".", "#", "$", "!", "&"] := by decide
    exact hsub _ htext

/-- Behind a word that keeps close, only the word itself is looked at. -/
theorem Grips.calm {w : Word} {old new : List Char} (h : Grips w new)
    (ht : IsToken w.1 w.2.toList old) :
    (∀ rest, w.2.toList ≠ '\x27' :: rest) ∧ ∀ c, w.2.toList = [c] → c ∈ calmChars := by
  have hcalm : ∀ t ∈ ["(", "[", "\x7b", "::", ".", "#", "$", "!", "&"],
      t.toList.head? ≠ some '\x27' ∧ t.toList.head?.all calmChars.contains = true ∨ t = "::" := by
    decide
  rcases hcalm _ (h.text_mem ht) with ⟨hquote, hcalm⟩ | htext
  · refine ⟨fun rest he => hquote (by rw [he]; rfl), fun c he => ?_⟩
    rw [he] at hcalm
    simpa using hcalm
  · rw [htext]
    exact ⟨nofun, nofun⟩

/-- A symbol is a token in front of what is in no longer symbol behind it. -/
theorem isToken_single {c : Char} (seconds : List Char) {new : List Char} (hc : c ∈ singles)
    (hslash : c ≠ '/') (hseconds : ∀ t ∈ (triples ++ pairs).map String.toList,
      t.head? = some c → t.tail.head?.any seconds.contains = true)
    (hnew : ∀ d rest, new = d :: rest → d ∉ seconds) : IsToken .punct [c] new := by
  have hsingles : singles.all (fun c => c != '\x22' && c != '\x27' && !isDigit c && !isNameStart c &&
      !isBlank c) = true := by decide
  have hplain := List.all_eq_true.1 hsingles c hc
  simp only [Bool.and_eq_true, bne_iff_ne, Bool.not_eq_true', ne_eq] at hplain
  obtain ⟨⟨⟨⟨hq, ha⟩, hd⟩, hn⟩, hb⟩ := hplain
  have hlonger (n : Nat) : c :: new.take (n + 1) ∉ (triples ++ pairs).map String.toList := by
    intro hmem
    have hsecond := hseconds _ hmem rfl
    cases new with
    | nil => simp at hsecond
    | cons d rest => exact hnew d rest rfl (by simpa using hsecond)
  have htriple : ¬ triples.contains (String.ofList ((c :: new).take 3)) = true := by
    rw [contains_ofList, List.contains_iff_mem]
    exact fun hmem => hlonger 1 (by rw [List.map_append]; exact List.mem_append_left _ hmem)
  have hpair : ¬ pairs.contains (String.ofList ((c :: new).take 2)) = true := by
    rw [contains_ofList, List.contains_iff_mem]
    exact fun hmem => hlonger 0 (by rw [List.map_append]; exact List.mem_append_right _ hmem)
  refine ⟨by simp, not_trivia_of_ne _ hslash hb, ?_⟩
  rw [List.singleton_append, token?_eq_symbol? _ hq ha hd hn, symbol?, if_neg htriple, if_neg hpair]
  simp [hc]

/-- A token stays a token in front of the text that is printed behind it, if it takes in nothing of it
and begins no comment. -/
theorem Lexeme.IsToken.kept {w : Word} {old new : List Char} (ht : IsToken w.1 w.2.toList old)
    (h : Preview old new ∨ Grips w new) (hgrow : takesIn w.2.toList new = false)
    (hcomment : w.2.toList = ['/'] → blockComment? (w.2.toList ++ new) = none) :
    IsToken w.1 w.2.toList new := by
  rcases h with h | h
  · exact ht.stay h (spares_of_takesIn ht h hgrow hcomment)
  obtain ⟨cls, text⟩ := w
  rcases h with ⟨d, rfl⟩ | ⟨rfl, htight | ⟨htext, hop⟩⟩
  · obtain ⟨htext, hd⟩ := ht.opening
    simpa only [htext] using isToken_opening hd new
  · simp only [tightAfter, List.mem_cons, List.not_mem_nil, or_false] at htight
    rcases htight with rfl | rfl | rfl | rfl
    · exact isToken_mark (by decide) (by simp) (by simp)
    · -- a `.` that takes in nothing has no `.` behind it
      refine isToken_single ['.'] (by decide) (by decide) (by decide) ?_
      rintro d rest rfl hd
      obtain rfl : d = '.' := by simpa using hd
      simp [takesIn] at hgrow
    · exact isToken_single [] (by decide) (by decide) (by decide) (by simp)
    · exact isToken_single [] (by decide) (by decide) (by decide) (by simp)
  · have hnew : ∀ d rest, new = d :: rest → d ∉ ['=', '&'] := fun d rest he => by simp [hop d rest he]
    simp only [List.mem_cons, List.not_mem_nil, or_false] at htext
    rcases htext with rfl | rfl
    · exact isToken_single ['=', '&'] (by decide) (by decide) (by decide) hnew
    · exact isToken_single ['=', '&'] (by decide) (by decide) (by decide) hnew

/-! ## The word in front of a name -/

/-- A `pub` is a word of its own in front of what goes on no name. -/
theorem isToken_pub_iff {cs : List Char} :
    IsToken .name "pub".toList cs ↔ cs.takeWhile isNameChar = [] := by
  have hname : name? ('p' :: 'u' :: 'b' :: cs) = some ((cs.takeWhile isNameChar).length + 3) := by
    rw [name?_of_ne (by simp)]
    simp [plainName?, show isNameStart 'p' = true by decide, show isNameChar 'u' = true by decide,
      show isNameChar 'b' = true by decide]
  have htok : token? ('p' :: 'u' :: 'b' :: cs) = some (.name, (cs.takeWhile isNameChar).length + 3) := by
    have hstring := string?_of_ne ('u' :: 'b' :: cs) (show 'p' ≠ '\x22' by decide) (by decide)
    have hraw := rawString?_of_ne ('u' :: 'b' :: cs) (show 'p' ≠ 'r' by decide) (by decide)
    have hchar := char?_of_ne ('u' :: 'b' :: cs) (show 'p' ≠ '\x27' by decide) (by decide)
    have hlife := lifetime?_of_ne ('u' :: 'b' :: cs) (show 'p' ≠ '\x27' by decide)
    have hnum := number?_of_not_isDigit ('u' :: 'b' :: cs) (show isDigit 'p' = false by decide)
    simp [token?, hstring, hraw, hchar, hlife, hnum, hname]
  constructor
  · intro h
    have := htok.symm.trans h.token
    simpa using this
  · intro h
    refine ⟨by decide, not_trivia_of_ne _ (by decide) (by decide), htok.trans ?_⟩
    rw [h]
    rfl

/-- Whether `pub` is a word of its own does not depend on what is far behind it. -/
theorem isToken_pub_move {old new : List Char} (h : IsToken .name "pub".toList old)
    (hakin : Akin old new) : IsToken .name "pub".toList new :=
  isToken_pub_iff.2 (hakin.takeWhile_eq_nil (forall_mild (by decide)) (isToken_pub_iff.1 h))

theorem not_grips_angle {new : List Char} : ¬ Grips angleWord new := by
  rintro (⟨d, h⟩ | ⟨-, h | ⟨h, -⟩⟩)
  · cases h
  · revert h
    decide
  · revert h
    decide

/-- A glued token shows no more when its `=` is left out. -/
theorem preview_angles {op : String} {n : Nat} {new : List Char} (hop : gluedAngles? op = some n)
    (rest : List Char) (hnew : Mild new) :
    Preview (op.toList ++ rest) (textOf (List.replicate n (.token angleWord.piece)) ++ new) := by
  rcases gluedAngles?_cases hop with ⟨rfl, rfl⟩ | ⟨rfl, rfl⟩
  · refine ⟨⟨fun c new' he => .inr ?_, fun c d new' he => .inr (.inl ?_)⟩, fun _ he => ?_, fun _ => ?_⟩
    · rw [← (List.cons.inj he).1]
      exact ⟨_, rfl⟩
    · exact hnew d new' (List.cons.inj he).2
    · exact absurd (List.cons.inj he).1 (by decide)
    · exact plainChar?_of_ne _ (by decide)
  · refine ⟨⟨fun c new' he => .inr ?_, fun c d new' he => .inr (.inr ?_)⟩, fun _ he => ?_, fun _ => ?_⟩
    · rw [← (List.cons.inj he).1]
      exact ⟨_, rfl⟩
    · obtain ⟨hc, he⟩ := List.cons.inj he
      rw [← hc, ← (List.cons.inj he).1]
      exact ⟨_, rfl⟩
    · exact absurd (List.cons.inj he).1 (by decide)
    · exact plainChar?_of_ne _ (by decide)

namespace Retold

variable {near : Bool} {l : Word} {old : List Char} {chunks : List Chunk} {words : List Word}

/-- Behind a word that is not near the source, the spacing table has decided. -/
theorem apart (h : Retold false l old chunks words) :
    Mild (textOf chunks) ∨ Grips l (textOf chunks) := by
  cases h with
  | nil => exact .inl nofun
  | token hseam ht _ =>
    rcases hseam with ⟨hnear, -⟩ | ⟨rfl, -⟩
    · cases hnear
    · simpa using spacing_cases ht _
  | mark hm _ _ => simpa using spacing_cases (isToken_declared hm) _
  | @angles _ _ _ gap rest op n chunks words hop hseam ht _ =>
    rcases hseam with ⟨hnear, -⟩ | ⟨rfl, -⟩
    · cases hnear
    · obtain ⟨m, rfl⟩ : ∃ m, n = m + 1 := by
        rcases gluedAngles?_cases hop with ⟨-, rfl⟩ | ⟨-, rfl⟩ <;> exact ⟨_, rfl⟩
      have hangle : IsToken angleWord.1 angleWord.2.toList [] := by decide
      have := spacing_cases (l := l) hangle
        (textOf (List.replicate m (.token angleWord.piece) ++ chunks))
      simpa [List.replicate_succ] using this

/-- What is printed behind a word tells the word no more than the source did, or the word keeps close. -/
theorem preview (h : Retold near l old chunks words) :
    Preview old (textOf chunks) ∨ Grips l (textOf chunks) := by
  induction h with
  | nil => exact .inl (.of_mild nofun)
  | @token near l r old gap rest chunks words hseam ht hrest ih =>
    have hcalm := ih.imp_right fun hg => hg.calm ht
    rcases hseam with ⟨-, hgap, rfl⟩ | ⟨rfl, hsuffix⟩
    · left
      simpa using (Preview.token_append ht hcalm).gap_append hgap
    · exact (Retold.token (.inr ⟨rfl, hsuffix⟩) ht hrest).apart.imp_left .of_mild
  | mark hm hsuffix hrest _ => exact (Retold.mark hm hsuffix hrest).apart.imp_left .of_mild
  | @angles near l old gap rest op n chunks words hop hseam ht hrest _ =>
    rcases hseam with ⟨-, hgap, rfl⟩ | ⟨rfl, hsuffix⟩
    · left
      simpa using (preview_angles hop rest (hrest.apart.resolve_right not_grips_angle)).gap_append hgap
    · exact (Retold.angles hop (.inr ⟨rfl, hsuffix⟩) ht hrest).apart.imp_left .of_mild
  | @shown l gap mid rest name chunks words hgap hpub hname _ _ ih =>
    have hname := Preview.token_append hname (ih.imp_right fun hg => hg.calm hname)
    have hpreview : Preview ("pub".toList ++ (mid ++ (name.toList ++ rest)))
        ("pub".toList ++ (mid ++ (name.toList ++ textOf chunks))) := {
      akin := (hname.akin.append mid).append _
      string := fun _ he => absurd (List.cons.inj he).1 (by decide)
      char := fun _ => plainChar?_of_ne _ (by decide) }
    left
    simpa using hpreview.gap_append hgap

/-- A visibility that a gap shows is a word of its own in what is printed. -/
theorem isToken_pub {mid rest : List Char} {name : String}
    (hpub : IsToken .name "pub".toList (mid ++ (name.toList ++ rest)))
    (hname : IsToken .name name.toList rest) (h : Retold true (.name, name) rest chunks words) :
    IsToken .name "pub".toList (mid ++ textOf (.token (Word.piece (.name, name)) :: chunks)) := by
  have hpreview := Preview.token_append hname (h.preview.imp_right fun hg => hg.calm hname)
  exact isToken_pub_move hpub (hpreview.akin.append mid)

end Retold

/-! ## The scanner on a folded text -/

namespace Layout

/-- Whether a token takes in what is printed behind it, or a gap shows tokens. -/
def misread : List Chunk → Bool
  | [] => false
  | .gap gap :: chunks => !(scan gap).lexemes.isEmpty || misread chunks
  | .token piece :: chunks => takesIn piece.text.toList (textOf chunks) || misread chunks

theorem misread_gapChunk {gap : List Char} (h : Gap gap) (chunks : List Chunk) :
    misread (gapChunk gap ++ chunks) = misread chunks := by
  have hscan : (scan gap).lexemes = [] := by
    have := scanFrom_gap h .first []
    rw [List.append_nil] at this
    simp [scan, this]
  unfold gapChunk
  split <;> simp [misread, hscan]

end Layout

/-- What the scanner finds in a folded text: the words, or, where something is misread, other texts. -/
def Rereads (chunks : List Chunk) (words : List Word) (p : Position) : Prop :=
  let found := (scanFrom p (textOf chunks)).lexemes.map Lexeme.word
  if misread chunks then found.map Prod.snd ≠ words.map Prod.snd
  else (scanFrom p (textOf chunks)).stuck = none ∧ found = words

namespace Rereads

variable {chunks : List Chunk} {words : List Word}

theorem gap_append {gap : List Char} (hg : Gap gap) (h : ∀ p, Rereads chunks words p) (p : Position) :
    Rereads (gapChunk gap ++ chunks) words p := by
  have := h (p.advance gap)
  unfold Rereads at this ⊢
  rwa [textOf_append, textOf_gapChunk, scanFrom_gap hg, misread_gapChunk hg]

/-- A token that is found as it is leaves the rest of the text to be read; one that takes in something
is found as another one. -/
theorem token_append {w : Word} (ht : takesIn w.2.toList (textOf chunks) = false →
      IsToken w.1 w.2.toList (textOf chunks))
    (hl : takesIn w.2.toList (textOf chunks) = true → FoundLonger w.2.toList (textOf chunks))
    (h : ∀ p, Rereads chunks words p) (p : Position) :
    Rereads (.token w.piece :: chunks) (w :: words) p := by
  unfold Rereads
  rw [textOf_token, Word.piece_text, misread, Word.piece_text]
  cases htake : takesIn w.2.toList (textOf chunks) with
  | false =>
    have := h (p.advance w.2.toList)
    unfold Rereads at this
    rw [scanFrom_token p (ht htake), Bool.false_or]
    cases hmis : misread chunks with
    | false =>
      rw [hmis] at this
      simpa [Lexeme.word] using this
    | true =>
      rw [hmis] at this
      simpa [Lexeme.word] using this
  | true =>
    obtain ⟨cls, n, hn, hlonger⟩ := hl htake
    rw [Bool.true_or, if_pos rfl]
    intro hsame
    rw [← List.take_append_drop n (w.2.toList ++ textOf chunks), scanFrom_token p hlonger] at hsame
    have hhead : String.ofList ((w.2.toList ++ textOf chunks).take n) = w.2 := (List.cons.inj hsame).1
    have hlength := congrArg (fun text => text.toList.length) hhead
    simp only [String.toList_ofList, List.length_take, List.length_append] at hlength
    -- only an empty text would be too short for the longer token
    have hnil : textOf chunks = [] := List.length_eq_zero_iff.1 (by omega)
    rw [hnil] at htake
    cases htake

theorem isToken_angle_angle {new : List Char} (h : Mild new) : IsToken .punct ['>'] ('>' :: new) := by
  have htriple : ¬ triples.contains (String.ofList (('>' :: '>' :: new).take 3)) = true := by
    cases new with
    | nil => decide
    | cons c rest =>
      intro ht
      rcases triple_tail ht with ⟨ha, -⟩ | ⟨-, hc⟩
      · exact absurd ha (by decide)
      · exact hc (h c rest rfl)
  refine ⟨by simp, not_trivia_of_ne _ (by decide) (by decide), ?_⟩
  rw [List.singleton_append, token?_eq_symbol? _ (by decide) (by decide) (by decide) (by decide),
    symbol?, if_neg htriple]
  rfl

theorem isToken_angle {new : List Char} (h : Mild new) : IsToken .punct ['>'] new := by
  refine isToken_single ['=', '>'] (by decide) (by decide) (by decide) ?_
  intro d rest he hd
  have hmild := h d rest he
  simp only [List.mem_cons, List.not_mem_nil, or_false] at hd
  rcases hd with rfl | rfl
  · exact absurd hmild (by decide)
  · exact absurd hmild (by decide)

/-- The `>` of a glued token are tokens of their own in front of something mild. -/
theorem angles_append {op : String} {n : Nat} (hop : gluedAngles? op = some n)
    (hnew : Mild (textOf chunks)) (h : ∀ p, Rereads chunks words p) (p : Position) :
    Rereads (List.replicate n (.token angleWord.piece) ++ chunks)
      (List.replicate n angleWord ++ words) p := by
  have hgrow (new : List Char) : takesIn angleWord.2.toList new = false := by
    have hwhole : isWhole ['>'] = false := by decide
    unfold takesIn
    split <;> simp [hwhole, angleWord]
  have hlast (p : Position) : Rereads (.token angleWord.piece :: chunks) (angleWord :: words) p := by
    refine .token_append (fun _ => ?_) (fun htake => ?_) h p
    · exact isToken_angle hnew
    · rw [hgrow] at htake
      cases htake
  rcases gluedAngles?_cases hop with ⟨rfl, rfl⟩ | ⟨rfl, rfl⟩
  · exact hlast p
  · refine .token_append (fun _ => ?_) (fun htake => ?_) hlast p
    · exact isToken_angle_angle hnew
    · rw [hgrow] at htake
      cases htake

/-- A gap that shows a word is misread. -/
theorem misread_shown {gap mid : List Char} {name : String} (hg : Gap gap)
    (hpub : IsToken .name "pub".toList (mid ++ textOf (.token (Word.piece (.name, name)) :: chunks))) :
    misread (.gap (gap ++ ("pub".toList ++ mid)) :: .token (Word.piece (.name, name)) :: chunks) =
      true := by
  have hmid : IsToken .name "pub".toList mid := by
    rw [isToken_pub_iff, List.takeWhile_eq_nil_iff] at hpub ⊢
    intro hl
    simpa [List.getElem_append_left hl] using hpub (by simp; omega)
  have := scanFrom_gap hg .first ("pub".toList ++ mid)
  rw [misread, scan, this, scanFrom_token _ hmid]
  rfl

/-- A gap that shows a word has something else in front than what was printed. -/
theorem shown_append {gap mid : List Char} {name : String} (hg : Gap gap)
    (hpub : IsToken .name "pub".toList (mid ++ textOf (.token (Word.piece (.name, name)) :: chunks)))
    (hname : name ≠ "pub") (p : Position) :
    Rereads (.gap (gap ++ ("pub".toList ++ mid)) :: .token (Word.piece (.name, name)) :: chunks)
      ((.name, name) :: words) p := by
  unfold Rereads
  rw [misread_shown hg hpub, if_pos rfl, textOf_gap, List.append_assoc, List.append_assoc, scanFrom_gap hg,
    scanFrom_token _ hpub]
  intro hsame
  have hhead := (List.cons.inj hsame).1
  exact hname hhead.symm

end Rereads

/-- The scanner finds the words of a folded text exactly if nothing in it is misread. -/
theorem Retold.rereads {near : Bool} {l : Word} {old : List Char} {chunks : List Chunk}
    {words : List Word} (h : Retold near l old chunks words) (hs : swallows chunks = false)
    (p : Position) : Rereads chunks words p := by
  have hcomment {text : String} {new : List Char}
      (hs : (text == "/" && (blockComment? ('/' :: new)).isSome) = false)
      (htext : text.toList = ['/']) : blockComment? (text.toList ++ new) = none := by
    obtain rfl : text = "/" := String.toList_inj.1 htext
    simpa using hs
  induction h generalizing p with
  | nil => simp [Rereads, misread]
  | @token near l r old gap rest chunks words hseam ht hrest ih =>
    simp only [swallows_gapChunk, swallows, Bool.or_eq_false_iff] at hs
    refine .gap_append hseam.gap (.token_append (fun hgrow => ?_) ?_ (ih hs.2)) p
    · exact ht.kept hrest.preview hgrow (hcomment hs.1)
    · exact foundLonger_of_takesIn ht
  | @mark near l r old ahead chunks words hm hsuffix hrest ih =>
    simp only [swallows_gapChunk, swallows, Bool.or_eq_false_iff] at hs
    have ht := isToken_declared hm
    refine .gap_append (gap_spacing _ _) (.token_append (fun hgrow => ?_) ?_ (ih hs.2)) p
    · exact ht.kept (hrest.apart.imp_left .of_mild) hgrow (hcomment hs.1)
    · exact foundLonger_of_takesIn ht
  | @angles near l old gap rest op n chunks words hop hseam ht hrest ih =>
    refine .gap_append hseam.gap (.angles_append hop ?_ (ih ?_)) p
    · exact hrest.apart.resolve_right not_grips_angle
    · rw [swallows_gapChunk] at hs
      rcases gluedAngles?_cases hop with ⟨-, rfl⟩ | ⟨-, rfl⟩ <;>
        simpa [swallows, angleWord] using hs
  | shown hgap hpub hname hne hrest ih =>
    exact .shown_append hgap (hrest.isToken_pub hpub hname) hne p

/-- Where every `/*` of the source begins a comment, no `/` of a folded text does. -/
theorem Retold.swallows_eq_false {near : Bool} {l : Word} {old : List Char} {chunks : List Chunk}
    {words : List Word} (h : Retold near l old chunks words) (hc : CommentsClosed old) :
    swallows chunks = false := by
  have hmark : ∀ m ∈ declaredMarks, m.2 ≠ "/" := by decide
  induction h with
  | nil => rfl
  | @token near l r old gap rest chunks words hseam ht hrest ih =>
    have hc := hc.of_suffix hseam.suffix
    have htail := ih (hc.of_suffix (List.suffix_append _ _))
    simp only [swallows_gapChunk, swallows, htail, Bool.or_false, Bool.and_eq_false_imp, beq_iff_eq,
      Word.piece_text]
    intro hslash
    have hgrips : ¬ Grips r (textOf chunks) := by
      intro hg
      have hmem := hg.text_mem ht
      rw [hslash] at hmem
      exact absurd hmem (by decide)
    rw [hslash] at ht hc
    cases htext : textOf chunks with
    | nil => rfl
    | cons c new =>
      by_cases hstar : c = '*'
      · -- the token would have been a comment of the source as well
        subst hstar
        have hakin := (hrest.preview.resolve_right hgrips).akin
        obtain ⟨old', rfl⟩ := (htext ▸ hakin).cons_of_not_mild (by decide)
        have hold := hc old' (List.suffix_refl _)
        have hnone := ht.not_trivia
        simp only [trivia?, Option.orElse_eq_orElse, Option.orElse_eq_or, Option.or_eq_none_iff] at hnone
        exact absurd hold (by simp [show blockComment? ('/' :: '*' :: old') = none from hnone.1])
      · simp [blockComment?, hstar]
  | @mark near l r old ahead chunks words hm hsuffix _ ih =>
    simp [swallows, hmark r hm, ih (hc.of_suffix hsuffix)]
  | @angles near l old gap rest op n chunks words hop hseam _ _ ih =>
    have htail := ih ((hc.of_suffix hseam.suffix).of_suffix (List.suffix_append _ _))
    rcases gluedAngles?_cases hop with ⟨-, rfl⟩ | ⟨-, rfl⟩ <;> simp [swallows, angleWord, htail]
  | @shown l gap mid rest name chunks words _ _ hname _ _ ih =>
    have hslash : name ≠ "/" := by
      rintro rfl
      have := hname.name
      simp [name?, plainName?, show isNameStart '/' = false by decide] at this
    have htail := ih (hc.of_suffix ⟨gap ++ ("pub".toList ++ (mid ++ name.toList)), by simp⟩)
    simp [swallows, hslash, htail]

/-! ## Reading it back -/

theorem Word.text_eq_of_leaf {w w' : Word} (h : w.leaf = w'.leaf) : w.2 = w'.2 := by
  obtain ⟨cls, text⟩ := w
  obtain ⟨cls', text'⟩ := w'
  cases cls <;> cases cls' <;> simp_all [Word.leaf, Lexeme.leaf, Tree.bare]

theorem Word.group_ne_leaf {w : Word} {d : Delimiter} {ts : List Tree} {span : Span} :
    (Tree.group d ts span).bare ≠ w.leaf := by
  obtain ⟨cls, text⟩ := w
  cases cls <;> simp [Word.leaf, Lexeme.leaf, Tree.bare]

/-- Trees are spelled in one way, up to the classes of literals. -/
theorem Spells.texts_eq {words words' : List Word} {ts : List Tree} (h : Spells words ts)
    (h' : Spells words' ts) : words.map Prod.snd = words'.map Prod.snd := by
  induction h generalizing words' with
  | nil =>
    cases h'
    rfl
  | leaf _ ht _ ih =>
    cases h' with
    | leaf _ ht' hrest =>
      rw [List.map_cons, List.map_cons, ih hrest, Word.text_eq_of_leaf (ht.symm.trans ht')]
    | group _ _ => exact absurd ht Word.group_ne_leaf
  | group _ _ ihin ih =>
    cases h' with
    | leaf _ ht' _ => exact absurd ht' Word.group_ne_leaf
    | group hin hrest => simp [ihin hin, ih hrest]

/-- A folded text is read as the trees that its words spell exactly if nothing in it is misread. -/
theorem Retold.tokenize_iff {near : Bool} {l : Word} {old : List Char} {chunks : List Chunk}
    {words : List Word} {ts : List Tree} (h : Retold near l old chunks words)
    (hspells : Spells words ts) (hs : swallows chunks = false) (file : Option String) :
    (∃ us, tokenize (textOf chunks) file = .ok us ∧ bareOf us = bareOf ts) ↔
      misread chunks = false := by
  have hread : Rereads chunks words .first := h.rereads hs .first
  unfold Rereads at hread
  constructor
  · rintro ⟨us, hus, hbare⟩
    by_contra hmis
    rw [Bool.not_eq_false] at hmis
    rw [if_pos hmis] at hread
    exact hread (((tokenize_forms hus).spells.of_bareOf hbare).texts_eq hspells)
  · intro hmis
    rw [hmis, if_neg Bool.false_ne_true] at hread
    obtain ⟨hstuck, hfound⟩ := hread
    exact Spells.tokenize (hfound.symm ▸ hspells) hstuck file

end InlineVariants
