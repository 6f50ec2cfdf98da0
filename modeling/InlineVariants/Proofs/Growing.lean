import InlineVariants.Proofs.Relexing

/-!
# Tokens that grow

A token looks at most two characters ahead, unless it may begin a raw string or a comment. So where two
texts look alike (`Preview`), only few tokens can be read in another way in front of the second one, and
`takesIn` tells them: a token that takes in nothing stays what it is (`spares_of_takesIn`), and one that
does is found as a longer token (`foundLonger_of_takesIn`).
-/

namespace InlineVariants

open Text Lexeme

/-! ## What a token may take in -/

namespace Lexeme

/-- Whether a token takes in what is printed directly behind it: a `:` takes in a `:`, dots take in a
dot, a number that is made of digits a fraction, and an `r` with `#` behind it a raw name or a raw
string. -/
def takesIn (text rest : List Char) : Bool :=
  match rest with
  | ':' :: _ => text == [':']
  | '.' :: more => text == ['.'] || text == ['.', '.'] || (isWhole text && more.head?.any isDigit)
  | '#' :: more =>
    ((text == ['r'] || text == ['\x27', 'r']) && more.head?.any isNameStart) ||
      ((text == ['r'] || text == ['b', 'r']) && (rawString? (text ++ rest)).isSome)
  | _ => false

/-- A string that is closed has a quote behind the first one. -/
theorem rawRest?_of_stringRest? {cs : List Char} (h : stringRest? cs ≠ none) :
    rawRest? 0 cs ≠ none := by
  fun_induction stringRest? cs with
  | case1 => exact absurd rfl h
  | case2 => exact absurd rfl h
  | case3 c cs ih =>
    have hcs := ih (by simpa using h)
    by_cases hc : c = '\x22' <;> simp [rawRest?, hc, hcs]
  | case4 cs => simp [rawRest?]
  | case5 c cs _ _ _ ih =>
    have hcs := ih (by simpa using h)
    by_cases hc : c = '\x22' <;> simp [rawRest?, hc, hcs]

/-- What no token takes in leaves a token as it was. -/
theorem spares_of_takesIn {cls : LexemeClass} {text old new : List Char} (ht : IsToken cls text old)
    (h : Preview old new) (hgrow : takesIn text new = false)
    (hcomment : text = ['/'] → blockComment? (text ++ new) = none) : Spares text old new where
  colon := by
    rintro rfl rest rfl
    simp [takesIn] at hgrow
  dots := by
    rintro (rfl | rfl) rest rfl <;> simp [takesIn] at hgrow
  point := by
    rintro hw d rest rfl hd
    simp [takesIn, hw, hd] at hgrow
  hash := by
    rintro (rfl | rfl) c rest rfl hc <;> simp [takesIn, hc] at hgrow
  raw ho := by
    refine rawString?_eq_none_of_name ht.token h.akin ho fun hr => ?_
    rcases new with _ | ⟨c, new⟩
    · rfl
    by_cases hc : c = '#'
    · subst hc
      have hraw : rawString? (text ++ '#' :: new) = none := by
        have := hgrow
        simp only [takesIn, Bool.or_eq_false_iff, Bool.and_eq_false_imp] at this
        simpa using this.2 (by rcases hr with rfl | rfl <;> decide)
      rcases hr with rfl | rfl <;> simpa [rawString?, rawBody?_eq] using hraw
    by_cases hq : c = '\x22'
    -- the quote was there before, and a string that it began was closed
    · subst hq
      obtain ⟨old', rfl⟩ := h.akin.cons_of_not_mild (by decide)
      have hstring : stringRest? old' ≠ none := by simpa [string?] using h.string new rfl
      have hclosed : rawFrom? 0 ('\x22' :: old') ≠ none := by
        simpa [rawFrom?] using rawRest?_of_stringRest? hstring
      rcases hr with rfl | rfl <;> simp [rawString?, rawBody?_eq, hclosed] at ho
    · simp [rawFrom?, hc, hq]
  comment := hcomment

/-! ## Tokens that have grown -/

theorem isToken_of_token? {cls : LexemeClass} {cs : List Char} {n : Nat} (hn : trivia? cs = none)
    (h : token? cs = some (cls, n)) : IsToken cls (cs.take n) (cs.drop n) := by
  obtain ⟨hpos, hle⟩ := token?_fits h
  have hlen : (cs.take n).length = n := by rw [List.length_take, Nat.min_eq_left hle]
  refine ⟨?_, by rwa [List.take_append_drop], by rw [List.take_append_drop, h, hlen]⟩
  intro hnil
  rw [hnil, List.length_nil] at hlen
  omega

/-- No base is told by a digit, an underscore or a point. -/
theorem baseDigit?_eq_none {b : Char} (h : isDigitOrMark b = true ∨ b = '.') :
    baseDigit? b = none := by
  unfold baseDigit?
  split
  · revert h; decide
  · revert h; decide
  · revert h; decide
  · rfl

/-- A number of digits takes in a fraction. -/
theorem number?_fraction {text : List Char} {d : Char} (ht : isWhole text = true)
    (hd : isDigit d = true) (rest : List Char) :
    ∃ n, number? (text ++ '.' :: d :: rest) = some n ∧ text.length < n := by
  rcases text with _ | ⟨c, text⟩
  · simp [isWhole] at ht
  obtain ⟨hc, -, hall⟩ : isDigit c = true ∧ isDigitOrMark c = true ∧
      ∀ x ∈ text, isDigitOrMark x = true := by simpa [isWhole] using ht
  have hrun : (text ++ '.' :: d :: rest).takeWhile isDigitOrMark = text := by
    rw [List.takeWhile_append_of_pos hall]
    simp [show isDigitOrMark '.' = false by decide]
  have hbased : basedNumber? (c :: (text ++ '.' :: d :: rest)) = none := by
    obtain ⟨b, cs, he, hb⟩ : ∃ b cs, text ++ '.' :: d :: rest = b :: cs ∧
        (isDigitOrMark b = true ∨ b = '.') := by
      rcases text with _ | ⟨b, text⟩
      · exact ⟨'.', d :: rest, rfl, .inr rfl⟩
      · exact ⟨b, text ++ '.' :: d :: rest, rfl, .inl (hall b (by simp))⟩
    rw [he]
    by_cases h0 : c = '0'
    · subst h0
      simp [basedNumber?, baseDigit?_eq_none hb]
    · simp [basedNumber?, h0]
  have hdecimal : ∃ m, decimalNumber? (c :: (text ++ '.' :: d :: rest)) = some m ∧
      text.length + 1 < m := by
    simp only [decimalNumber?, hc, if_true, hrun, List.drop_left, fractionLength, hd]
    exact ⟨_, rfl, by omega⟩
  obtain ⟨m, hm, hlt⟩ := hdecimal
  refine ⟨m + suffixLength ((c :: text ++ '.' :: d :: rest).drop m), ?_, ?_⟩
  · rw [List.cons_append, number?, hbased, hm]
    rfl
  · rw [List.length_cons]
    omega

theorem token?_of_isDigit {c : Char} (cs : List Char) (hc : isDigit c = true) :
    token? (c :: cs) = (number? (c :: cs)).map (LexemeClass.number, ·) := by
  have hne {x : Char} (hx : isDigit x = false) : c ≠ x := by
    rintro rfl
    rw [hc] at hx
    cases hx
  have hs := string?_of_ne cs (hne (x := '\x22') (by decide)) (hne (by decide))
  have hr := rawString?_of_ne cs (hne (x := 'r') (by decide)) (hne (by decide))
  have hch := char?_of_ne cs (hne (x := '\x27') (by decide)) (hne (by decide))
  have hl := lifetime?_of_ne cs (hne (x := '\x27') (by decide))
  have hn : number? (c :: cs) ≠ none := by simp [number?, decimalNumber?, hc]
  obtain ⟨n, hn⟩ := Option.ne_none_iff_exists'.1 hn
  simp [token?, hs, hr, hch, hl, hn]

/-- In front of a text, a longer token is found than the one that was put there. -/
def FoundLonger (text new : List Char) : Prop :=
  ∃ cls n, text.length < n ∧ IsToken cls ((text ++ new).take n) ((text ++ new).drop n)

namespace FoundLonger

variable {text more : List Char}

theorem of_token? {new cs : List Char} {c : Char} {cls : LexemeClass} {n : Nat}
    (he : text ++ new = c :: cs) (htok : token? (c :: cs) = some (cls, n)) (hn : text.length < n)
    (hs : c ≠ '/') (hb : isBlank c = false) : FoundLonger text new :=
  ⟨cls, n, hn, isToken_of_token? (he ▸ not_trivia_of_ne cs hs hb) (he ▸ htok)⟩

theorem colon : FoundLonger [':'] (':' :: more) := by
  have htok : token? (':' :: ':' :: more) = some (.punct, 2) := by
    rw [token?_eq_symbol? _ (by decide) (by decide) (by decide) (by decide), symbol?,
      if_neg (not_triple _ (by decide))]
    rfl
  exact of_token? rfl htok (by simp) (by decide) (by decide)

theorem dot : FoundLonger ['.'] ('.' :: more) := by
  have htok := token?_eq_symbol? ('.' :: more) (c := '.') (by decide) (by decide) (by decide)
    (by decide)
  by_cases htriple : triples.contains (String.ofList (('.' :: '.' :: more).take 3)) = true
  · rw [symbol?, if_pos htriple] at htok
    exact of_token? rfl htok (by simp) (by decide) (by decide)
  · rw [symbol?, if_neg htriple] at htok
    exact of_token? (n := 2) rfl htok (by simp) (by decide) (by decide)

theorem dots : FoundLonger ['.', '.'] ('.' :: more) := by
  have htok : token? ('.' :: '.' :: '.' :: more) = some (.punct, 3) := by
    rw [token?_eq_symbol? _ (by decide) (by decide) (by decide) (by decide), symbol?]
    rfl
  exact of_token? rfl htok (by simp) (by decide) (by decide)

theorem fraction {d : Char} (hw : isWhole text = true) (hd : isDigit d = true)
    (hb : ∀ c rest, text = c :: rest → isBlank c = false) :
    FoundLonger text ('.' :: d :: more) := by
  obtain ⟨n, hn, hlt⟩ := number?_fraction hw hd more
  rcases text with _ | ⟨c, text⟩
  · simp [isWhole] at hw
  have hc : isDigit c = true := by
    simp only [isWhole, List.head?_cons, Option.any_some, Bool.and_eq_true] at hw
    exact hw.1
  have htok : token? (c :: (text ++ '.' :: d :: more)) = some (.number, n) := by
    rw [token?_of_isDigit _ hc]
    exact congrArg (Option.map _) hn
  exact of_token? rfl htok hlt (by rintro rfl; revert hc; decide) (hb c text rfl)

theorem name?_hash {c : Char} (hc : isNameStart c = true) (more : List Char) :
    name? ('r' :: '#' :: c :: more) = some ((more.takeWhile isNameChar).length + 3) := by
  simp [name?_raw, plainName?, hc]

theorem rawName {c : Char} (hc : isNameStart c = true) : FoundLonger ['r'] ('#' :: c :: more) := by
  have hq : c ≠ '\x22' := by rintro rfl; revert hc; decide
  have hh : c ≠ '#' := by rintro rfl; revert hc; decide
  have hstring := string?_of_ne ('#' :: c :: more) (show 'r' ≠ '\x22' by decide) (by decide)
  have hraw : rawString? ('r' :: '#' :: c :: more) = none := by
    simp [rawString?, rawBody?_eq, rawFrom?, hq, hh]
  have hchar := char?_of_ne ('#' :: c :: more) (show 'r' ≠ '\x27' by decide) (by decide)
  have hlife := lifetime?_of_ne ('#' :: c :: more) (show 'r' ≠ '\x27' by decide)
  have hnum := number?_of_not_isDigit ('#' :: c :: more) (show isDigit 'r' = false by decide)
  have htok : token? ('r' :: '#' :: c :: more) =
      some (.name, (more.takeWhile isNameChar).length + 3) := by
    simp [token?, hstring, hraw, hchar, hlife, hnum, name?_hash hc]
  exact of_token? rfl htok (by simp) (by decide) (by decide)

theorem rawLifetime {c : Char} (hc : isNameStart c = true) :
    FoundLonger ['\x27', 'r'] ('#' :: c :: more) := by
  have hchar : char? ('\x27' :: 'r' :: '#' :: c :: more) = none := by
    rw [char?_apostrophe _ (by decide)]
    rfl
  have htok : token? ('\x27' :: 'r' :: '#' :: c :: more) =
      some (.lifetime, (more.takeWhile isNameChar).length + 4) := by
    rw [token?_apostrophe hchar, lifetime?, name?_hash hc]
    rfl
  exact of_token? rfl htok (by simp) (by decide) (by decide)

theorem rawString (h : (rawString? ('r' :: more)).isSome = true) : FoundLonger ['r'] more := by
  obtain ⟨n, hn⟩ := Option.isSome_iff_exists.1 h
  have htok : token? ('r' :: more) = some (.rawString, n) := by
    simp [token?, string?_of_ne more (show 'r' ≠ '\x22' by decide) (by decide), hn]
  rw [rawString?, rawBody?_eq, Option.map_eq_some_iff] at hn
  obtain ⟨m, hm, rfl⟩ := hn
  have := rawFrom?_pos hm
  exact of_token? rfl htok (by simp; omega) (by decide) (by decide)

theorem rawBytes (h : (rawString? ('b' :: 'r' :: more)).isSome = true) :
    FoundLonger ['b', 'r'] more := by
  obtain ⟨n, hn⟩ := Option.isSome_iff_exists.1 h
  have htok : token? ('b' :: 'r' :: more) = some (.rawString, n) := by
    simp [token?, string?, hn]
  rw [rawString?, rawBody?_eq, Option.map_eq_some_iff] at hn
  obtain ⟨m, hm, rfl⟩ := hn
  have := rawFrom?_pos hm
  exact of_token? rfl htok (by simp; omega) (by decide) (by decide)

end FoundLonger

/-- A token that takes in what is behind it is found as a longer one. -/
theorem foundLonger_of_takesIn {cls : LexemeClass} {text old new : List Char}
    (ht : IsToken cls text old) (h : takesIn text new = true) : FoundLonger text new := by
  unfold takesIn at h
  split at h
  · obtain rfl : text = [':'] := by simpa using h
    exact .colon
  · rename_i more
    simp only [Bool.or_eq_true, beq_iff_eq, Bool.and_eq_true] at h
    rcases h with (rfl | rfl) | ⟨hw, hd⟩
    · exact .dot
    · exact .dots
    · rcases more with _ | ⟨d, more⟩
      · simp at hd
      refine .fraction hw (by simpa using hd) ?_
      rintro c rest rfl
      by_contra hb
      have hblank := ht.not_trivia
      rw [List.cons_append, trivia?_blank _ (by simpa using hb)] at hblank
      cases hblank
  · rename_i more
    simp only [Bool.or_eq_true, beq_iff_eq, Bool.and_eq_true] at h
    rcases h with ⟨htext, hc⟩ | ⟨rfl | rfl, hs⟩
    · rcases more with _ | ⟨c, more⟩
      · simp at hc
      have hc : isNameStart c = true := by simpa using hc
      rcases htext with rfl | rfl
      · exact .rawName hc
      · exact .rawLifetime hc
    · exact .rawString hs
    · exact .rawBytes hs
  · cases h

end Lexeme

end InlineVariants
