import InlineVariants.Proofs.Moving

/-!
# What the scanner looks at behind a token

The recognisers are tried in order, so a token also depends on what the earlier ones said no to: a
`b` on its own begins no literal, and an `r` with hashes no raw string that is ever closed.
`Lookahead` says that a new text behind a token tells the scanner no more than the old one did. It
holds where something inert comes (`of_inert`), and in front of a gap and of a token of the old text
it holds if it holds behind.

Main statement: a token that is moved in front of such a text stays what it is, if it is no `:` that
comes before a `:` and no `/` that opens a comment (`IsToken.move`). Where the new text only looks like
the old one (`Preview`), a few more tokens may grow (`Spares`, `IsToken.stay`).
-/

namespace InlineVariants.Lexeme

open Text

/-! ## First characters -/

/-- The first character decides which recognisers can answer at all. -/
theorem string?_of_ne {c : Char} (cs : List Char) (hq : c ≠ '\x22') (hb : c ≠ 'b') :
    string? (c :: cs) = none := by
  simp [string?, hq, hb]

theorem rawString?_of_ne {c : Char} (cs : List Char) (hr : c ≠ 'r') (hb : c ≠ 'b') :
    rawString? (c :: cs) = none := by
  simp [rawString?, hr, hb]

theorem plainChar?_of_ne {c : Char} (cs : List Char) (hq : c ≠ '\x27') :
    plainChar? (c :: cs) = none := by
  simp [plainChar?, hq]

theorem char?_of_ne {c : Char} (cs : List Char) (hq : c ≠ '\x27') (hb : c ≠ 'b') :
    char? (c :: cs) = none := by
  simp [char?, hb, plainChar?_of_ne cs hq]

theorem lifetime?_of_ne {c : Char} (cs : List Char) (hq : c ≠ '\x27') :
    lifetime? (c :: cs) = none := by
  simp [lifetime?, hq]

theorem number?_of_not_isDigit {c : Char} (cs : List Char) (hc : isDigit c = false) :
    number? (c :: cs) = none := by
  have h0 : c ≠ '0' := by rintro rfl; revert hc; decide
  have hbased : basedNumber? (c :: cs) = none := by
    unfold basedNumber?; split <;> simp_all
  simp [number?, hbased, decimalNumber?, hc]

theorem name?_of_not_isNameStart {c : Char} (cs : List Char) (hc : isNameStart c = false) :
    name? (c :: cs) = none := by
  have hr : c ≠ 'r' := by rintro rfl; revert hc; decide
  rw [name?_of_ne (by simp [hr])]
  simp [plainName?, hc]

theorem name?_ne_none {c : Char} (cs : List Char) (hc : isNameStart c = true) :
    name? (c :: cs) ≠ none := by
  by_cases hraw : ∃ rest, c :: cs = 'r' :: '#' :: rest
  · obtain ⟨rest, he⟩ := hraw
    rw [he, name?_raw]
    simp
  · rw [name?_of_ne fun rest he => hraw ⟨rest, he⟩]
    simp [plainName?, hc]

/-- A longer symbol begins with a character that is one on its own. -/
theorem symbol?_of_not_single {c : Char} (cs : List Char) (hs : c ∉ singles)
    (hb : bracket? c = none) : symbol? (c :: cs) = none := by
  have htriple : ¬ triples.contains (String.ofList ((c :: cs).take 3)) = true := by
    rw [contains_ofList, List.contains_iff_mem]
    have hhead : ∀ t ∈ triples.map String.toList, t.head?.all singles.contains = true := by decide
    exact fun h => hs (by simpa using hhead _ h)
  have hpair : ¬ pairs.contains (String.ofList ((c :: cs).take 2)) = true := by
    rw [contains_ofList, List.contains_iff_mem]
    have hhead : ∀ t ∈ pairs.map String.toList, t.head?.all singles.contains = true := by decide
    exact fun h => hs (by simpa using hhead _ h)
  rw [symbol?, if_neg htriple, if_neg hpair]
  simp [hs, hb]

/-- A character that begins nothing else can only begin a symbol. -/
theorem token?_eq_symbol? {c : Char} (cs : List Char) (hq : c ≠ '\x22') (ha : c ≠ '\x27')
    (hd : isDigit c = false) (hn : isNameStart c = false) : token? (c :: cs) = symbol? (c :: cs) := by
  have hb : c ≠ 'b' := by rintro rfl; revert hn; decide
  have hr : c ≠ 'r' := by rintro rfl; revert hn; decide
  simp [token?, string?_of_ne cs hq hb, rawString?_of_ne cs hr hb, char?_of_ne cs ha hb,
    lifetime?_of_ne cs ha, number?_of_not_isDigit cs hd, name?_of_not_isNameStart cs hn]

theorem not_triple {c : Char} (cs : List Char)
    (h : ∀ t ∈ triples.map String.toList, t.head? ≠ some c) :
    ¬ triples.contains (String.ofList ((c :: cs).take 3)) = true := by
  rw [contains_ofList, List.contains_iff_mem]
  exact fun hc => h _ hc (by simp)

theorem token?_quote (cs : List Char) :
    token? ('\x22' :: cs) = (string? ('\x22' :: cs)).map (LexemeClass.string, ·) := by
  have hraw := rawString?_of_ne cs (show '\x22' ≠ 'r' by decide) (by decide)
  have hchar := char?_of_ne cs (show '\x22' ≠ '\x27' by decide) (by decide)
  have hlife := lifetime?_of_ne cs (show '\x22' ≠ '\x27' by decide)
  have hnum := number?_of_not_isDigit cs (show isDigit '\x22' = false by decide)
  have hname := name?_of_not_isNameStart cs (show isNameStart '\x22' = false by decide)
  simp [token?, hraw, hchar, hlife, hnum, hname,
    symbol?_of_not_single cs (show '\x22' ∉ singles by decide) rfl]

theorem token?_apostrophe {cs : List Char} (hc : char? ('\x27' :: cs) = none) :
    token? ('\x27' :: cs) = (lifetime? ('\x27' :: cs)).map (LexemeClass.lifetime, ·) := by
  have hstring := string?_of_ne cs (show '\x27' ≠ '\x22' by decide) (by decide)
  have hraw := rawString?_of_ne cs (show '\x27' ≠ 'r' by decide) (by decide)
  have hnum := number?_of_not_isDigit cs (show isDigit '\x27' = false by decide)
  have hname := name?_of_not_isNameStart cs (show isNameStart '\x27' = false by decide)
  simp [token?, hstring, hraw, hc, hnum, hname,
    symbol?_of_not_single cs (show '\x27' ∉ singles by decide) rfl]

/-- The third character tells a character literal from a lifetime. -/
theorem char?_apostrophe {c : Char} (cs : List Char) (hc : isNameStart c = true) :
    char? ('\x27' :: c :: cs) = if cs.head? = some '\x27' then some 3 else none := by
  -- the pattern of an escape is passed over
  have hescape : c ≠ '\\' := by rintro rfl; revert hc; decide
  have hquote : c ≠ '\x27' := by rintro rfl; revert hc; decide
  have hreturn : c ≠ '\r' := by rintro rfl; revert hc; decide
  have hbreak : c ≠ '\n' := by rintro rfl; revert hc; decide
  simp [char?, plainChar?, charBody?, hquote, hreturn, hbreak]

theorem token?_b {cs : List Char} (hs : string? ('b' :: cs) = none)
    (hr : rawString? ('b' :: cs) = none) (hc : char? ('b' :: cs) = none) :
    token? ('b' :: cs) = some (.name, (cs.takeWhile isNameChar).length + 1) := by
  have hlife := lifetime?_of_ne cs (show 'b' ≠ '\x27' by decide)
  have hnum := number?_of_not_isDigit cs (show isDigit 'b' = false by decide)
  have hname : name? ('b' :: cs) = some ((cs.takeWhile isNameChar).length + 1) := by
    simp [name?, plainName?, show isNameStart 'b' = true by decide]
  simp [token?, hs, hr, hc, hlife, hnum, hname]

/-! ## Names have no quotes -/

theorem IsToken.name {text rest : List Char} (h : IsToken .name text rest) :
    name? (text ++ rest) = some text.length := by
  have htok := h.token
  unfold token? at htok
  simp only [Option.orElse_eq_orElse, Option.orElse_eq_or, Option.or_eq_some_iff,
    Option.map_eq_some_iff, Prod.mk.injEq] at htok
  rcases htok with ⟨_, -, hc, -⟩ | ⟨-, ⟨_, -, hc, -⟩ | ⟨-, ⟨_, -, hc, -⟩ | ⟨-, ⟨_, -, hc, -⟩ |
    ⟨-, ⟨_, -, hc, -⟩ | ⟨-, ⟨n, hn, -, rfl⟩ | ⟨-, hs⟩⟩⟩⟩⟩⟩
  · cases hc
  · cases hc
  · cases hc
  · cases hc
  · cases hc
  · exact hn
  · rcases symbol?_cases hs with hc | ⟨c, _, -, -, hc⟩
    · cases hc
    · unfold bracket? at hc
      split at hc <;> simp at hc

theorem quote_not_mem_plainName {text rest : List Char}
    (h : plainName? (text ++ rest) = some text.length) : '\x22' ∉ text := by
  rcases text with _ | ⟨c, text⟩
  · simp
  rw [List.cons_append, plainName?] at h
  split at h
  · rename_i hc
    have hall : (text ++ rest).takeWhile isNameChar = text := by
      have hlen : ((text ++ rest).takeWhile isNameChar).length = text.length := by simpa using h
      rw [(List.prefix_iff_eq_take.1 (List.takeWhile_prefix isNameChar)), hlen, List.take_left]
    intro hmem
    rcases List.mem_cons.1 hmem with rfl | hmem
    · revert hc; decide
    · exact absurd (List.mem_takeWhile_imp (hall ▸ hmem)) (by decide)
  · simp at h

theorem quote_not_mem_of_name? {text rest : List Char}
    (h : name? (text ++ rest) = some text.length) : '\x22' ∉ text := by
  by_cases hraw : ∃ tail, text = 'r' :: '#' :: tail
  · obtain ⟨tail, rfl⟩ := hraw
    rw [List.cons_append, List.cons_append, name?_raw] at h
    cases hp : plainName? (tail ++ rest) with
    | none => simp [hp] at h
    | some n =>
      obtain rfl : n = tail.length := by simpa [hp] using h
      simpa using quote_not_mem_plainName hp
  by_cases hone : text = ['r']
  · simp [hone]
  · rw [name?_of_ne] at h
    · exact quote_not_mem_plainName h
    -- a text that is no `r` on its own has its second character in common with what is read
    · intro tail he
      rcases text with _ | ⟨c, _ | ⟨d, text⟩⟩
      · exact absurd (name?_fits h).1 (by simp)
      · exact hone (by simpa using (List.cons.inj he).1)
      · simp only [List.cons_append, List.cons.injEq] at he
        exact hraw ⟨text, by rw [he.1, he.2.1]⟩

/-- A name has no quote in it. -/
theorem quote_not_mem_name {text rest : List Char} (h : IsToken .name text rest) : '\x22' ∉ text :=
  quote_not_mem_of_name? h.name

/-- What begins like a raw string and is none is a name. -/
theorem name?_of_rawString? {tail rest : List Char} {cls : LexemeClass}
    (ht : token? ('r' :: (tail ++ rest)) = some (cls, tail.length + 1))
    (ho : rawString? ('r' :: (tail ++ rest)) = none) :
    name? ('r' :: (tail ++ rest)) = some (tail.length + 1) := by
  have hs := string?_of_ne (tail ++ rest) (show 'r' ≠ '\x22' by decide) (by decide)
  have hc := char?_of_ne (tail ++ rest) (show 'r' ≠ '\x27' by decide) (by decide)
  have hl := lifetime?_of_ne (tail ++ rest) (show 'r' ≠ '\x27' by decide)
  have hd := number?_of_not_isDigit (tail ++ rest) (show isDigit 'r' = false by decide)
  obtain ⟨n, hn⟩ := Option.ne_none_iff_exists'.1
    (name?_ne_none (tail ++ rest) (show isNameStart 'r' = true by decide))
  obtain ⟨-, rfl⟩ : LexemeClass.name = cls ∧ n = tail.length + 1 := by
    simpa [token?, hs, ho, hc, hl, hd, hn] using ht
  exact hn

theorem plainName?_of_rawString? {tail rest : List Char} {cls : LexemeClass}
    (ht : token? ('b' :: 'r' :: (tail ++ rest)) = some (cls, tail.length + 2))
    (ho : rawString? ('b' :: 'r' :: (tail ++ rest)) = none) :
    plainName? ('b' :: 'r' :: (tail ++ rest)) = some (tail.length + 2) := by
  rw [token?_b (by simp [string?]) ho (by simp [char?, plainChar?])] at ht
  rw [plainName?, if_pos (by decide), ← (Prod.mk.inj (Option.some.inj ht)).2]

theorem quote_not_mem_of_rawString? {text rest : List Char} {cls : LexemeClass}
    (ht : token? (text ++ rest) = some (cls, text.length)) (ho : rawString? (text ++ rest) = none)
    (hr : (∃ tail, text = 'r' :: tail) ∨ ∃ tail, text = 'b' :: 'r' :: tail) : '\x22' ∉ text := by
  rcases hr with ⟨tail, rfl⟩ | ⟨tail, rfl⟩
  · exact quote_not_mem_of_name? (name?_of_rawString? ht ho)
  · exact quote_not_mem_plainName (plainName?_of_rawString? ht ho)

/-- A name that begins like a raw string is not made of hashes. -/
theorem hash_of_rawString? {tail rest : List Char} {cls : LexemeClass}
    (h : token? ('r' :: (tail ++ rest)) = some (cls, tail.length + 1) ∧
        rawString? ('r' :: (tail ++ rest)) = none ∨
      token? ('b' :: 'r' :: (tail ++ rest)) = some (cls, tail.length + 2) ∧
        rawString? ('b' :: 'r' :: (tail ++ rest)) = none) :
    tail = [] ∨ ∃ c ∈ tail, c ≠ '#' := by
  rcases tail with _ | ⟨c, tail⟩
  · exact .inl rfl
  by_cases hc : c = '#'
  · subst hc
    right
    rcases h with ⟨ht, ho⟩ | ⟨ht, ho⟩
    · have hname := name?_of_rawString? ht ho
      rw [List.cons_append, name?_raw] at hname
      cases hp : plainName? (tail ++ rest) with
      | none => simp [hp] at hname
      | some n =>
        obtain rfl : n = tail.length := by simpa [hp] using hname
        rcases tail with _ | ⟨d, tail⟩
        · exact absurd (plainName?_fits hp).1 (by simp)
        · refine ⟨d, by simp, ?_⟩
          rintro rfl
          simp [plainName?, show isNameStart '#' = false by decide] at hp
    · have hname := plainName?_of_rawString? ht ho
      simp [plainName?, show isNameStart 'b' = true by decide, show isNameChar 'r' = true by decide,
        show isNameChar '#' = false by decide] at hname
  · exact .inr ⟨c, by simp, hc⟩

/-! ## Lookahead -/

/-- No raw string is closed in the new text that the old one left open. -/
def LeavesOpen (old new : List Char) : Prop :=
  ∀ hashes, rawRest? hashes old = none → rawRest? hashes new = none

theorem LeavesOpen.of_suffix {old ahead new : List Char} (h : LeavesOpen ahead new)
    (hs : ahead <:+ old) : LeavesOpen old new := by
  obtain ⟨first, rfl⟩ := hs
  intro hashes ho
  refine h hashes ?_
  induction first with
  | nil => exact ho
  | cons c first ih =>
    rw [List.cons_append, rawRest?] at ho
    split at ho
    · simp at ho
    · exact ih (by simpa using ho)

/-- What has no quote in it closes no raw string. -/
theorem LeavesOpen.made {old new text : List Char} (h : LeavesOpen old new) (ht : '\x22' ∉ text) :
    LeavesOpen old (text ++ new) := by
  intro hashes ho
  induction text with
  | nil => exact h hashes ho
  | cons c text ih =>
    have hc : c ≠ '\x22' := fun hc => ht (by simp [hc])
    rw [List.cons_append, rawRest?, if_neg (by simp [hc]), ih fun hmem => ht (by simp [hmem])]
    rfl

/-- What the scanner is told by the next few characters behind a token: the new text begins as the old
one does, and begins no string or character there that the old one did not. -/
structure Glance (old new : List Char) : Prop where
  shared : Shared old new
  string : ∀ rest, new = '\x22' :: rest → string? old ≠ none
  char : plainChar? old = none → plainChar? new = none

/-- What the scanner is told behind a token: the new text begins as the old one does, and begins no
literal there that the old one did not. -/
structure Lookahead (old new : List Char) : Prop extends Glance old new where
  raw : ∀ hashes, rawFrom? hashes old = none → rawFrom? hashes new = none

/-- What the scanner is told if the new text only looks like the old one. -/
structure Preview (old new : List Char) : Prop where
  akin : Akin old new
  string : ∀ rest, new = '\x22' :: rest → string? old ≠ none
  char : plainChar? old = none → plainChar? new = none

theorem Glance.preview {old new : List Char} (h : Glance old new) : Preview old new :=
  ⟨h.shared.akin, h.string, h.char⟩

theorem Shared.take_hashes {old new : List Char} (h : Shared old new) (hashes : Nat)
    (hn : new.take hashes = List.replicate hashes '#') :
    old.take hashes = List.replicate hashes '#' := by
  induction hashes generalizing old new with
  | zero => rfl
  | succ hashes ih =>
    rcases new with _ | ⟨c, new⟩
    · simp [List.replicate_succ] at hn
    · simp only [List.take_succ_cons, List.replicate_succ, List.cons.injEq] at hn
      obtain ⟨rfl, hn⟩ := hn
      obtain ⟨old', rfl, h'⟩ := h.cons_of_not_inert (by decide)
      rw [List.take_succ_cons, ih h' hn, List.replicate_succ]

theorem LeavesOpen.append {old new : List Char} (h : LeavesOpen old new) (hs : Shared old new)
    (text : List Char) : LeavesOpen (text ++ old) (text ++ new) := by
  induction text with
  | nil => exact h
  | cons c text ih =>
    intro hashes ho
    rw [List.cons_append, rawRest?] at ho ⊢
    split at ho
    · simp at ho
    · rename_i hq
      rw [if_neg, ih hashes (by simpa using ho)]
      · rfl
      · simp only [Bool.and_eq_true, decide_eq_true_eq, beq_iff_eq, not_and] at hq ⊢
        exact fun hc hn => hq hc ((hs.append text).take_hashes hashes hn)

theorem Lookahead.raw_append {old new text : List Char} (h : Lookahead old new)
    (hq : '\x22' ∈ text → LeavesOpen old new) (hashes : Nat)
    (ho : rawFrom? hashes (text ++ old) = none) : rawFrom? hashes (text ++ new) = none := by
  induction text generalizing hashes with
  | nil => exact h.raw hashes ho
  | cons c text ih =>
    by_cases hc : c = '#'
    · subst hc
      rw [List.cons_append, rawFrom?, ih (fun hmem => hq (by simp [hmem])) (hashes + 1)
        (by simpa [rawFrom?] using ho)]
      rfl
    by_cases hc' : c = '\x22'
    · subst hc'
      rw [List.cons_append, rawFrom?] at ho ⊢
      split at ho
      · rename_i hmax
        rw [if_pos hmax, (hq (by simp)).append h.shared text hashes (by simpa using ho)]
        rfl
      · rename_i hmax
        rw [if_neg hmax]
    · simp [rawFrom?, hc, hc']

/-! ## What says no to a token says no again -/

section

variable {old new text : List Char} {cls : LexemeClass} (h : Preview old new)
  (ht : token? (text ++ old) = some (cls, text.length))
include h ht

theorem string?_eq_none_move (ho : string? (text ++ old) = none) :
    string? (text ++ new) = none := by
  rcases text with _ | ⟨c, text⟩
  · exact absurd (token?_fits ht).1 (by simp)
  by_cases hq : c = '\x22'
  · subst hq
    rw [List.cons_append, token?_quote, ← List.cons_append, ho] at ht
    simp at ht
  by_cases hb : c = 'b'
  · subst hb
    rcases text with _ | ⟨d, text⟩
    · rcases new with _ | ⟨d, new⟩
      · rfl
      by_cases hd : d = '\x22'
      -- the old text begins a string there, so the `b` was part of it
      · subst hd
        obtain ⟨old', rfl⟩ := h.akin.cons_of_not_mild (by decide)
        have hs := h.string new rfl
        simp only [string?, List.singleton_append] at hs ho
        simp [Option.map_eq_none_iff.1 ho] at hs
      · simp [string?, hd]
    · by_cases hd : d = '\x22'
      · subst hd
        simp only [List.cons_append] at ht ho
        rw [token?_b ho (by simp [rawString?]) (by simp [char?, plainChar?])] at ht
        simp [show isNameChar '\x22' = false by decide] at ht
      · simp [string?, hd]
  · exact string?_of_ne _ hq hb

omit h in
/-- A name becomes a raw string only if it is an `r` or `br`, and the new text goes on like one. -/
theorem rawString?_eq_none_of_name (h : Akin old new) (ho : rawString? (text ++ old) = none)
    (hr : text = ['r'] ∨ text = ['b', 'r'] → rawFrom? 0 new = none) :
    rawString? (text ++ new) = none := by
  have hq := quote_not_mem_of_rawString? ht ho
  have htail {tail : List Char} (hnil : tail = [] → rawFrom? 0 new = none) (hquote : '\x22' ∉ tail)
      (hhash : tail = [] ∨ ∃ c ∈ tail, c ≠ '#') : rawFrom? 0 (tail ++ new) = none := by
    rcases hhash with rfl | hhash
    · exact hnil rfl
    · exact rawFrom?_eq_none hquote hhash 0 new
  by_cases hr' : ∃ tail, text = 'r' :: tail
  · obtain ⟨tail, rfl⟩ := hr'
    have hquote : '\x22' ∉ tail := fun hmem => hq (.inl ⟨tail, rfl⟩) (by simp [hmem])
    rw [List.cons_append, rawString?, rawBody?_eq, Option.map_eq_none_iff]
    exact htail (by rintro rfl; exact hr (.inl rfl)) hquote (hash_of_rawString? (.inl ⟨ht, ho⟩))
  by_cases hb : ∃ tail, text = 'b' :: 'r' :: tail
  · obtain ⟨tail, rfl⟩ := hb
    have hquote : '\x22' ∉ tail := fun hmem => hq (.inr ⟨tail, rfl⟩) (by simp [hmem])
    rw [List.cons_append, List.cons_append, rawString?, rawBody?_eq, Option.map_eq_none_iff]
    exact htail (by rintro rfl; exact hr (.inr rfl)) hquote (hash_of_rawString? (.inr ⟨ht, ho⟩))
  rcases text with _ | ⟨c, text⟩
  · exact absurd (token?_fits ht).1 (by simp)
  have hcr : c ≠ 'r' := fun hc => hr' ⟨text, by rw [hc]⟩
  by_cases hcb : c = 'b'
  · subst hcb
    rcases text with _ | ⟨d, text⟩
    · rcases new with _ | ⟨d, new⟩
      · rfl
      by_cases hd : d = 'r'
      -- the `r` would be part of the name
      · subst hd
        obtain ⟨old', rfl⟩ := h.cons_of_not_mild (by decide)
        rw [List.singleton_append] at ht ho
        rw [token?_b (by simp [string?]) ho (by simp [char?, plainChar?])] at ht
        simp [show isNameChar 'r' = true by decide] at ht
      · simp [rawString?, hd]
    · have hd : d ≠ 'r' := fun hd => hb ⟨text, by rw [hd]⟩
      simp [rawString?, hd]
  · exact rawString?_of_ne _ hcr hcb

omit h in
theorem rawString?_eq_none_move (h : Lookahead old new) (ho : rawString? (text ++ old) = none) :
    rawString? (text ++ new) = none := by
  refine rawString?_eq_none_of_name ht h.shared.akin ho fun hr => h.raw 0 ?_
  rcases hr with rfl | rfl
  · simpa [rawString?, rawBody?_eq] using ho
  · simpa [rawString?, rawBody?_eq] using ho

theorem char?_eq_none_move (hs : string? (text ++ old) = none)
    (hr : rawString? (text ++ old) = none) (ho : char? (text ++ old) = none) :
    char? (text ++ new) = none := by
  rcases text with _ | ⟨c, text⟩
  · exact absurd (token?_fits ht).1 (by simp)
  by_cases hq : c = '\x27'
  · subst hq
    simp only [List.cons_append] at ht ho ⊢
    rw [token?_apostrophe ho, lifetime?] at ht
    have hname : name? (text ++ old) = some text.length := by
      obtain ⟨m, hm, he⟩ := Option.map_eq_some_iff.1 ht
      obtain ⟨k, hk, rfl⟩ := Option.map_eq_some_iff.1 hm
      obtain ⟨-, rfl⟩ : cls = .lifetime ∧ k = text.length := by simpa [eq_comm] using he
      exact hk
    rcases text with _ | ⟨d, text⟩
    · exact absurd (name?_fits hname).1 (by simp)
    have hd : isNameStart d = true := by
      by_contra hd
      rw [List.cons_append, name?_of_not_isNameStart _ (by simpa using hd)] at hname
      simp at hname
    simp only [List.cons_append, char?_apostrophe _ hd] at ho ⊢
    rw [if_neg]
    intro hn
    obtain ⟨rest, hn⟩ := List.head?_eq_some_iff.1 hn
    obtain ⟨rest', ho'⟩ :=
      (hn ▸ h.akin.append text : Akin _ ('\x27' :: rest)).cons_of_not_mild (by decide)
    simp [ho'] at ho
  by_cases hb : c = 'b'
  · subst hb
    rcases text with _ | ⟨d, text⟩
    · simp only [List.singleton_append, char?, Option.map_eq_none_iff] at ho ⊢
      exact h.char ho
    · by_cases hd : d = '\x27'
      · subst hd
        simp only [List.cons_append] at ht hs hr ho
        rw [token?_b hs hr ho] at ht
        simp [show isNameChar '\x27' = false by decide] at ht
      · simp [char?, plainChar?, hd]
  · exact char?_of_ne _ hq hb

end

section

variable {old new : List Char} (h : Akin old new)
include h

theorem number?_eq_none_move (ho : number? old = none) : number? new = none := by
  rcases new with _ | ⟨c, new⟩
  · rfl
  rcases h.first c new rfl with hc | ⟨old', rfl⟩
  · exact number?_of_not_isDigit new (isDigit_mild c hc)
  · refine number?_of_not_isDigit new ?_
    by_contra hc
    simp [number?, decimalNumber?, hc] at ho

theorem name?_eq_none_move (ho : name? old = none) : name? new = none := by
  rcases new with _ | ⟨c, new⟩
  · rfl
  rcases h.first c new rfl with hc | ⟨old', rfl⟩
  · exact name?_of_not_isNameStart new (isNameStart_mild c hc)
  · refine name?_of_not_isNameStart new ?_
    by_contra hc
    exact name?_ne_none old' (by simpa using hc) ho

theorem lifetime?_eq_none_move (ho : lifetime? old = none) : lifetime? new = none := by
  rcases new with _ | ⟨q, _ | ⟨c, new⟩⟩
  · rfl
  · by_cases hq : q = '\x27'
    · subst hq
      rfl
    · exact lifetime?_of_ne _ hq
  by_cases hq : q = '\x27'
  · subst hq
    rw [lifetime?, Option.map_eq_none_iff]
    refine name?_of_not_isNameStart new ?_
    by_contra hc
    obtain ⟨old', rfl⟩ := h.cons_cons (by decide) fun hm => hc (isNameStart_mild c hm)
    rw [lifetime?, Option.map_eq_none_iff] at ho
    exact name?_ne_none old' (by simpa using hc) ho
  · exact lifetime?_of_ne _ hq

end

theorem token?_slash_star (cs : List Char) : token? ('/' :: '*' :: cs) = some (.punct, 1) := by
  rw [token?_eq_symbol? _ (by decide) (by decide) (by decide) (by decide), symbol?,
    if_neg (not_triple _ (by decide))]
  rfl

/-- A slash begins a comment only if the next character says so. -/
theorem trivia?_eq_none_move {old new text : List Char} {cls : LexemeClass} (h : Akin old new)
    (ht : IsToken cls text old) (hcomment : text = ['/'] → blockComment? (text ++ new) = none) :
    trivia? (text ++ new) = none := by
  have ho := ht.not_trivia
  have htok := ht.token
  by_contra hn
  obtain ⟨n, hn⟩ := Option.ne_none_iff_exists'.1 hn
  rcases text with _ | ⟨c, text⟩
  · exact ht.ne_nil rfl
  rcases trivia?_cases hn with ⟨c', rest, he, hc, -⟩ | ⟨rest, he, -⟩ | ⟨rest, m, he, hm, -⟩
  · obtain ⟨rfl, -⟩ := List.cons.inj he
    rw [List.cons_append, trivia?_blank _ hc] at ho
    simp at ho
  · rcases text with _ | ⟨d, text⟩
    · simp only [List.singleton_append, List.cons.injEq] at he
      obtain ⟨rfl, rfl⟩ := he
      obtain ⟨old', rfl⟩ := h.cons_of_not_mild (by decide)
      rw [List.singleton_append, trivia?_line] at ho
      simp at ho
    · simp only [List.cons_append, List.cons.injEq] at he
      obtain ⟨rfl, rfl, -⟩ := he
      rw [List.cons_append, List.cons_append, trivia?_line] at ho
      simp at ho
  · rcases text with _ | ⟨d, text⟩
    · simp only [List.singleton_append, List.cons.injEq] at he
      obtain ⟨rfl, rfl⟩ := he
      have := hcomment rfl
      simp [blockComment?, hm] at this
    -- the recognisers take a slash alone, never a slash and a star
    · simp only [List.cons_append, List.cons.injEq] at he
      obtain ⟨rfl, rfl, -⟩ := he
      rw [List.cons_append, List.cons_append, token?_slash_star] at htok
      simp at htok

/-! ## Tokens -/

/-- Whether a text is a number that is made of digits. -/
def isWhole (text : List Char) : Bool := text.head?.any isDigit && text.all isDigitOrMark

/-- The new text gives a token no more to take in than the old one did: no `:` to a `:`, no `.` to dots,
no fraction to a number, no name behind `#` to an `r`, and nothing that closes a raw string or a
comment. -/
structure Spares (text old new : List Char) : Prop where
  colon : text = [':'] → ∀ rest, new ≠ ':' :: rest
  dots : text = ['.'] ∨ text = ['.', '.'] → ∀ rest, new = '.' :: rest → ∃ rest', old = '.' :: rest'
  point : isWhole text = true → ∀ d rest, new = '.' :: d :: rest → isDigit d = true →
    ∃ rest', old = '.' :: d :: rest'
  hash : text = ['r'] ∨ text = ['\x27', 'r'] → ∀ c rest, new = '#' :: c :: rest →
    isNameStart c = true → ∃ rest', old = '#' :: c :: rest'
  raw : rawString? (text ++ old) = none → rawString? (text ++ new) = none
  comment : text = ['/'] → blockComment? (text ++ new) = none

theorem Shared.spares {text old new : List Char} (h : Shared old new)
    (hr : rawString? (text ++ old) = none → rawString? (text ++ new) = none)
    (hcolon : text = [':'] → ∀ rest, new ≠ ':' :: rest)
    (hcomment : text = ['/'] → blockComment? (text ++ new) = none) : Spares text old new where
  colon := hcolon
  dots := by
    rintro - rest rfl
    obtain ⟨old', rfl, -⟩ := h.cons_of_not_inert (by decide)
    exact ⟨old', rfl⟩
  point := by
    rintro - d rest rfl hd
    obtain ⟨old', rfl, h'⟩ := h.cons_of_not_inert (by decide)
    obtain ⟨old'', rfl, -⟩ := h'.cons_of_not_inert
      fun hi => by simp [isDigit_mild d (mild_of_inert hi)] at hd
    exact ⟨old'', rfl⟩
  hash := by
    rintro - c rest rfl hc
    obtain ⟨old', rfl, h'⟩ := h.cons_of_not_inert (by decide)
    obtain ⟨old'', rfl, -⟩ := h'.cons_of_not_inert
      fun hi => by simp [isNameStart_mild c (mild_of_inert hi)] at hc
    exact ⟨old'', rfl⟩
  raw := hr
  comment := hcomment

/-- A token stays what it is in front of a text that looks like the old one, if it is spared. -/
theorem IsToken.stay {old new text : List Char} {cls : LexemeClass} (ht : IsToken cls text old)
    (h : Preview old new) (hs : Spares text old new) : IsToken cls text new where
  ne_nil := ht.ne_nil
  not_trivia := trivia?_eq_none_move h.akin ht hs.comment
  token := by
    have htok := ht.token
    have hakin := h.akin.append text
    have hstring := string?_eq_none_move h ht.token
    have hc := char?_eq_none_move h ht.token
    have hl := lifetime?_eq_none_move hakin
    have hn := number?_eq_none_move hakin
    have hm := name?_eq_none_move hakin
    have hwhole (hn : number? (text ++ old) = some text.length)
        (hall : ∀ c ∈ text, isDigitOrMark c = true) : isWhole text = true := by
      rcases text with _ | ⟨c, text⟩
      · exact absurd rfl ht.ne_nil
      have hc : isDigit c = true := by
        by_contra hc
        rw [List.cons_append, number?_of_not_isDigit _ (by simpa using hc)] at hn
        cases hn
      simpa [isWhole, hc] using hall
    -- what answered before answers again, and what stayed silent stays so
    have hmap {r r' : Option Nat} {c : LexemeClass}
        (hr : r = some text.length → r' = some text.length)
        (he : r.map (c, ·) = some (cls, text.length)) : r'.map (c, ·) = some (cls, text.length) := by
      obtain ⟨m, rfl, hm⟩ := Option.map_eq_some_iff.1 he
      obtain ⟨rfl, rfl⟩ := Prod.mk.inj hm
      rw [hr rfl]
      rfl
    unfold token? at htok ⊢
    simp only [Option.orElse_eq_orElse, Option.orElse_eq_or, Option.or_eq_some_iff,
      Option.map_eq_none_iff] at htok ⊢
    rcases htok with h1 | ⟨n1, h2 | ⟨n2, h3 | ⟨n3, h4 | ⟨n4, h5 | ⟨n5, h6 | ⟨n6, h7⟩⟩⟩⟩⟩⟩
    · exact .inl (hmap (string?_move new) h1)
    · exact .inr ⟨hstring n1, .inl (hmap (rawString?_move new) h2)⟩
    · exact .inr ⟨hstring n1, .inr ⟨hs.raw n2, .inl (hmap (char?_move new) h3)⟩⟩
    · exact .inr ⟨hstring n1, .inr ⟨hs.raw n2, .inr ⟨hc n1 n2 n3,
        .inl (hmap (lifetime?_move h.akin fun he => hs.hash (.inr he)) h4)⟩⟩⟩
    · exact .inr ⟨hstring n1, .inr ⟨hs.raw n2, .inr ⟨hc n1 n2 n3, .inr ⟨hl n4,
        .inl (hmap (fun hn => number?_move h.akin (fun hall => hs.point (hwhole hn hall)) hn) h5)⟩⟩⟩⟩
    · exact .inr ⟨hstring n1, .inr ⟨hs.raw n2, .inr ⟨hc n1 n2 n3, .inr ⟨hl n4, .inr ⟨hn n5,
        .inl (hmap (name?_move h.akin fun he => hs.hash (.inl he)) h6)⟩⟩⟩⟩⟩
    · exact .inr ⟨hstring n1, .inr ⟨hs.raw n2, .inr ⟨hc n1 n2 n3, .inr ⟨hl n4, .inr ⟨hn n5,
        .inr ⟨hm n6, symbol?_move h.akin hs.colon hs.dots h7⟩⟩⟩⟩⟩⟩

/-- A token stays what it is when the text behind it changes, if it has not become a raw string. -/
theorem IsToken.move_of_raw {old new text : List Char} {cls : LexemeClass} (ht : IsToken cls text old)
    (h : Glance old new) (hr : rawString? (text ++ old) = none → rawString? (text ++ new) = none)
    (hcolon : text = [':'] → ∀ rest, new ≠ ':' :: rest)
    (hcomment : text = ['/'] → blockComment? (text ++ new) = none) : IsToken cls text new :=
  ht.stay h.preview (h.shared.spares hr hcolon hcomment)

/-- A token stays what it is when the text behind it changes. -/
theorem IsToken.move {old new text : List Char} {cls : LexemeClass} (ht : IsToken cls text old)
    (h : Lookahead old new) (hcolon : text = [':'] → ∀ rest, new ≠ ':' :: rest)
    (hcomment : text = ['/'] → blockComment? (text ++ new) = none) : IsToken cls text new :=
  ht.move_of_raw h.toGlance (rawString?_eq_none_move ht.token h) hcolon hcomment

/-- The first character of a gap begins no literal. -/
theorem Gap.head_ne {c : Char} {gap : List Char} (hg : Gap (c :: gap)) : c ≠ '\x22' ∧ c ≠ '\x27' := by
  cases hg with
  | blank hc _ => constructor <;> · rintro rfl; revert hc; decide
  | line | block => decide

namespace Preview

variable {old new : List Char}

/-- Where something new begins that hardly anything takes in, the old text does not matter. -/
theorem of_mild (h : Mild new) : Preview old new where
  akin := {
    first := fun c rest hn => .inl (h c rest hn)
    second := fun c d rest hn => .inl (List.mem_append_left _ (h c (d :: rest) hn)) }
  string rest hn := absurd (h _ rest hn) (by decide)
  char _ := by
    rcases new with _ | ⟨c, new⟩
    · rfl
    · exact plainChar?_of_ne new (by rintro rfl; exact absurd (h _ _ rfl) (by decide))

theorem gap_append {gap : List Char} (h : Preview old new) (hg : Gap gap) :
    Preview (gap ++ old) (gap ++ new) := by
  rcases gap with _ | ⟨c, gap⟩
  · exact h
  · obtain ⟨hq, ha⟩ := hg.head_ne
    exact {
      akin := h.akin.append _
      string := fun rest hn => absurd (List.cons.inj hn).1 hq
      char := fun _ => plainChar?_of_ne _ ha }

/-- What holds behind a token of the old text holds in front of it. Behind some tokens it need not. -/
theorem token_append {cls : LexemeClass} {text : List Char} (ht : IsToken cls text old)
    (h : Preview old new ∨
      (∀ rest, text ≠ '\x27' :: rest) ∧ ∀ c, text = [c] → c ∈ calmChars) :
    Preview (text ++ old) (text ++ new) where
  akin := by
    rcases h with h | ⟨-, hcalm⟩
    · exact h.akin.append text
    rcases text with _ | ⟨a, text⟩
    · exact absurd rfl ht.ne_nil
    refine ⟨fun c rest he => .inr ⟨text ++ old, ?_⟩, fun c d rest he => ?_⟩
    · rw [(List.cons.inj he).1]
      rfl
    · rcases text with _ | ⟨b, text⟩
      · exact .inl ((List.cons.inj he).1 ▸ hcalm a rfl)
      · simp only [List.cons_append, List.cons.injEq] at he
        obtain ⟨rfl, rfl, -⟩ := he
        exact .inr (.inr ⟨text ++ old, rfl⟩)
  string rest hn := by
    rcases text with _ | ⟨c, text⟩
    · exact absurd rfl ht.ne_nil
    obtain ⟨rfl, -⟩ := List.cons.inj hn
    intro hs
    have htok := ht.token
    rw [List.cons_append, token?_quote, ← List.cons_append, hs] at htok
    simp at htok
  char hp := by
    rcases text with _ | ⟨c, text⟩
    · exact absurd rfl ht.ne_nil
    by_cases hc : c = '\x27'
    · subst hc
      rcases h with h | ⟨hne, -⟩
      · exact char?_eq_none_move h ht.token (string?_of_ne _ (by decide) (by decide))
          (rawString?_of_ne _ (by decide) (by decide)) hp
      · exact absurd rfl (hne text)
    · exact plainChar?_of_ne _ hc

end Preview

namespace Glance

variable {old new : List Char}

/-- Where something new begins that nothing can take in, the old text does not matter. -/
theorem of_inert (hi : Inert new) : Glance old new where
  shared := .inert hi
  string := (Preview.of_mild hi.mild).string
  char := (Preview.of_mild hi.mild).char

/-- The first character of a gap begins no token. -/
theorem of_gap {c : Char} {gap : List Char} (hg : Gap (c :: gap)) (h : Shared old new) :
    Glance (c :: old) (c :: new) where
  shared := .cons h
  string _ hn := absurd (List.cons.inj hn).1 hg.head_ne.1
  char _ := plainChar?_of_ne _ hg.head_ne.2

theorem gap_append {gap : List Char} (h : Glance old new) (hg : Gap gap) :
    Glance (gap ++ old) (gap ++ new) := by
  rcases gap with _ | ⟨c, gap⟩
  · exact h
  · exact of_gap hg (h.shared.append gap)

/-- What holds behind a token of the old text holds in front of it. -/
theorem token_append {cls : LexemeClass} {text : List Char} (h : Glance old new)
    (ht : IsToken cls text old) : Glance (text ++ old) (text ++ new) where
  shared := h.shared.append _
  string := (Preview.token_append ht (.inl h.preview)).string
  char := (Preview.token_append ht (.inl h.preview)).char

end Glance

namespace Lookahead

variable {old new : List Char}

/-- Where something new begins that nothing can take in, the old text does not matter. -/
theorem of_inert (hi : Inert new) : Lookahead old new where
  toGlance := .of_inert hi
  raw hashes _ := by
    rcases new with _ | ⟨c, new⟩
    · rfl
    · have h1 : c ≠ '#' := by rintro rfl; exact absurd (hi _ _ rfl) (by decide)
      have h2 : c ≠ '\x22' := by rintro rfl; exact absurd (hi _ _ rfl) (by decide)
      simp [rawFrom?, h1, h2]

theorem gap_append {gap : List Char} (h : Lookahead old new) (ho : LeavesOpen old new)
    (hg : Gap gap) : Lookahead (gap ++ old) (gap ++ new) where
  toGlance := h.toGlance.gap_append hg
  raw := h.raw_append fun _ => ho

theorem token_append {cls : LexemeClass} {text : List Char} (h : Lookahead old new)
    (ho : LeavesOpen old new) (ht : IsToken cls text old) : Lookahead (text ++ old) (text ++ new) where
  toGlance := h.toGlance.token_append ht
  raw := h.raw_append fun _ => ho

end Lookahead

end InlineVariants.Lexeme
