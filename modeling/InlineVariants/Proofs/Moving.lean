import InlineVariants.Proofs.Skipping

/-!
# Recognisers in front of another text

Where a stretch of characters ends may depend on the text behind it. When the stretch is moved in
front of another text, its recogniser answers as before if the two texts begin alike, up to a
character that nothing can take in (`Shared`). Literals are closed by a character of their own and
need not even that. One symbol is an exception: a `:` grows with a `:` behind it.
-/

namespace InlineVariants.Lexeme

open Text

/-! ## Texts that begin alike -/

/-- The characters that no token in front of them takes in, a `:` in front of a `:` apart. -/
def inertChars : List Char :=
  [' ', '\n', '\t', '\r', ',', ';', '(', ')', '[', ']', ':', '!', '\x7b', '\x7d']

/-- A text that is empty or begins with an inert character. -/
def Inert (cs : List Char) : Prop := ∀ c rest, cs = c :: rest → c ∈ inertChars

/-- The second text begins as the first one does, until it ends or an inert character follows. -/
inductive Shared : List Char → List Char → Prop
  | inert {old new : List Char} : Inert new → Shared old new
  | cons {c : Char} {old new : List Char} : Shared old new → Shared (c :: old) (c :: new)

namespace Shared

variable {old new text : List Char} {p : Char → Bool}

theorem append (text : List Char) (h : Shared old new) : Shared (text ++ old) (text ++ new) := by
  induction text with
  | nil => exact h
  | cons c text ih => exact .cons ih

theorem cons_inv {c : Char} (h : Shared old (c :: new)) :
    c ∈ inertChars ∨ ∃ old', old = c :: old' ∧ Shared old' new := by
  cases h with
  | inert h => exact .inl (h c new rfl)
  | @cons _ old' _ h => exact .inr ⟨old', rfl, h⟩

theorem cons_of_not_inert {c : Char} (h : Shared old (c :: new)) (hc : c ∉ inertChars) :
    ∃ old', old = c :: old' ∧ Shared old' new := h.cons_inv.resolve_left hc

end Shared

/-! ## Texts that look alike -/

/-- The characters that no token in front of them takes in, but a `:`, a `.`, a `..` or a number made
of digits. -/
def mildChars : List Char := inertChars ++ ['.', '?']

/-- The characters behind which no token looks, but an `r` behind `#` and a number behind `.`. -/
def calmChars : List Char := mildChars ++ ['#', '$', '&']

theorem forall_mild {p : Char → Bool} (h : mildChars.any p = false) :
    ∀ c ∈ mildChars, p c = false := by
  simpa using h

theorem mild_of_inert {c : Char} (h : c ∈ inertChars) : c ∈ mildChars := List.mem_append_left _ h

/-- A text that is empty or begins with a mild character. -/
def Mild (cs : List Char) : Prop := ∀ c rest, cs = c :: rest → c ∈ mildChars

theorem Inert.mild {cs : List Char} (h : Inert cs) : Mild cs :=
  fun c rest he => mild_of_inert (h c rest he)

/-- What a token sees of the second text, it could see of the first one. -/
structure Akin (old new : List Char) : Prop where
  first : ∀ c rest, new = c :: rest → c ∈ mildChars ∨ ∃ rest', old = c :: rest'
  second : ∀ c d rest, new = c :: d :: rest →
    c ∈ calmChars ∨ d ∈ mildChars ∨ ∃ rest', old = c :: d :: rest'

theorem Shared.akin {old new : List Char} (h : Shared old new) : Akin old new where
  first := by
    rintro c rest rfl
    rcases h.cons_inv with hc | ⟨old', rfl, -⟩
    · exact .inl (mild_of_inert hc)
    · exact .inr ⟨old', rfl⟩
  second := by
    rintro c d rest rfl
    rcases h.cons_inv with hc | ⟨old', rfl, h'⟩
    · exact .inl (List.mem_append_left _ (mild_of_inert hc))
    rcases h'.cons_inv with hd | ⟨old'', rfl, -⟩
    · exact .inr (.inl (mild_of_inert hd))
    · exact .inr (.inr ⟨old'', rfl⟩)

namespace Akin

variable {old new text : List Char} {p : Char → Bool}

theorem cons_of_not_mild {c : Char} (h : Akin old (c :: new)) (hc : c ∉ mildChars) :
    ∃ old', old = c :: old' := (h.first c new rfl).resolve_left hc

theorem cons_cons {c d : Char} (h : Akin old (c :: d :: new)) (hc : c ∉ calmChars)
    (hd : d ∉ mildChars) : ∃ old', old = c :: d :: old' :=
  ((h.second c d new rfl).resolve_left hc).resolve_left hd

theorem append (text : List Char) (h : Akin old new) : Akin (text ++ old) (text ++ new) := by
  rcases text with _ | ⟨a, text⟩
  · exact h
  refine ⟨fun c rest he => .inr ⟨text ++ old, ?_⟩, fun c d rest he => ?_⟩
  · rw [(List.cons.inj he).1]
    rfl
  rcases text with _ | ⟨b, text⟩
  · obtain ⟨rfl, rfl⟩ := List.cons.inj he
    rcases h.first d rest rfl with hd | ⟨old', rfl⟩
    · exact .inr (.inl hd)
    · exact .inr (.inr ⟨old', rfl⟩)
  · simp only [List.cons_append, List.cons.injEq] at he
    obtain ⟨rfl, rfl, -⟩ := he
    exact .inr (.inr ⟨text ++ old, rfl⟩)

theorem takeWhile_eq_nil (h : Akin old new) (hp : ∀ c ∈ mildChars, p c = false)
    (ho : old.takeWhile p = []) : new.takeWhile p = [] := by
  cases new with
  | nil => rfl
  | cons c new =>
    rcases h.first c new rfl with hc | ⟨old', rfl⟩
    · simp [hp c hc]
    · cases hc : p c <;> simp [hc] at ho ⊢

/-- A run of characters that ends in the text, or with it, does not go on in the new one. -/
theorem takeWhile_append (h : Akin old new) (hp : ∀ c ∈ mildChars, p c = false)
    (hle : ((text ++ old).takeWhile p).length ≤ text.length) :
    (text ++ new).takeWhile p = (text ++ old).takeWhile p := by
  induction text with
  | nil =>
    have ho : old.takeWhile p = [] := by simpa using hle
    simp [ho, h.takeWhile_eq_nil hp ho]
  | cons c text ih =>
    cases hc : p c with
    | false => simp [hc]
    | true =>
      simp only [List.cons_append, List.takeWhile_cons_of_pos hc, List.length_cons,
        Nat.add_le_add_iff_right] at hle ⊢
      rw [ih hle]

end Akin

/-! ## Names -/

theorem isNameChar_mild : ∀ c ∈ mildChars, isNameChar c = false :=
  forall_mild (by decide)

theorem isNameStart_mild : ∀ c ∈ mildChars, isNameStart c = false :=
  forall_mild (by decide)

theorem name?_raw (cs : List Char) :
    name? ('r' :: '#' :: cs) = ((plainName? cs).map (· + 2)).or (some 1) := by
  simp [name?, plainName?, show isNameStart 'r' = true by decide,
    show isNameChar '#' = false by decide]

theorem name?_of_ne {cs : List Char} (h : ∀ rest, cs ≠ 'r' :: '#' :: rest) :
    name? cs = plainName? cs := by
  unfold name?
  split
  · exact absurd rfl (h _)
  · rfl

theorem name?_r (cs : List Char) (h : ∀ rest, cs ≠ '#' :: rest) :
    name? ('r' :: cs) = some ((cs.takeWhile isNameChar).length + 1) := by
  rw [name?_of_ne (by simpa using h)]
  simp [plainName?, show isNameStart 'r' = true by decide]

section

variable {old new text : List Char} (h : Akin old new)
include h

theorem plainName?_move (ht : plainName? (text ++ old) = some text.length) :
    plainName? (text ++ new) = some text.length := by
  cases text with
  | nil => exact absurd (plainName?_fits ht).1 (by simp)
  | cons c text =>
    simp only [List.cons_append, plainName?] at ht ⊢
    split at ht
    · rename_i hc
      simp only [Option.some.injEq, List.length_cons, Nat.add_right_cancel_iff] at ht
      rw [if_pos hc, h.takeWhile_append isNameChar_mild ht.le, ht, List.length_cons]
    · simp at ht

/-- A name that is not raw may still have `#` behind it, but no name behind that. -/
theorem name?_move (hhash : text = ['r'] → ∀ c rest, new = '#' :: c :: rest → isNameStart c = true →
      ∃ rest', old = '#' :: c :: rest')
    (ht : name? (text ++ old) = some text.length) : name? (text ++ new) = some text.length := by
  by_cases hraw : ∃ more, text = 'r' :: '#' :: more
  · obtain ⟨text, rfl⟩ := hraw
    simp only [List.cons_append, name?_raw] at ht ⊢
    cases hp : plainName? (text ++ old) with
    | none => simp [hp] at ht
    | some n =>
      have hn : n = text.length := by simpa [hp] using ht
      rw [plainName?_move h (hn ▸ hp)]
      rfl
  by_cases hr : text = ['r']
  · subst hr
    rw [List.singleton_append] at ht ⊢
    by_cases hn : ∃ new', new = '#' :: new'
    · obtain ⟨new', rfl⟩ := hn
      have hplain : plainName? new' = none := by
        rcases new' with _ | ⟨c, new'⟩
        · rfl
        by_cases hc : isNameStart c = true
        · obtain ⟨old', rfl⟩ := hhash rfl c new' rfl hc
          simp [name?_raw, plainName?, hc] at ht
        · simp [plainName?, hc]
      rw [name?_raw, hplain]
      rfl
    · have ho : old.takeWhile isNameChar = [] := by
        by_cases ho : ∃ old', old = '#' :: old'
        · obtain ⟨old', rfl⟩ := ho
          simp [show isNameChar '#' = false by decide]
        · rw [name?_r old (by simpa using ho)] at ht
          simpa using ht
      rw [name?_r new (by simpa using hn), h.takeWhile_eq_nil isNameChar_mild ho]
      rfl
  · have hne (more rest : List Char) : text ++ more ≠ 'r' :: '#' :: rest := by
      rcases text with _ | ⟨c, _ | ⟨d, text⟩⟩
      · exact absurd (name?_fits ht).1 (by simp)
      · simp_all
      · simp_all
    rw [name?_of_ne (hne old)] at ht
    rw [name?_of_ne (hne new)]
    exact plainName?_move h ht

theorem lifetime?_move (hhash : text = ['\x27', 'r'] → ∀ c rest, new = '#' :: c :: rest →
      isNameStart c = true → ∃ rest', old = '#' :: c :: rest')
    (ht : lifetime? (text ++ old) = some text.length) :
    lifetime? (text ++ new) = some text.length := by
  cases text with
  | nil => exact absurd (lifetime?_fits ht).1 (by simp)
  | cons c text =>
    by_cases hc : c = '\x27'
    · subst hc
      simp only [List.cons_append, lifetime?, Option.map_eq_some_iff, List.length_cons,
        Nat.add_right_cancel_iff, exists_eq_right] at ht ⊢
      exact name?_move h (fun hr => hhash (by rw [hr])) ht
    · simp [lifetime?, hc] at ht

end

/-! ## Literals that are closed

A closed literal is decided by its own characters, so any text may follow. -/

section

variable {old text : List Char} {n : Nat} (new : List Char)

theorem stringRest?_move (hle : n ≤ text.length) (h : stringRest? (text ++ old) = some n) :
    stringRest? (text ++ new) = some n := by
  fun_induction stringRest? text generalizing n with
  | case1 =>
    have := (stringRest?_fits h).1
    simp at hle; omega
  | case2 =>
    cases old with
    | nil => simp [stringRest?] at h
    | cons c old =>
      obtain ⟨m, -, rfl⟩ := Option.map_eq_some_iff.1 h
      simp at hle
  | case3 c cs ih =>
    obtain ⟨m, hm, rfl⟩ := Option.map_eq_some_iff.1 h
    simp [stringRest?, ih (by simp at hle; omega) hm]
  | case4 => exact h
  | case5 c cs h1 h2 h3 ih =>
    have hc : c ≠ '\\' := by
      rintro rfl
      cases cs with
      | nil => exact h1 rfl rfl
      | cons d cs => exact h2 d cs rfl rfl
    have hstep (more : List Char) :
        stringRest? (c :: (cs ++ more)) = (stringRest? (cs ++ more)).map (· + 1) :=
      stringRest?.eq_5 c (cs ++ more) (by simp [hc]) (by simp [hc]) h3
    rw [List.cons_append, hstep] at h ⊢
    obtain ⟨m, hm, rfl⟩ := Option.map_eq_some_iff.1 h
    rw [ih (by simp at hle; omega) hm]
    rfl

theorem string?_move (h : string? (text ++ old) = some text.length) :
    string? (text ++ new) = some text.length := by
  unfold string? at h
  split at h
  · rename_i cs he
    obtain ⟨m, hm, hn⟩ := Option.map_eq_some_iff.1 h
    cases text with
    | nil => simp at hn
    | cons c text =>
      obtain ⟨rfl, rfl⟩ := List.cons.inj he
      obtain rfl : m = text.length := by simpa using hn
      simp [string?, stringRest?_move new le_rfl hm]
  · rename_i cs he
    obtain ⟨m, hm, hn⟩ := Option.map_eq_some_iff.1 h
    rcases text with _ | ⟨c, _ | ⟨d, text⟩⟩
    · simp at hn
    · simp at hn
    · simp only [List.cons_append, List.cons.injEq] at he
      obtain ⟨rfl, rfl, rfl⟩ := he
      obtain rfl : m = text.length := by simpa using hn
      simp [string?, stringRest?_move new le_rfl hm]
  · simp at h

theorem rawRest?_hashes {hashes : Nat} {cs : List Char} (h : rawRest? hashes cs = some n) :
    hashes < n := by
  fun_induction rawRest? hashes cs generalizing n with
  | case1 => simp at h
  | case2 c cs hc =>
    obtain rfl := Option.some.inj h
    omega
  | case3 c cs hc ih =>
    obtain ⟨m, hm, rfl⟩ := Option.map_eq_some_iff.1 h
    exact (ih hm).trans (Nat.lt_succ_self m)

theorem rawRest?_move {hashes : Nat} (hle : n ≤ text.length)
    (h : rawRest? hashes (text ++ old) = some n) : rawRest? hashes (text ++ new) = some n := by
  induction text generalizing n with
  | nil => exact absurd (rawRest?_hashes h) (by simp at hle; omega)
  | cons c text ih =>
    have hlen : hashes ≤ text.length := by
      have := rawRest?_hashes h
      simp at hle; omega
    rw [List.cons_append, rawRest?, List.take_append_of_le_length hlen] at h ⊢
    split at h
    · rename_i hq
      rw [if_pos hq, h]
    · rename_i hq
      obtain ⟨m, hm, rfl⟩ := Option.map_eq_some_iff.1 h
      rw [if_neg hq, ih (by simpa using hle) hm]
      rfl

/-- The length of what follows the `r` of a raw string and some hashes, character by character. -/
def rawFrom? (hashes : Nat) : List Char → Option Nat
  | '#' :: cs => (rawFrom? (hashes + 1) cs).map (· + 1)
  | '\x22' :: cs => if hashes ≤ maxHashes then (rawRest? hashes cs).map (· + 1) else none
  | _ => none

theorem rawFrom?_eq (hashes : Nat) (cs : List Char) :
    rawFrom? hashes cs =
      let count := (cs.takeWhile (· == '#')).length
      match cs.drop count with
      | '\x22' :: rest => if hashes + count ≤ maxHashes then
          (rawRest? (hashes + count) rest).map (· + (count + 1)) else none
      | _ => none := by
  induction cs generalizing hashes with
  | nil => rfl
  | cons c cs ih =>
    by_cases hc : c = '#'
    · subst hc
      have hrun : ('#' :: cs).takeWhile (· == '#') = '#' :: cs.takeWhile (· == '#') := by simp
      rw [rawFrom?, ih, hrun]
      simp only [List.length_cons, List.drop_succ_cons]
      generalize (cs.takeWhile (· == '#')).length = count
      rw [Nat.add_right_comm hashes 1 count, Nat.add_assoc hashes count 1]
      rcases cs.drop count with _ | ⟨d, rest⟩
      · rfl
      by_cases hd : d = '\x22'
      · subst hd
        by_cases hmax : hashes + (count + 1) ≤ maxHashes
        · simp [hmax, Option.map_map, Function.comp_def, Nat.add_assoc]
        · simp [hmax]
      · simp [hd]
    · have hrun : (c :: cs).takeWhile (· == '#') = [] := by simp [hc]
      rw [hrun]
      simp only [List.length_nil, List.drop_zero]
      by_cases hq : c = '\x22'
      · subst hq
        rfl
      · simp [rawFrom?, hc, hq]

theorem rawBody?_eq (cs : List Char) : rawBody? cs = rawFrom? 0 cs := by
  rw [rawFrom?_eq]
  simp only [Nat.zero_add]
  rfl

theorem rawFrom?_pos {hashes : Nat} {cs : List Char} (h : rawFrom? hashes cs = some n) : 0 < n := by
  unfold rawFrom? at h
  split at h
  · obtain ⟨m, -, rfl⟩ := Option.map_eq_some_iff.1 h
    exact m.succ_pos
  · split at h
    · obtain ⟨m, -, rfl⟩ := Option.map_eq_some_iff.1 h
      exact m.succ_pos
    · simp at h
  · simp at h

theorem rawFrom?_move {hashes : Nat} (hle : n ≤ text.length)
    (h : rawFrom? hashes (text ++ old) = some n) : rawFrom? hashes (text ++ new) = some n := by
  induction text generalizing hashes n with
  | nil => exact absurd (rawFrom?_pos h) (by simp at hle; omega)
  | cons c text ih =>
    by_cases hc : c = '#'
    · subst hc
      obtain ⟨m, hm, rfl⟩ := Option.map_eq_some_iff.1 h
      simp [rawFrom?, ih (by simpa using hle) hm]
    by_cases hq : c = '\x22'
    · subst hq
      rw [List.cons_append, rawFrom?] at h ⊢
      split at h
      · rename_i hmax
        obtain ⟨m, hm, rfl⟩ := Option.map_eq_some_iff.1 h
        rw [if_pos hmax, rawRest?_move new (by simpa using hle) hm]
        rfl
      · simp at h
    · simp [rawFrom?, hc, hq] at h

theorem rawFrom?_eq_none {text : List Char} (hq : '\x22' ∉ text) (hne : ∃ c ∈ text, c ≠ '#')
    (hashes : Nat) (rest : List Char) : rawFrom? hashes (text ++ rest) = none := by
  induction text generalizing hashes with
  | nil =>
    obtain ⟨c, hc, -⟩ := hne
    cases hc
  | cons c text ih =>
    have hquote : c ≠ '\x22' := fun h => hq (by simp [h])
    by_cases hc : c = '#'
    · subst hc
      obtain ⟨d, hd, hne⟩ := hne
      rcases List.mem_cons.1 hd with rfl | hd
      · exact absurd rfl hne
      · rw [List.cons_append, rawFrom?, ih (fun h => hq (by simp [h])) ⟨d, hd, hne⟩]
        rfl
    · simp [rawFrom?, hc, hquote]

theorem rawString?_move (h : rawString? (text ++ old) = some text.length) :
    rawString? (text ++ new) = some text.length := by
  unfold rawString? at h
  split at h
  · rename_i cs he
    obtain ⟨m, hm, hn⟩ := Option.map_eq_some_iff.1 h
    rcases text with _ | ⟨c, text⟩
    · simp at hn
    · simp only [List.cons_append, List.cons.injEq] at he
      obtain ⟨rfl, rfl⟩ := he
      rw [rawBody?_eq] at hm
      simpa [rawString?, rawBody?_eq, rawFrom?_move new (by simp at hn; omega) hm] using hn
  · rename_i cs he
    obtain ⟨m, hm, hn⟩ := Option.map_eq_some_iff.1 h
    rcases text with _ | ⟨c, _ | ⟨d, text⟩⟩
    · simp at hn
    · simp at hn
    · simp only [List.cons_append, List.cons.injEq] at he
      obtain ⟨rfl, rfl, rfl⟩ := he
      rw [rawBody?_eq] at hm
      simpa [rawString?, rawBody?_eq, rawFrom?_move new (by simp at hn; omega) hm] using hn
  · simp at h

theorem takeWhile_append_move {p : Char → Bool}
    (h : ((text ++ old).takeWhile p).length < text.length) :
    (text ++ new).takeWhile p = (text ++ old).takeWhile p := by
  induction text with
  | nil => simp at h
  | cons c text ih =>
    cases hc : p c with
    | false => simp [hc]
    | true =>
      simp only [List.cons_append, List.takeWhile_cons_of_pos hc, List.length_cons,
        Nat.add_lt_add_iff_right] at h ⊢
      rw [ih h]

theorem escape?_simple {c : Char} (cs : List Char) (hc : isSimpleEscape c = true) :
    escape? (c :: cs) = some 1 := by
  have hx : c ≠ 'x' := by rintro rfl; revert hc; decide
  have hu : c ≠ 'u' := by rintro rfl; revert hc; decide
  rw [escape?.eq_3 c cs (by simp [hx]) (by simp [hu]), if_pos hc]

theorem escape?_move (hle : n ≤ text.length) (h : escape? (text ++ old) = some n) :
    escape? (text ++ new) = some n := by
  unfold escape? at h
  split at h
  · rename_i a b cs he
    split at h
    · rename_i hab
      obtain rfl := Option.some.inj h
      obtain ⟨c₁, c₂, c₃, text, rfl⟩ : ∃ c₁ c₂ c₃ more, text = c₁ :: c₂ :: c₃ :: more := by
        match text, hle with
        | c₁ :: c₂ :: c₃ :: more, _ => exact ⟨c₁, c₂, c₃, more, rfl⟩
      simp only [List.cons_append, List.cons.injEq] at he
      obtain ⟨rfl, rfl, rfl, -⟩ := he
      simp [escape?, hab]
    · simp at h
  · rename_i cs he
    simp only at h
    split at h
    · rename_i hd
      obtain rfl := Option.some.inj h
      obtain ⟨c₁, c₂, text, rfl⟩ : ∃ c₁ c₂ more, text = c₁ :: c₂ :: more := by
        match text, hle with
        | c₁ :: c₂ :: more, _ => exact ⟨c₁, c₂, more, rfl⟩
      simp only [List.cons_append, List.cons.injEq] at he
      obtain ⟨rfl, rfl, rfl⟩ := he
      have hlt : ((text ++ old).takeWhile fun c => isHexDigit c || c == '_').length < text.length := by
        simp at hle; omega
      have hhead (more : List Char) : ((text ++ more).drop
          ((text ++ old).takeWhile fun c => isHexDigit c || c == '_').length).head? =
          text[((text ++ old).takeWhile fun c => isHexDigit c || c == '_').length]? := by
        rw [List.head?_drop, List.getElem?_append_left hlt]
      rw [hhead] at hd
      simp only [List.cons_append, escape?, takeWhile_append_move new hlt, hhead, hd, if_true]
    · simp at h
  · rename_i c cs _ _ he
    split at h
    · rename_i hc
      obtain rfl := Option.some.inj h
      obtain ⟨c', text, rfl⟩ := List.exists_cons_of_length_pos hle
      simp only [List.cons_append, List.cons.injEq] at he
      obtain ⟨rfl, -⟩ := he
      exact escape?_simple _ hc
    · simp at h
  · simp at h

theorem charBody?_move (hle : n ≤ text.length) (h : charBody? (text ++ old) = some n) :
    charBody? (text ++ new) = some n := by
  cases text with
  | nil => exact absurd (charBody?_fits h).1 (by simp at hle; omega)
  | cons c text =>
    by_cases hc : c = '\\'
    · subst hc
      obtain ⟨m, hm, rfl⟩ := Option.map_eq_some_iff.1 h
      simp [charBody?, escape?_move new (by simpa using hle) hm]
    · simpa [charBody?, hc] using h

theorem plainChar?_move (hle : n ≤ text.length) (h : plainChar? (text ++ old) = some n) :
    plainChar? (text ++ new) = some n := by
  unfold plainChar? at h
  split at h
  · rename_i cs he
    split at h
    · rename_i m hm
      split at h
      · rename_i hq
        obtain rfl := Option.some.inj h
        obtain ⟨c, text, rfl⟩ := List.exists_cons_of_length_pos (Nat.lt_of_lt_of_le (by simp) hle)
        simp only [List.cons_append, List.cons.injEq] at he
        obtain ⟨rfl, rfl⟩ := he
        have hlt : m < text.length := by simp at hle; omega
        have hhead (more : List Char) : ((text ++ more).drop m).head? = text[m]? := by
          rw [List.head?_drop, List.getElem?_append_left hlt]
        rw [hhead] at hq
        simp [plainChar?, charBody?_move new hlt.le hm, hhead, hq]
      · simp at h
    · simp at h
  · simp at h

theorem char?_move (h : char? (text ++ old) = some text.length) :
    char? (text ++ new) = some text.length := by
  cases text with
  | nil => exact absurd (char?_fits h).1 (by simp)
  | cons c text =>
    by_cases hc : c = 'b'
    · subst hc
      obtain ⟨m, hm, hn⟩ := Option.map_eq_some_iff.1 h
      obtain rfl : m = text.length := by simpa using hn
      simp [char?, plainChar?_move new le_rfl hm]
    · have hplain (more : List Char) : char? (c :: text ++ more) = plainChar? (c :: text ++ more) := by
        simp [char?, hc]
      rw [hplain] at h ⊢
      exact plainChar?_move new le_rfl h

end

/-! ## Numbers -/

theorem isDigit_mild : ∀ c ∈ mildChars, isDigit c = false :=
  forall_mild (by decide)

theorem isDigitOrMark_mild : ∀ c ∈ mildChars, isDigitOrMark c = false :=
  forall_mild (by decide)

theorem isSuffixStart_mild : ∀ c ∈ mildChars, isSuffixStart c = false :=
  forall_mild (by decide)

theorem suffixRun_mild : ∀ c ∈ mildChars, (isSuffixStart c || isDigit c) = false :=
  forall_mild (by decide)

theorem baseDigit?_mild {b : Char} {isBaseDigit : Char → Bool}
    (h : baseDigit? b = some isBaseDigit) : ∀ c ∈ mildChars, isBaseDigit c = false := by
  unfold baseDigit? at h
  split at h
  · obtain rfl := Option.some.inj h; exact forall_mild (by decide)
  · obtain rfl := Option.some.inj h; exact forall_mild (by decide)
  · obtain rfl := Option.some.inj h; exact forall_mild (by decide)
  · simp at h

/-- A base is told by a letter. -/
theorem isSuffixStart_of_baseDigit? {b : Char} {isBaseDigit : Char → Bool}
    (h : baseDigit? b = some isBaseDigit) : isSuffixStart b = true := by
  unfold baseDigit? at h
  split at h
  · decide
  · decide
  · decide
  · simp at h

theorem not_of_length_takeWhile {p : Char → Bool} {c : Char} {text rest : List Char}
    (h : ((text ++ c :: rest).takeWhile p).length = text.length) : p c = false := by
  induction text with
  | nil => cases hc : p c <;> simp [hc] at h ⊢
  | cons a text ih => cases ha : p a <;> simp [ha] at h; exact ih h

section

variable {old new text : List Char} (h : Akin old new)
include h

theorem suffixLength_move (ht : suffixLength (text ++ old) = text.length) :
    suffixLength (text ++ new) = text.length := by
  cases text with
  | nil =>
    cases new with
    | nil => rfl
    | cons c new =>
      rcases h.first c new rfl with hc | ⟨old', rfl⟩
      · simp [suffixLength, isSuffixStart_mild c hc]
      · by_cases hc : isSuffixStart c = true <;> simp [suffixLength, hc] at ht ⊢
  | cons c text =>
    by_cases hc : isSuffixStart c = true
    · simp only [List.cons_append, suffixLength, hc, if_true, List.length_cons,
        Nat.add_right_cancel_iff] at ht ⊢
      rw [h.takeWhile_append suffixRun_mild ht.le, ht]
    · simp [suffixLength, hc] at ht

/-- Behind a number no letter follows that would be its suffix. -/
theorem not_isSuffixStart (ht : suffixLength (text ++ old) = text.length) (c : Char)
    (rest : List Char) (hn : new = c :: rest) : isSuffixStart c = false := by
  rcases h.first c rest hn with hc | ⟨old', rfl⟩
  · exact isSuffixStart_mild c hc
  rcases text with _ | ⟨a, text⟩
  · by_contra hc
    simp [suffixLength, hc] at ht
  · by_cases ha : isSuffixStart a = true
    · have hlen : ((text ++ c :: old').takeWhile fun d => isSuffixStart d || isDigit d).length =
          text.length := by simpa [suffixLength, ha] using ht
      exact (Bool.or_eq_false_iff.1 (not_of_length_takeWhile hlen)).1
    · simp [suffixLength, ha] at ht

/-- A point with a digit behind it is seen only where there was one. -/
theorem point_append (hpoint : text = [] → ∀ d rest, new = '.' :: d :: rest → isDigit d = true →
      ∃ rest', old = '.' :: d :: rest') (d : Char) (rest : List Char)
    (hn : text ++ new = '.' :: d :: rest) (hd : isDigit d = true) :
    ∃ rest', text ++ old = '.' :: d :: rest' := by
  rcases text with _ | ⟨a, _ | ⟨b, text⟩⟩
  · exact hpoint rfl d rest hn hd
  · obtain ⟨rfl, rfl⟩ := List.cons.inj hn
    obtain ⟨old', rfl⟩ := h.cons_of_not_mild fun hm => by simp [isDigit_mild d hm] at hd
    exact ⟨old', rfl⟩
  · simp only [List.cons_append, List.cons.injEq] at hn
    obtain ⟨rfl, rfl, -⟩ := hn
    exact ⟨text ++ old, rfl⟩

theorem fractionLength_move (hpoint : text = [] → ∀ d rest, new = '.' :: d :: rest →
      isDigit d = true → ∃ rest', old = '.' :: d :: rest')
    (hle : fractionLength (text ++ old) ≤ text.length) :
    fractionLength (text ++ new) = fractionLength (text ++ old) := by
  by_cases ho : fractionLength (text ++ old) = 0
  · rw [ho]
    unfold fractionLength
    split
    · rename_i d new' hn
      split
      · rename_i hd
        obtain ⟨old', he⟩ := point_append h hpoint d new' hn hd
        simp [he, fractionLength, hd] at ho
      · rfl
    · rfl
  match text with
  | [] => exact absurd (by simpa using hle) ho
  | [c] => exact absurd (by revert hle; unfold fractionLength; grind) ho
  | c :: d :: text =>
    by_cases hc : c = '.'
    · subst hc
      by_cases hd : isDigit d = true
      · simp only [List.cons_append, fractionLength, hd, if_true, List.length_cons,
          Nat.add_le_add_iff_right] at hle ⊢
        rw [h.takeWhile_append isDigitOrMark_mild hle]
      · simp [fractionLength, hd]
    · simp [fractionLength, hc]

/-- Where no digits stand behind the sign of an exponent, none come there. -/
theorem exponentDigits_eq_nil_move
    (ho : (old.drop (signLength old)).takeWhile isDigitOrMark = []) :
    (new.drop (signLength new)).takeWhile isDigitOrMark = [] := by
  cases new with
  | nil => rfl
  | cons c new =>
    by_cases hs : c = '+' ∨ c = '-'
    · have hsign (more : List Char) : signLength (c :: more) = 1 := by
        rcases hs with rfl | rfl <;> rfl
      rw [hsign]
      rcases new with _ | ⟨d, new⟩
      · rfl
      by_cases hd : isDigitOrMark d = true
      · obtain ⟨old', rfl⟩ := h.cons_cons (by rcases hs with rfl | rfl <;> decide)
          fun hm => by simp [isDigitOrMark_mild d hm] at hd
        simp [hsign, hd] at ho
      · simp [hd]
    · have hsign (more : List Char) : signLength (c :: more) = 0 := by
        simp only [not_or] at hs
        simp [signLength, hs.1, hs.2]
      rw [hsign, List.drop_zero]
      rcases h.first c new rfl with hc | ⟨old', rfl⟩
      · simp [isDigitOrMark_mild c hc]
      · rw [hsign, List.drop_zero] at ho
        cases hc : isDigitOrMark c <;> simp [hc] at ho ⊢

theorem exponentLength_move (hhead : ∀ c rest, new = c :: rest → isSuffixStart c = false)
    (hle : exponentLength (text ++ old) ≤ text.length) :
    exponentLength (text ++ new) = exponentLength (text ++ old) := by
  rcases text with _ | ⟨c, text⟩
  -- the `e` of an exponent would have been taken as a suffix
  · have ho : exponentLength old = 0 := by simpa using hle
    rw [List.nil_append, List.nil_append, ho]
    rcases new with _ | ⟨c, new⟩
    · rfl
    have hc := hhead c new rfl
    rw [exponentLength, if_neg]
    rintro he
    rcases (by simpa using he : c = 'e' ∨ c = 'E') with rfl | rfl <;> revert hc <;> decide
  by_cases hc : (c == 'e' || c == 'E') = true
  · simp only [List.cons_append, exponentLength, hc, if_true] at hle ⊢
    by_cases hd : ((text ++ old).drop (signLength (text ++ old))).takeWhile isDigitOrMark = []
    · rw [hd, exponentDigits_eq_nil_move (h.append text) hd]
    have hpos := List.length_pos_iff.2 hd
    have hlen : (((text ++ old).drop (signLength (text ++ old))).takeWhile isDigitOrMark).length +
        signLength (text ++ old) + 1 ≤ text.length + 1 := by
      split at hle
      · rename_i hnil
        exact absurd hnil hd
      · exact hle
    rcases text with _ | ⟨d, text⟩
    -- the digits are behind the sign, and the text has room for neither
    · simp only [List.length_nil] at hlen
      omega
    · have hsign (more : List Char) : signLength (d :: more) = signLength [d] := by
        unfold signLength; split <;> simp_all
      have hone : signLength [d] ≤ 1 := by unfold signLength; split <;> omega
      have hdrop (more : List Char) :
          (d :: (text ++ more)).drop (signLength [d]) = (d :: text).drop (signLength [d]) ++ more := by
        rw [← List.cons_append, List.drop_append_of_le_length (by simp; omega)]
      simp only [List.cons_append, hsign, hdrop] at hlen ⊢
      have hrun : ((d :: text).drop (signLength [d]) ++ new).takeWhile isDigitOrMark =
          ((d :: text).drop (signLength [d]) ++ old).takeWhile isDigitOrMark := by
        refine h.takeWhile_append isDigitOrMark_mild ?_
        simp only [List.length_cons, List.length_drop] at hlen ⊢
        omega
      rw [hrun]
  · simp [exponentLength, hc]

theorem decimalNumber?_move {n : Nat} (hle : n ≤ text.length)
    (hhead : ∀ c rest, new = c :: rest → isSuffixStart c = false)
    (hpoint : (∀ c ∈ text, isDigitOrMark c = true) → ∀ d rest, new = '.' :: d :: rest →
      isDigit d = true → ∃ rest', old = '.' :: d :: rest')
    (ht : decimalNumber? (text ++ old) = some n) : decimalNumber? (text ++ new) = some n := by
  rcases text with _ | ⟨c, text⟩
  · exact absurd (decimalNumber?_fits ht).1 (by simp at hle; omega)
  by_cases hc : isDigit c = true
  · simp only [List.cons_append, decimalNumber?, hc, if_true, Option.some.injEq] at ht ⊢
    set whole := ((text ++ old).takeWhile isDigitOrMark).length with hwhole
    have hw : whole ≤ text.length := by simp only [List.length_cons] at hle; omega
    have hdrop (more : List Char) : (text ++ more).drop whole = text.drop whole ++ more :=
      List.drop_append_of_le_length hw
    have hdigits (hnil : text.drop whole = []) : ∀ d ∈ c :: text, isDigitOrMark d = true := by
      have hrun : (text ++ old).takeWhile isDigitOrMark = text := by
        have hlen : whole = text.length := by
          have := List.drop_eq_nil_iff.1 hnil
          omega
        rw [List.prefix_iff_eq_take.1 (List.takeWhile_prefix isDigitOrMark), ← hwhole, hlen,
          List.take_left]
      intro d hd
      rcases List.mem_cons.1 hd with rfl | hd
      · simp [isDigitOrMark, hc]
      · exact List.mem_takeWhile_imp (hrun ▸ hd)
    rw [h.takeWhile_append isDigitOrMark_mild hw, ← hwhole]
    rw [hdrop] at ht ⊢
    set fraction := fractionLength (text.drop whole ++ old) with hfraction
    have hf : fraction ≤ (text.drop whole).length := by
      simp only [List.length_cons, List.length_drop] at hle ⊢; omega
    rw [fractionLength_move h (fun hnil => hpoint (hdigits hnil)) hf, ← hfraction]
    rw [List.drop_append_of_le_length hf] at ht ⊢
    rw [exponentLength_move h hhead, ht]
    simp only [List.length_cons, List.length_drop] at hle ⊢
    omega
  · simp [decimalNumber?, hc] at ht

theorem basedNumber?_eq_none_move (hne : text ≠ [])
    (hhead : ∀ c rest, new = c :: rest → isSuffixStart c = false)
    (ho : basedNumber? (text ++ old) = none) : basedNumber? (text ++ new) = none := by
  rcases text with _ | ⟨a, _ | ⟨b, text⟩⟩
  · exact absurd rfl hne
  · unfold basedNumber?
    split
    · rename_i b cs he
      split
      · rename_i isBaseDigit hb
        have hsuffix := isSuffixStart_of_baseDigit? hb
        rw [hhead b cs (List.cons.inj he).2] at hsuffix
        cases hsuffix
      · rfl
    · rfl
  · by_cases ha : a = '0'
    · subst ha
      simp only [List.cons_append, basedNumber?] at ho ⊢
      cases hb : baseDigit? b with
      | none => rfl
      | some isBaseDigit =>
        simp only [hb] at ho
        have hd : (text ++ old).takeWhile isBaseDigit = [] := by
          split at ho
          · assumption
          · simp at ho
        simp [(h.append text).takeWhile_eq_nil (baseDigit?_mild hb) hd]
    · simp [basedNumber?, ha]

theorem basedNumber?_move {n : Nat} (hle : n ≤ text.length)
    (ht : basedNumber? (text ++ old) = some n) : basedNumber? (text ++ new) = some n := by
  unfold basedNumber? at ht
  split at ht
  · rename_i b cs he
    split at ht
    · rename_i isBaseDigit hb
      split at ht
      · simp at ht
      · rename_i hd
        obtain rfl := Option.some.inj ht
        obtain ⟨c₁, c₂, text, rfl⟩ : ∃ c₁ c₂ more, text = c₁ :: c₂ :: more := by
          match text, hle with
          | c₁ :: c₂ :: more, _ => exact ⟨c₁, c₂, more, rfl⟩
        simp only [List.cons_append, List.cons.injEq] at he
        obtain ⟨rfl, rfl, rfl⟩ := he
        have hrun : (text ++ new).takeWhile isBaseDigit = (text ++ old).takeWhile isBaseDigit :=
          h.takeWhile_append (baseDigit?_mild hb) (by simpa using hle)
        simp only [List.cons_append, basedNumber?, hb, hrun]
    · simp at ht
  · simp at ht

/-- A number made of digits goes on behind a point, if a digit follows. -/
theorem number?_move (hpoint : (∀ c ∈ text, isDigitOrMark c = true) → ∀ d rest,
      new = '.' :: d :: rest → isDigit d = true → ∃ rest', old = '.' :: d :: rest')
    (ht : number? (text ++ old) = some text.length) : number? (text ++ new) = some text.length := by
  have hne : text ≠ [] := by
    rintro rfl
    exact absurd (number?_fits ht).1 (by simp)
  obtain ⟨m, hm, hn⟩ := Option.map_eq_some_iff.1 ht
  have hle : m ≤ text.length := by omega
  have hsuffix : suffixLength (text.drop m ++ old) = (text.drop m).length := by
    rw [List.drop_append_of_le_length hle] at hn
    rw [List.length_drop]; omega
  have hhead := not_isSuffixStart h hsuffix
  have hbase : (basedNumber? (text ++ new) <|> decimalNumber? (text ++ new)) = some m := by
    simp only [Option.orElse_eq_orElse, Option.orElse_eq_or, Option.or_eq_some_iff] at hm ⊢
    rcases hm with hm | ⟨hnone, hm⟩
    · exact .inl (basedNumber?_move h hle hm)
    · exact .inr ⟨basedNumber?_eq_none_move h hne hhead hnone,
        decimalNumber?_move h hle hhead hpoint hm⟩
  rw [number?, hbase, Option.map_some, List.drop_append_of_le_length hle,
    suffixLength_move h hsuffix, List.length_drop]
  congr 1; omega

end

/-! ## Symbols -/

theorem contains_ofList (texts : List String) (cs : List Char) :
    texts.contains (String.ofList cs) = (texts.map String.toList).contains cs := by
  rw [Bool.eq_iff_iff, List.contains_iff_mem, List.contains_iff_mem, List.mem_map]
  constructor
  · exact fun h => ⟨_, h, by simp⟩
  · rintro ⟨t, ht, rfl⟩
    rwa [String.ofList_toList]

theorem triple_length {cs : List Char} (h : triples.contains (String.ofList cs) = true) :
    cs.length = 3 := by
  rw [contains_ofList] at h
  exact (by decide : ∀ t ∈ triples.map String.toList, t.length = 3) cs (List.contains_iff_mem.1 h)

theorem pair_length {cs : List Char} (h : pairs.contains (String.ofList cs) = true) :
    cs.length = 2 := by
  rw [contains_ofList] at h
  exact (by decide : ∀ t ∈ pairs.map String.toList, t.length = 2) cs (List.contains_iff_mem.1 h)

/-- Behind its first character a triple has no mild one, unless it begins with `..`. -/
theorem triple_tail {a c d : Char} (h : triples.contains (String.ofList [a, c, d]) = true) :
    a = '.' ∧ c = '.' ∨ c ∉ calmChars ∧ d ∉ mildChars := by
  rw [contains_ofList] at h
  have htail : ∀ t ∈ triples.map String.toList, (t.take 2 == ['.', '.'] ||
      !(t[1]?.any calmChars.contains || t[2]?.any mildChars.contains)) = true := by decide
  simpa using htail _ (List.contains_iff_mem.1 h)

/-- Behind its first character no pair but `::` and `..` has a mild one. -/
theorem pair_tail {a c : Char} (h : pairs.contains (String.ofList [a, c]) = true)
    (hc : c ∈ mildChars) : a = ':' ∧ c = ':' ∨ a = '.' ∧ c = '.' := by
  rw [contains_ofList] at h
  have htail : ∀ t ∈ pairs.map String.toList,
      t.tail.any mildChars.contains = true → t = [':', ':'] ∨ t = ['.', '.'] := by decide
  simpa using htail _ (List.contains_iff_mem.1 h) (by simpa using hc)

/-- The only pair that a third character makes longer. -/
theorem triple_of_pair {a b c : Char} (hp : pairs.contains (String.ofList [a, b]) = true)
    (h : triples.contains (String.ofList [a, b, c]) = true) :
    a = '.' ∧ b = '.' ∧ (c = '.' ∨ c ∉ mildChars) := by
  rw [contains_ofList] at hp h
  have hcases : ∀ p ∈ pairs.map String.toList, ∀ t ∈ triples.map String.toList, t.take 2 = p →
      (t.take 2 == ['.', '.'] && (t[2]? == some '.' || !t[2]?.any mildChars.contains)) = true := by
    decide
  have := hcases _ (List.contains_iff_mem.1 hp) _ (List.contains_iff_mem.1 h) rfl
  simpa [and_assoc] using this

section

variable {old new : List Char} (h : Akin old new)
include h

/-- What comes behind a character makes a pair of it only if what was there did. -/
theorem pair_move {a : Char} (hcolon : a = ':' → ∀ rest, new ≠ ':' :: rest)
    (hdots : a = '.' → ∀ rest, new = '.' :: rest → ∃ rest', old = '.' :: rest')
    (hn : pairs.contains (String.ofList ((a :: new).take 2)) = true) :
    pairs.contains (String.ofList ((a :: old).take 2)) = true := by
  rcases new with _ | ⟨c, new⟩
  · exact absurd (pair_length hn) (by simp)
  · rcases h.first c new rfl with hc | ⟨old, rfl⟩
    · rcases pair_tail hn hc with ⟨rfl, rfl⟩ | ⟨rfl, rfl⟩
      · exact absurd rfl (hcolon rfl new)
      · obtain ⟨old', rfl⟩ := hdots rfl new rfl
        exact hn
    · exact hn

/-- What comes behind a character makes a triple of it only if what was there made a triple or a pair
of it. -/
theorem triple_move {a : Char}
    (hdots : a = '.' → ∀ rest, new = '.' :: rest → ∃ rest', old = '.' :: rest')
    (hn : triples.contains (String.ofList ((a :: new).take 3)) = true) :
    triples.contains (String.ofList ((a :: old).take 3)) = true ∨
      pairs.contains (String.ofList ((a :: old).take 2)) = true := by
  rcases new with _ | ⟨c, _ | ⟨d, new⟩⟩
  · exact absurd (triple_length hn) (by simp)
  · exact absurd (triple_length hn) (by simp)
  · rcases triple_tail hn with ⟨rfl, rfl⟩ | ⟨hc, hd⟩
    · obtain ⟨old', rfl⟩ := hdots rfl _ rfl
      exact .inr (by simpa using (by decide : pairs.contains (String.ofList ['.', '.']) = true))
    · obtain ⟨old', rfl⟩ := h.cons_cons hc hd
      exact .inl hn

/-- What comes behind a pair makes a triple of it only if what was there did. -/
theorem triple_pair_move {a b : Char} (hp : pairs.contains (String.ofList [a, b]) = true)
    (hdots : [a, b] = ['.', '.'] → ∀ rest, new = '.' :: rest → ∃ rest', old = '.' :: rest')
    (hn : triples.contains (String.ofList ((a :: b :: new).take 3)) = true) :
    triples.contains (String.ofList ((a :: b :: old).take 3)) = true := by
  rcases new with _ | ⟨c, new⟩
  · exact absurd (triple_length hn) (by simp)
  · obtain ⟨rfl, rfl, rfl | hc⟩ := triple_of_pair hp hn
    · obtain ⟨old', rfl⟩ := hdots rfl new rfl
      exact hn
    · obtain ⟨old', rfl⟩ := h.cons_of_not_mild hc
      exact hn

/-- A `:` grows with a `:`, and a `.` or a `..` with a `.`. -/
theorem symbol?_move {text : List Char} {cls : LexemeClass}
    (hcolon : text = [':'] → ∀ rest, new ≠ ':' :: rest)
    (hdots : text = ['.'] ∨ text = ['.', '.'] → ∀ rest, new = '.' :: rest →
      ∃ rest', old = '.' :: rest')
    (ht : symbol? (text ++ old) = some (cls, text.length)) :
    symbol? (text ++ new) = some (cls, text.length) := by
  rcases text with _ | ⟨a, text⟩
  · exact absurd (symbol?_fits ht).1 (by simp)
  unfold symbol? at ht ⊢
  split at ht
  · rename_i htriple
    simp only [Option.some.injEq, Prod.mk.injEq] at ht
    rw [List.take_append_of_le_length ht.2.le] at htriple ⊢
    rw [if_pos htriple, ht.1, ht.2]
  rename_i htriple
  split at ht
  · rename_i hpair
    simp only [Option.some.injEq, Prod.mk.injEq] at ht
    obtain ⟨b, rfl⟩ : ∃ b, text = [b] := List.length_eq_one_iff.1 (by simpa using ht.2.symm)
    have htriple' : ¬ triples.contains (String.ofList (([a, b] ++ new).take 3)) = true :=
      fun hn => htriple (triple_pair_move h hpair (fun he => hdots (.inr he)) hn)
    rw [if_neg htriple', ← ht.1, ← ht.2]
    exact if_pos hpair
  rename_i hpair
  -- a single character is left
  obtain rfl : text = [] := by
    simp only [List.cons_append] at ht
    split at ht
    · simp only [Option.some.injEq, Prod.mk.injEq, List.length_cons] at ht
      exact List.length_eq_zero_iff.1 (by omega)
    · obtain ⟨_, -, he⟩ := Option.map_eq_some_iff.1 ht
      simp only [Prod.mk.injEq, List.length_cons] at he
      exact List.length_eq_zero_iff.1 (by omega)
  have hdot : a = '.' → ∀ rest, new = '.' :: rest → ∃ rest', old = '.' :: rest' :=
    fun ha => hdots (.inl (by rw [ha]))
  have htriple' : ¬ triples.contains (String.ofList (([a] ++ new).take 3)) = true :=
    fun hn => (triple_move h hdot hn).elim htriple hpair
  have hpair' : ¬ pairs.contains (String.ofList (([a] ++ new).take 2)) = true :=
    fun hn => hpair (pair_move h (fun ha => hcolon (by rw [ha])) hdot hn)
  rw [if_neg htriple', if_neg hpair']
  exact ht

end

end InlineVariants.Lexeme
