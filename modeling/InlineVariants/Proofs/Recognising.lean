import InlineVariants.Lexeme.Scan

/-!
# How far the recognisers reach

Every recogniser takes at least one character and none that is not there, so a token is a stretch of
the text in front (`token?_fits`).
-/

namespace InlineVariants

/-- Whether lexemes of a class are leaves of the tree. -/
def LexemeClass.isLeaf : LexemeClass → Bool
  | .opening _ => false
  | .closing _ => false
  | _ => true

namespace Lexeme

open Text

/-- A recogniser answered with a length that the text has, and not with zero. -/
def Fits (cs : List Char) (n : Nat) : Prop := 0 < n ∧ n ≤ cs.length

theorem Fits.map_add {cs ds : List Char} {r : Option Nat} {k n : Nat}
    (hr : ∀ m, r = some m → Fits cs m) (hlen : cs.length + k ≤ ds.length)
    (h : r.map (· + k) = some n) : Fits ds n := by
  obtain ⟨m, hm, rfl⟩ := Option.map_eq_some_iff.1 h
  have := hr m hm
  simp only [Fits] at this ⊢
  omega

theorem length_takeWhile_le (p : Char → Bool) (cs : List Char) :
    (cs.takeWhile p).length ≤ cs.length := (List.takeWhile_sublist p).length_le

/-! ## Names and lifetimes -/

theorem plainName?_fits {cs : List Char} {n : Nat} (h : plainName? cs = some n) : Fits cs n := by
  unfold plainName? at h
  split at h
  · rename_i c cs
    split at h
    · have := length_takeWhile_le isNameChar cs
      obtain rfl := Option.some.inj h
      simp only [Fits, List.length_cons]; omega
    · simp at h
  · simp at h

theorem name?_fits {cs : List Char} {n : Nat} (h : name? cs = some n) : Fits cs n := by
  unfold name? at h
  split at h
  · rename_i cs
    rw [Option.orElse_eq_orElse, Option.orElse_eq_or, Option.or_eq_some_iff] at h
    rcases h with h | ⟨-, h⟩
    · exact Fits.map_add (fun m hm => plainName?_fits hm) (by simp) h
    · exact plainName?_fits h
  · exact plainName?_fits h

theorem lifetime?_fits {cs : List Char} {n : Nat} (h : lifetime? cs = some n) : Fits cs n := by
  unfold lifetime? at h
  split at h
  · exact Fits.map_add (fun m hm => name?_fits hm) (by simp) h
  · simp at h

/-! ## Strings -/

theorem stringRest?_fits {cs : List Char} {n : Nat} (h : stringRest? cs = some n) :
    Fits cs n := by
  fun_induction stringRest? cs generalizing n with
  | case1 => simp at h
  | case2 => simp at h
  | case3 _ cs ih => exact Fits.map_add (fun m hm => ih hm) (by simp) h
  | case4 cs => obtain rfl := Option.some.inj h; simp [Fits]
  | case5 c cs _ _ _ ih => exact Fits.map_add (fun m hm => ih hm) (by simp) h

theorem string?_fits {cs : List Char} {n : Nat} (h : string? cs = some n) : Fits cs n := by
  unfold string? at h
  split at h
  · exact Fits.map_add (fun m hm => stringRest?_fits hm) (by simp) h
  · exact Fits.map_add (fun m hm => stringRest?_fits hm) (by simp) h
  · simp at h

theorem rawRest?_fits {hashes : Nat} {cs : List Char} {n : Nat}
    (h : rawRest? hashes cs = some n) : Fits cs n := by
  fun_induction rawRest? hashes cs generalizing n with
  | case1 => simp at h
  | case2 c cs hc =>
    obtain rfl := Option.some.inj h
    simp only [Bool.and_eq_true, beq_iff_eq] at hc
    have := congrArg List.length hc.2
    simp only [List.length_take, List.length_replicate] at this
    simp only [Fits, List.length_cons]; omega
  | case3 c cs _ ih => exact Fits.map_add (fun m hm => ih hm) (by simp) h

theorem rawBody?_fits {cs : List Char} {n : Nat} (h : rawBody? cs = some n) : Fits cs n := by
  unfold rawBody? at h
  simp only at h
  split at h
  · rename_i rest hd
    split at h
    · refine Fits.map_add (fun m hm => rawRest?_fits hm) ?_ h
      have hh := length_takeWhile_le (· == '#') cs
      have := congrArg List.length hd
      simp only [List.length_drop, List.length_cons] at this
      omega
    · simp at h
  · simp at h

theorem rawString?_fits {cs : List Char} {n : Nat} (h : rawString? cs = some n) : Fits cs n := by
  unfold rawString? at h
  split at h
  · exact Fits.map_add (fun m hm => rawBody?_fits hm) (by simp) h
  · exact Fits.map_add (fun m hm => rawBody?_fits hm) (by simp) h
  · simp at h

/-! ## Characters -/

theorem escape?_fits {cs : List Char} {n : Nat} (h : escape? cs = some n) : Fits cs n := by
  unfold escape? at h
  split at h
  · split at h
    · obtain rfl := Option.some.inj h; simp [Fits]
    · simp at h
  · rename_i cs
    simp only at h
    split at h
    · rename_i hd
      obtain rfl := Option.some.inj h
      simp only [Bool.and_eq_true, beq_iff_eq] at hd
      obtain ⟨rest, hr⟩ := List.head?_eq_some_iff.1 hd.2
      have := congrArg List.length hr
      simp only [List.length_drop, List.length_cons] at this
      simp only [Fits, List.length_cons]; omega
    · simp at h
  · split at h
    · obtain rfl := Option.some.inj h; simp [Fits]
    · simp at h
  · simp at h

theorem charBody?_fits {cs : List Char} {n : Nat} (h : charBody? cs = some n) : Fits cs n := by
  unfold charBody? at h
  split at h
  · exact Fits.map_add (fun m hm => escape?_fits hm) (by simp) h
  · split at h
    · simp at h
    · obtain rfl := Option.some.inj h; simp [Fits]
  · simp at h

theorem plainChar?_fits {cs : List Char} {n : Nat} (h : plainChar? cs = some n) : Fits cs n := by
  unfold plainChar? at h
  split at h
  · rename_i cs
    split at h
    · rename_i m _
      split at h
      · rename_i hd
        obtain rfl := Option.some.inj h
        obtain ⟨rest, hr⟩ := List.head?_eq_some_iff.1 (beq_iff_eq.1 hd)
        have := congrArg List.length hr
        simp only [List.length_drop, List.length_cons] at this
        simp only [Fits, List.length_cons]; omega
      · simp at h
    · simp at h
  · simp at h

theorem char?_fits {cs : List Char} {n : Nat} (h : char? cs = some n) : Fits cs n := by
  unfold char? at h
  split at h
  · exact Fits.map_add (fun m hm => plainChar?_fits hm) (by simp) h
  · exact plainChar?_fits h

/-! ## Numbers -/

theorem suffixLength_le (cs : List Char) : suffixLength cs ≤ cs.length := by
  unfold suffixLength
  split
  · rename_i c cs
    have := length_takeWhile_le (fun d => isSuffixStart d || isDigit d) cs
    split
    · simp only [List.length_cons]; omega
    · exact Nat.zero_le _
  · simp

theorem basedNumber?_fits {cs : List Char} {n : Nat} (h : basedNumber? cs = some n) :
    Fits cs n := by
  unfold basedNumber? at h
  split at h
  · rename_i b cs
    split at h
    · rename_i isBaseDigit _
      have := length_takeWhile_le isBaseDigit cs
      split at h
      · simp at h
      · obtain rfl := Option.some.inj h
        simp only [Fits, List.length_cons]; omega
    · simp at h
  · simp at h

theorem fractionLength_le (cs : List Char) : fractionLength cs ≤ cs.length := by
  unfold fractionLength
  split
  · rename_i d cs
    have := length_takeWhile_le isDigitOrMark cs
    split <;> simp; omega
  · simp

theorem exponentLength_le (cs : List Char) : exponentLength cs ≤ cs.length := by
  unfold exponentLength
  split
  · rename_i c cs
    split
    · simp only
      have := length_takeWhile_le isDigitOrMark (cs.drop (signLength cs))
      split
      · simp
      · rename_i digits hd
        -- a digit stands behind the sign, so the sign is there
        have hpos : 0 < ((cs.drop (signLength cs)).takeWhile isDigitOrMark).length := by
          rcases hl : (cs.drop (signLength cs)).takeWhile isDigitOrMark with _ | ⟨d, ds⟩
          · exact absurd hl hd
          · simp
        simp only [List.length_drop, List.length_cons] at *
        omega
    · simp
  · simp

theorem decimalNumber?_fits {cs : List Char} {n : Nat} (h : decimalNumber? cs = some n) :
    Fits cs n := by
  unfold decimalNumber? at h
  split at h
  · rename_i c cs
    split at h
    · simp only at h
      obtain rfl := Option.some.inj h
      have hw := length_takeWhile_le isDigitOrMark cs
      have hf := fractionLength_le (cs.drop (cs.takeWhile isDigitOrMark).length)
      have he := exponentLength_le ((cs.drop (cs.takeWhile isDigitOrMark).length).drop
        (fractionLength (cs.drop (cs.takeWhile isDigitOrMark).length)))
      simp only [List.length_drop] at hf he
      simp only [Fits, List.length_cons]; omega
    · simp at h
  · simp at h

theorem number?_fits {cs : List Char} {n : Nat} (h : number? cs = some n) : Fits cs n := by
  obtain ⟨m, hm, rfl⟩ := Option.map_eq_some_iff.1 h
  have hfit : Fits cs m := by
    rw [Option.orElse_eq_orElse, Option.orElse_eq_or, Option.or_eq_some_iff] at hm
    rcases hm with hm | ⟨-, hm⟩
    · exact basedNumber?_fits hm
    · exact decimalNumber?_fits hm
  have := suffixLength_le (cs.drop m)
  simp only [List.length_drop] at this
  simp only [Fits] at hfit ⊢
  omega

/-! ## Tokens -/

theorem length_le_of_take_mem {k : Nat} {cs : List Char} {texts : List String}
    (htexts : ∀ t ∈ texts, t.length = k) (h : texts.contains (String.ofList (cs.take k)) = true) :
    k ≤ cs.length := by
  have := htexts _ (List.contains_iff_mem.1 h)
  simp only [String.length_ofList, List.length_take] at this
  omega

theorem symbol?_fits {cs : List Char} {cls : LexemeClass} {n : Nat}
    (h : symbol? cs = some (cls, n)) : Fits cs n := by
  unfold symbol? at h
  split at h
  · rename_i ht
    simp only [Option.some.injEq, Prod.mk.injEq] at h
    obtain ⟨-, rfl⟩ := h
    exact ⟨by decide, length_le_of_take_mem (by decide) ht⟩
  · split at h
    · rename_i ht
      simp only [Option.some.injEq, Prod.mk.injEq] at h
      obtain ⟨-, rfl⟩ := h
      exact ⟨by decide, length_le_of_take_mem (by decide) ht⟩
    · split at h
      · rename_i c cs
        split at h
        · simp only [Option.some.injEq, Prod.mk.injEq] at h
          obtain ⟨-, rfl⟩ := h
          simp [Fits]
        · obtain ⟨_, -, h⟩ := Option.map_eq_some_iff.1 h
          simp only [Prod.mk.injEq] at h
          obtain ⟨-, rfl⟩ := h
          simp [Fits]
      · simp at h

/-- A recogniser of a fixed class is bounded when its length is. -/
theorem fits_of_map {cs : List Char} {cls c : LexemeClass} {r : Option Nat} {n : Nat}
    (hr : ∀ m, r = some m → Fits cs m) (h : r.map (c, ·) = some (cls, n)) : Fits cs n := by
  obtain ⟨m, hm, he⟩ := Option.map_eq_some_iff.1 h
  simp only [Prod.mk.injEq] at he
  exact he.2 ▸ hr m hm

theorem token?_fits {cs : List Char} {cls : LexemeClass} {n : Nat}
    (h : token? cs = some (cls, n)) : Fits cs n := by
  unfold token? at h
  simp only [Option.orElse_eq_orElse, Option.orElse_eq_or, Option.or_eq_some_iff] at h
  rcases h with h | ⟨-, h | ⟨-, h | ⟨-, h | ⟨-, h | ⟨-, h | ⟨-, h⟩⟩⟩⟩⟩⟩
  · exact fits_of_map (fun _ => string?_fits) h
  · exact fits_of_map (fun _ => rawString?_fits) h
  · exact fits_of_map (fun _ => char?_fits) h
  · exact fits_of_map (fun _ => lifetime?_fits) h
  · exact fits_of_map (fun _ => number?_fits) h
  · exact fits_of_map (fun _ => name?_fits) h
  · exact symbol?_fits h

/-- Brackets are the only symbols that are no punctuation. -/
theorem symbol?_cases {cs : List Char} {cls : LexemeClass} {n : Nat}
    (h : symbol? cs = some (cls, n)) :
    cls = .punct ∨ ∃ c rest, cs = c :: rest ∧ n = 1 ∧ bracket? c = some cls := by
  unfold symbol? at h
  split at h
  · left; simp_all
  · split at h
    · left; simp_all
    · cases cs with
      | nil => simp at h
      | cons c rest =>
        simp only at h
        split at h
        · left; simp_all
        · simp only [Option.map_eq_some_iff, Prod.mk.injEq] at h
          obtain ⟨_, hb, rfl, rfl⟩ := h
          exact .inr ⟨c, rest, rfl, rfl, hb⟩

/-- Only brackets give tokens that are no leaves. -/
theorem bracket?_of_token? {cs : List Char} {cls : LexemeClass} {n : Nat}
    (hl : cls.isLeaf = false) (h : token? cs = some (cls, n)) :
    ∃ c rest, cs = c :: rest ∧ n = 1 ∧ bracket? c = some cls := by
  unfold token? at h
  simp only [Option.orElse_eq_orElse, Option.orElse_eq_or, Option.or_eq_some_iff,
    Option.map_eq_some_iff, Prod.mk.injEq] at h
  have hs : symbol? cs = some (cls, n) := by
    rcases h with ⟨_, -, rfl, -⟩ | ⟨-, ⟨_, -, rfl, -⟩ | ⟨-, ⟨_, -, rfl, -⟩ | ⟨-, ⟨_, -, rfl, -⟩ |
      ⟨-, ⟨_, -, rfl, -⟩ | ⟨-, ⟨_, -, rfl, -⟩ | ⟨-, h⟩⟩⟩⟩⟩⟩
    all_goals first | exact h | cases hl
  rcases symbol?_cases hs with rfl | h
  · cases hl
  · exact h

theorem bracket?_opening {c : Char} {d : Delimiter} (h : bracket? c = some (.opening d)) :
    [c] = d.opening.toList ∧ d ≠ .invisible := by
  unfold bracket? at h
  split at h <;> simp only [Option.some.injEq, LexemeClass.opening.injEq, reduceCtorEq] at h
  all_goals subst h; decide

theorem bracket?_closing {c : Char} {d : Delimiter} (h : bracket? c = some (.closing d)) :
    [c] = d.closing.toList ∧ d ≠ .invisible := by
  unfold bracket? at h
  split at h <;> simp only [Option.some.injEq, LexemeClass.closing.injEq, reduceCtorEq] at h
  all_goals subst h; decide

end Lexeme

end InlineVariants
