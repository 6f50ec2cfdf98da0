import InlineVariants.Layout.Gap
import InlineVariants.Proofs.Recognising
import Mathlib.Data.List.TakeWhile

/-!
# What is skipped between lexemes

Two definitions say what may stand between tokens. The scanner passes over blanks and comments, and
its block comments nest; the printer asks whether some reading of a gap is made of blanks and
comments, and its block comments do not nest. `Gap` is what the scanner passes over whatever comes
next, `Trailing` what it may also pass over at the end of the text.

Main statements: the scanner passes over every gap (`scanFrom_gap`), everything it passes over is a
gap (`scanFrom_cases`), and the printer takes all of it for trivia (`isTrivia_of_scan_eq_empty`).
-/

namespace InlineVariants

namespace Text.Position

@[simp] theorem advance_nil (p : Position) : p.advance [] = p := rfl

theorem advance_cons (p : Position) (c : Char) (cs : List Char) :
    p.advance (c :: cs) = (p.next c).advance cs := rfl

theorem advance_append (p : Position) (as bs : List Char) :
    p.advance (as ++ bs) = (p.advance as).advance bs := List.foldl_append

@[simp] theorem next_offset (p : Position) (c : Char) : (p.next c).offset = p.offset + 1 := by
  unfold next; split <;> rfl

@[simp] theorem advance_offset (p : Position) (cs : List Char) :
    (p.advance cs).offset = p.offset + cs.length := by
  induction cs generalizing p with
  | nil => rfl
  | cons c cs ih => rw [advance_cons, ih, next_offset, List.length_cons]; omega

/-- What a text has left behind a stretch of it. -/
theorem drop_advance {p : Position} {s as bs : List Char} (h : s.drop p.offset = as ++ bs) :
    s.drop (p.advance as).offset = bs := by
  rw [advance_offset, ← List.drop_drop, h, List.drop_left]

end Text.Position

namespace Lexeme

open Text

/-! ## Block comments -/

/-- A block comment that is closed stays what it is when text is added behind it. -/
theorem blockRest?_append {levels : Nat} {as : List Char} {n : Nat} (bs : List Char)
    (h : blockRest? levels as = some n) : blockRest? levels (as ++ bs) = some n := by
  fun_induction blockRest? levels as generalizing n with
  | case1 => simp at h
  | case2 levels cs hl ih =>
    obtain ⟨m, hm, rfl⟩ := Option.map_eq_some_iff.1 h
    simp [blockRest?, hl, ih hm]
  | case3 => simp at h
  | case4 levels cs hl => simpa [blockRest?, hl] using h
  | case5 levels cs hl ih =>
    obtain ⟨m, hm, rfl⟩ := Option.map_eq_some_iff.1 h
    simp [blockRest?, hl, ih hm]
  | case6 levels c cs h1 h2 ih =>
    obtain ⟨m, hm, rfl⟩ := Option.map_eq_some_iff.1 h
    -- the second character decides which rule applies, and a closed comment has one
    cases cs with
    | nil => simp [blockRest?] at hm
    | cons d cs =>
      rw [List.cons_append, List.cons_append, blockRest?.eq_4, ← List.cons_append, ih hm]
      · rfl
      · intro cs' hc hd; exact h1 cs hc (by simp_all)
      · intro cs' hc hd; exact h2 cs hc (by simp_all)

/-- A block comment ends with its closing mark. -/
theorem take_blockRest? {levels : Nat} {cs : List Char} {n : Nat}
    (h : blockRest? levels cs = some n) :
    n ≤ cs.length ∧ ∃ body, cs.take n = body ++ ['*', '/'] := by
  fun_induction blockRest? levels cs generalizing n with
  | case1 => simp at h
  | case2 levels cs hl ih =>
    obtain ⟨m, hm, rfl⟩ := Option.map_eq_some_iff.1 h
    obtain ⟨hle, body, hb⟩ := ih hm
    exact ⟨by simp; omega, '/' :: '*' :: body, by simp [hb]⟩
  | case3 => simp at h
  | case4 levels cs hl =>
    obtain rfl : 2 = n := by simpa using h
    exact ⟨by simp, [], by simp⟩
  | case5 levels cs hl ih =>
    obtain ⟨m, hm, rfl⟩ := Option.map_eq_some_iff.1 h
    obtain ⟨hle, body, hb⟩ := ih hm
    exact ⟨by simp; omega, '*' :: '/' :: body, by simp [hb]⟩
  | case6 levels c cs h1 h2 ih =>
    obtain ⟨m, hm, rfl⟩ := Option.map_eq_some_iff.1 h
    obtain ⟨hle, body, hb⟩ := ih hm
    exact ⟨by simp; omega, c :: body, by simp [hb]⟩

/-- A block comment is decided by its own characters. -/
theorem blockRest?_take {levels : Nat} {cs : List Char} {n : Nat}
    (h : blockRest? levels cs = some n) : blockRest? levels (cs.take n) = some n := by
  fun_induction blockRest? levels cs generalizing n with
  | case1 => simp at h
  | case2 levels cs hl ih =>
    obtain ⟨m, hm, rfl⟩ := Option.map_eq_some_iff.1 h
    simp [blockRest?, hl, ih hm]
  | case3 => simp at h
  | case4 levels cs hl =>
    obtain rfl : 2 = n := by simpa using h
    simp [blockRest?, hl]
  | case5 levels cs hl ih =>
    obtain ⟨m, hm, rfl⟩ := Option.map_eq_some_iff.1 h
    simp [blockRest?, hl, ih hm]
  | case6 levels c cs h1 h2 ih =>
    obtain ⟨m, hm, rfl⟩ := Option.map_eq_some_iff.1 h
    rw [List.take_succ_cons, blockRest?.eq_4, ih hm]
    · rfl
    · intro cs' hc hd
      exact h1 (cs.drop 1) hc (by cases cs <;> cases m <;> simp_all)
    · intro cs' hc hd
      exact h2 (cs.drop 1) hc (by cases cs <;> cases m <;> simp_all)

/-! ## Gaps -/

/-- A text that is passed over whatever comes behind it. A line comment has its line feed with
it. -/
inductive Gap : List Char → Prop
  | nil : Gap []
  | blank {c : Char} {gap : List Char} : isBlank c = true → Gap gap → Gap (c :: gap)
  | line {body gap : List Char} :
      (∀ c ∈ body, c ≠ '\n') → Gap ('\n' :: gap) → Gap ('/' :: '/' :: (body ++ '\n' :: gap))
  | block {body gap : List Char} :
      blockRest? 1 body = some body.length → Gap gap → Gap ('/' :: '*' :: (body ++ gap))

/-- What may be left of a text that is passed over: nothing, or a line comment without a line
feed. -/
def Trailing (cs : List Char) : Prop :=
  cs = [] ∨ ∃ body, cs = '/' :: '/' :: body ∧ ∀ c ∈ body, c ≠ '\n'

theorem ne_slash_of_isBlank {c : Char} (h : isBlank c = true) : c ≠ '/' := by
  rintro rfl; revert h; decide

theorem blockComment?_of_ne {c : Char} (cs : List Char) (h : c ≠ '/') :
    blockComment? (c :: cs) = none := by
  unfold blockComment?; split <;> simp_all

theorem lineComment?_of_ne {c : Char} (cs : List Char) (h : c ≠ '/') :
    lineComment? (c :: cs) = none := by
  unfold lineComment?; split <;> simp_all

theorem trivia?_blank {c : Char} (cs : List Char) (h : isBlank c = true) :
    trivia? (c :: cs) = some ((cs.takeWhile isBlank).length + 1) := by
  have hc := ne_slash_of_isBlank h
  simp [trivia?, blockComment?_of_ne cs hc, lineComment?_of_ne cs hc, blanks?, h]

theorem trivia?_line (cs : List Char) :
    trivia? ('/' :: '/' :: cs) = some ((cs.takeWhile (· != '\n')).length + 2) := by
  simp [trivia?, blockComment?, lineComment?]

theorem trivia?_block (cs : List Char) :
    trivia? ('/' :: '*' :: cs) = (blockRest? 1 cs).map (· + 2) := by
  have hb : isBlank '/' = false := by decide
  cases h : blockRest? 1 cs <;> simp [trivia?, blockComment?, lineComment?, blanks?, h, hb]

/-- The forms of a stretch that is skipped. -/
theorem trivia?_cases {cs : List Char} {n : Nat} (h : trivia? cs = some n) :
    (∃ c rest, cs = c :: rest ∧ isBlank c = true ∧ n = (rest.takeWhile isBlank).length + 1) ∨
    (∃ rest, cs = '/' :: '/' :: rest ∧ n = (rest.takeWhile (· != '\n')).length + 2) ∨
    (∃ rest m, cs = '/' :: '*' :: rest ∧ blockRest? 1 rest = some m ∧ n = m + 2) := by
  cases cs with
  | nil => simp [trivia?, blockComment?, lineComment?, blanks?] at h
  | cons c rest =>
    by_cases hc : isBlank c = true
    · exact .inl ⟨c, rest, rfl, hc, by rw [trivia?_blank rest hc] at h; simpa using h.symm⟩
    · by_cases hs : c = '/'
      · subst hs
        cases rest with
        | nil => simp [trivia?, blockComment?, lineComment?, blanks?, hc] at h
        | cons d rest =>
          by_cases hd : d = '/'
          · subst hd
            rw [trivia?_line] at h
            exact .inr (.inl ⟨rest, rfl, by simpa using h.symm⟩)
          · by_cases he : d = '*'
            · subst he
              rw [trivia?_block] at h
              obtain ⟨m, hm, rfl⟩ := Option.map_eq_some_iff.1 h
              exact .inr (.inr ⟨rest, m, rfl, hm, rfl⟩)
            · simp [trivia?, blockComment?, lineComment?, blanks?, hc, hd, he] at h
      · simp [trivia?, blockComment?_of_ne rest hs, lineComment?_of_ne rest hs, blanks?, hc] at h

/-! ## Scanning -/

/-- A token in front of a text: it is no trivia, and the recognisers take exactly it. -/
structure IsToken (cls : LexemeClass) (text rest : List Char) : Prop where
  ne_nil : text ≠ []
  not_trivia : trivia? (text ++ rest) = none
  token : token? (text ++ rest) = some (cls, text.length)

instance (cls : LexemeClass) (text rest : List Char) : Decidable (IsToken cls text rest) :=
  decidable_of_iff (text ≠ [] ∧ trivia? (text ++ rest) = none ∧
    token? (text ++ rest) = some (cls, text.length))
    ⟨fun ⟨h1, h2, h3⟩ => ⟨h1, h2, h3⟩, fun h => ⟨h.ne_nil, h.not_trivia, h.token⟩⟩

/-- The token of a bracket is one character. -/
theorem IsToken.length_bracket {cls : LexemeClass} {text rest : List Char}
    (h : IsToken cls text rest) (hcls : cls.isLeaf = false) : text.length = 1 := by
  obtain ⟨-, -, -, hn, -⟩ := bracket?_of_token? hcls h.token
  exact hn

/-- The token of an opening bracket is the bracket. -/
theorem IsToken.opening {d : Delimiter} {text rest : List Char}
    (h : IsToken (.opening d) text rest) : text = d.opening.toList ∧ d ≠ .invisible := by
  obtain ⟨c, cs, he, hn, hb⟩ := bracket?_of_token? rfl h.token
  obtain ⟨a, rfl⟩ := List.length_eq_one_iff.1 hn
  rw [List.singleton_append, List.cons.injEq] at he
  exact he.1 ▸ bracket?_opening hb

/-- The token of a closing bracket is the bracket. -/
theorem IsToken.closing {d : Delimiter} {text rest : List Char}
    (h : IsToken (.closing d) text rest) : text = d.closing.toList ∧ d ≠ .invisible := by
  obtain ⟨c, cs, he, hn, hb⟩ := bracket?_of_token? rfl h.token
  obtain ⟨a, rfl⟩ := List.length_eq_one_iff.1 hn
  rw [List.singleton_append, List.cons.injEq] at he
  exact he.1 ▸ bracket?_closing hb

@[simp] theorem scanFrom_nil (p : Position) : scanFrom p [] = {} := by rw [scanFrom]

theorem scanFrom_trivia {cs : List Char} {n : Nat} (p : Position) (h : trivia? cs = some n) :
    scanFrom p cs = scanFrom (p.advance (cs.take n)) (cs.drop n) := by
  cases cs with
  | nil => simp [trivia?, blockComment?, lineComment?, blanks?] at h
  | cons c rest =>
    have hn : n = n - 1 + 1 := by
      rcases trivia?_cases h with ⟨_, _, -, -, rfl⟩ | ⟨_, -, rfl⟩ | ⟨_, _, -, -, rfl⟩ <;> omega
    rw [scanFrom]
    simp only [h]
    rw [hn, List.drop_succ_cons, Nat.add_sub_cancel]

theorem scanFrom_token {cls : LexemeClass} {text rest : List Char} (p : Position)
    (h : IsToken cls text rest) :
    scanFrom p (text ++ rest) =
      { scanFrom (p.advance text) rest with
        lexemes := ⟨cls, String.ofList text, p, p.advance text⟩ ::
          (scanFrom (p.advance text) rest).lexemes } := by
  obtain ⟨hne, htr, htok⟩ := h
  cases text with
  | nil => exact absurd rfl hne
  | cons c text =>
    rw [List.cons_append] at htr htok ⊢
    rw [scanFrom]
    simp only [htr, htok]
    simp

theorem scanFrom_blank {c : Char} (p : Position) (cs : List Char) (h : isBlank c = true) :
    scanFrom p (c :: cs) = scanFrom (p.next c) cs := by
  rw [scanFrom_trivia p (trivia?_blank cs h), List.take_succ_cons, List.drop_succ_cons,
    Position.advance_cons]
  -- the blanks behind `c` are skipped with it, or on their own
  cases cs with
  | nil => simp
  | cons d ds =>
    by_cases hd : isBlank d = true
    · rw [scanFrom_trivia (p.next c) (trivia?_blank ds hd)]
      simp [hd]
    · simp [hd]

/-- A line comment ends in front of its line feed. -/
theorem scanFrom_line {body : List Char} (hbody : ∀ c ∈ body, c ≠ '\n') (p : Position)
    (cs : List Char) :
    scanFrom p ('/' :: '/' :: (body ++ '\n' :: cs)) =
      scanFrom (p.advance ('/' :: '/' :: body)) ('\n' :: cs) := by
  have ht : (body ++ '\n' :: cs).takeWhile (· != '\n') = body := by
    rw [List.takeWhile_append_of_pos (by simpa using hbody)]; simp
  have hl := trivia?_line (body ++ '\n' :: cs)
  rw [ht] at hl
  rw [scanFrom_trivia p hl]
  simp

/-- The scanner passes over a gap. -/
theorem scanFrom_gap {gap : List Char} (h : Gap gap) (p : Position) (cs : List Char) :
    scanFrom p (gap ++ cs) = scanFrom (p.advance gap) cs := by
  induction h generalizing p with
  | nil => rfl
  | blank hc _ ih => rw [List.cons_append, scanFrom_blank p _ hc, ih, Position.advance_cons]
  | @line body gap hbody _ ih =>
    have hs : '/' :: '/' :: (body ++ '\n' :: gap) = ('/' :: '/' :: body) ++ '\n' :: gap := by simp
    rw [hs, Position.advance_append, ← ih]
    simpa using scanFrom_line hbody p (gap ++ cs)
  | @block body gap hbody _ ih =>
    have hb : trivia? ('/' :: '*' :: (body ++ (gap ++ cs))) = some (body.length + 2) := by
      rw [trivia?_block, blockRest?_append _ hbody]; rfl
    have he : '/' :: '*' :: (body ++ gap) ++ cs = '/' :: '*' :: (body ++ (gap ++ cs)) := by simp
    have hs : '/' :: '*' :: (body ++ gap) = ('/' :: '*' :: body) ++ gap := by simp
    rw [he, scanFrom_trivia p hb, hs, Position.advance_append]
    simpa using ih (p.advance ('/' :: '*' :: body))

theorem Gap.append {as bs : List Char} (ha : Gap as) (hb : Gap bs) : Gap (as ++ bs) := by
  induction ha with
  | nil => exact hb
  | blank hc _ ih => exact .blank hc ih
  | @line body gap hbody _ ih => simpa using Gap.line hbody ih
  | @block body gap hbody _ ih => simpa using Gap.block hbody ih

/-- A text up to its first line feed, and what is left of it. -/
theorem line_split (cs : List Char) : ∃ body rest, cs = body ++ rest ∧ (∀ c ∈ body, c ≠ '\n') ∧
    (rest = [] ∨ ∃ rest', rest = '\n' :: rest') := by
  induction cs with
  | nil => exact ⟨[], [], rfl, by simp, .inl rfl⟩
  | cons c cs ih =>
    by_cases hc : c = '\n'
    · exact ⟨[], c :: cs, rfl, by simp, .inr ⟨cs, by rw [hc]⟩⟩
    · obtain ⟨body, rest, rfl, hbody, hrest⟩ := ih
      exact ⟨c :: body, rest, rfl, by simpa [hc] using hbody, hrest⟩

/-- How a text begins that can be scanned to its end. -/
def Begins (p : Position) (cs : List Char) : Prop :=
  (∃ gap tail, cs = gap ++ tail ∧ Gap gap ∧ Trailing tail ∧ scanFrom p cs = {}) ∨
  (∃ gap cls text rest, cs = gap ++ (text ++ rest) ∧ Gap gap ∧ IsToken cls text rest)

theorem Begins.gap_append {p : Position} {gap cs : List Char} (hg : Gap gap)
    (h : Begins (p.advance gap) cs) : Begins p (gap ++ cs) := by
  rcases h with ⟨g, tail, rfl, hG, ht, hs⟩ | ⟨g, cls, text, rest, rfl, hG, ht⟩
  · exact .inl ⟨gap ++ g, tail, by simp, hg.append hG, ht, by rw [scanFrom_gap hg, hs]⟩
  · exact .inr ⟨gap ++ g, cls, text, rest, by simp, hg.append hG, ht⟩

theorem Begins.line_append {p : Position} {body cs : List Char} (hbody : ∀ c ∈ body, c ≠ '\n')
    (h : Begins (p.advance ('/' :: '/' :: body)) ('\n' :: cs)) :
    Begins p ('/' :: '/' :: (body ++ '\n' :: cs)) := by
  rcases h with ⟨g, tail, he, hG, ht, he'⟩ | ⟨g, cls, text, rest, he, hG, ht⟩
  · cases g with
    | nil =>
      rcases ht with rfl | ⟨_, rfl, -⟩ <;> simp at he
    | cons c g =>
      simp only [List.cons_append, List.cons.injEq] at he
      obtain ⟨rfl, rfl⟩ := he
      exact .inl ⟨_, tail, by simp, .line hbody hG, ht, by rw [scanFrom_line hbody, he']⟩
  · cases g with
    | nil =>
      have := ht.not_trivia
      rw [List.nil_append] at he
      rw [← he, trivia?_blank _ (by decide)] at this
      simp at this
    | cons c g =>
      simp only [List.cons_append, List.cons.injEq] at he
      obtain ⟨rfl, rfl⟩ := he
      exact .inr ⟨_, cls, text, rest, by simp, .line hbody hG, ht⟩

/-- What the scanner passes over is a gap, and what it takes is a token. -/
theorem scanFrom_cases {p : Position} {cs : List Char} (h : (scanFrom p cs).stuck = none) :
    Begins p cs := by
  induction hn : cs.length using Nat.strong_induction_on generalizing p cs with
  | _ n ih =>
  subst hn
  cases htr : trivia? cs with
  | some n =>
    rcases trivia?_cases htr with ⟨c, ds, rfl, hc, -⟩ | ⟨ds, rfl, -⟩ | ⟨ds, m, rfl, hm, -⟩
    · rw [scanFrom_blank p ds hc] at h
      exact .gap_append (show Gap [c] from .blank hc .nil) (ih ds.length (by simp) h rfl)
    · obtain ⟨body, r, rfl, hbody, hr⟩ := line_split ds
      rcases hr with rfl | ⟨r, rfl⟩
      · have ht : (body.takeWhile (· != '\n')) = body :=
          List.takeWhile_eq_self_iff.2 (by simpa using hbody)
        have hl := trivia?_line body
        rw [ht] at hl
        refine .inl ⟨[], '/' :: '/' :: body, by simp, .nil, .inr ⟨body, rfl, hbody⟩, ?_⟩
        rw [List.append_nil, scanFrom_trivia p hl]
        simp
      · refine Begins.line_append hbody (ih _ ?_ ?_ rfl)
        · simp; omega
        · rwa [scanFrom_line hbody] at h
    · have hb : blockRest? 1 (ds.take m) = some (ds.take m).length := by
        rw [blockRest?_take hm, List.length_take, Nat.min_eq_left (take_blockRest? hm).1]
      have hg : Gap ('/' :: '*' :: ds.take m) := by simpa using Gap.block hb .nil
      have hds : '/' :: '*' :: ds = ('/' :: '*' :: ds.take m) ++ ds.drop m := by simp
      rw [hds] at h ⊢
      rw [scanFrom_gap hg] at h
      exact (ih _ (by simp; omega) h rfl).gap_append hg
  | none =>
    cases cs with
    | nil => exact .inl ⟨[], [], rfl, .nil, .inl rfl, by simp⟩
    | cons c rest =>
      rw [scanFrom] at h
      simp only [htr] at h
      split at h
      · rename_i cls n htok
        obtain ⟨hpos, hle⟩ := token?_fits htok
        refine .inr ⟨[], cls, (c :: rest).take n, (c :: rest).drop n, by simp, .nil, ?_, ?_, ?_⟩
        · cases n <;> simp at hpos ⊢
        · rwa [List.take_append_drop]
        · rw [List.take_append_drop, htok, List.length_take, Nat.min_eq_left hle]
      · simp at h

theorem scanFrom_trailing {gap tail : List Char} (hg : Gap gap) (ht : Trailing tail) (p : Position) :
    scanFrom p (gap ++ tail) = {} := by
  rw [scanFrom_gap hg]
  rcases ht with rfl | ⟨body, rfl, hbody⟩
  · simp
  · have hl := trivia?_line body
    rw [List.takeWhile_eq_self_iff.2 (by simpa using hbody)] at hl
    rw [scanFrom_trivia _ hl]
    simp

/-- The scanner finds no token in a text exactly if the text is a gap with a trailing rest. -/
theorem scan_eq_empty_iff {cs : List Char} :
    scan cs = {} ↔ ∃ gap tail, cs = gap ++ tail ∧ Gap gap ∧ Trailing tail := by
  constructor
  · intro h
    have hs : (scanFrom .first cs).stuck = none := by rw [show scanFrom .first cs = {} from h]
    rcases scanFrom_cases hs with ⟨gap, tail, he, hg, ht, -⟩ | ⟨gap, cls, text, rest, rfl, hg, ht⟩
    · exact ⟨gap, tail, he, hg, ht⟩
    · rw [scan, scanFrom_gap hg, scanFrom_token _ ht] at h
      simp at h
  · rintro ⟨gap, tail, rfl, hg, ht⟩
    exact scanFrom_trailing hg ht _

end Lexeme

/-! ## The printer takes it for trivia -/

namespace Layout

namespace Readings

theorem line_foldl {body : List Char} (hbody : ∀ c ∈ body, c ≠ '\n') {r : Readings}
    (h : r.line = true) : (body.foldl step r).line = true := by
  induction body generalizing r with
  | nil => exact h
  | cons c body ih =>
    have hc : c ≠ '\n' := hbody c (by simp)
    exact ih (fun d hd => hbody d (by simp [hd])) (by simp [step, h, hc])

theorem block_foldl (body : List Char) {r : Readings} (h : r.block = true) :
    (body.foldl step r).block = true := by
  induction body generalizing r with
  | nil => exact h
  | cons c body ih => exact ih (by simp [step, h])

/-- Inner closing marks do not matter: the reading that goes on to the last one is followed too. -/
theorem outside_foldl_gap {gap : List Char} (hg : Lexeme.Gap gap) {r : Readings}
    (h : r.outside = true) : (gap.foldl step r).outside = true := by
  induction hg generalizing r with
  | nil => exact h
  | blank hc _ ih => exact ih (by simp [step, h, hc])
  | @line body gap hbody _ ih =>
    have hl : ((step (step r '/') '/')).line = true := by simp [step, h]
    have hb := line_foldl hbody hl
    rw [List.foldl_cons, List.foldl_cons, List.foldl_append]
    generalize (body.foldl step (step (step r '/') '/')) = r' at hb ⊢
    -- `ih` speaks of a reading that is outside already; the line feed brings this one there
    have hn : step { r' with outside := true } '\n' = step r' '\n' := by
      simp [step, hb]
    have := ih (r := { r' with outside := true }) rfl
    rwa [List.foldl_cons, hn, ← List.foldl_cons] at this
  | @block body gap hbody _ ih =>
    have hb : ((step (step r '/') '*')).block = true := by simp [step, h]
    obtain ⟨-, inner, hi⟩ := Lexeme.take_blockRest? hbody
    rw [List.take_length] at hi
    rw [List.foldl_cons, List.foldl_cons, List.foldl_append, hi, List.foldl_append]
    have hin := block_foldl inner hb
    generalize inner.foldl step (step (step r '/') '*') = r' at hin ⊢
    exact ih (by simp [step, hin])

end Readings

theorem isTrivia_gap_append {gap tail : List Char} (hg : Lexeme.Gap gap)
    (ht : Lexeme.Trailing tail) : isTrivia (gap ++ tail) = true := by
  have ho := Readings.outside_foldl_gap hg (r := .initial) rfl
  unfold isTrivia
  rw [List.foldl_append]
  rcases ht with rfl | ⟨body, rfl, hbody⟩
  · simp [Readings.accepting, ho]
  · have hl := Readings.line_foldl hbody
      (r := (gap.foldl Readings.step .initial |>.step '/').step '/') (by simp [Readings.step, ho])
    simp only [List.foldl_cons, Readings.accepting, hl, Bool.or_true]

theorem isTrivia_of_gap {gap : List Char} (hg : Lexeme.Gap gap) : isTrivia gap = true := by
  simpa using isTrivia_gap_append hg (.inl rfl)

/-- Every text that the scanner passes over is trivia for the printer. -/
theorem isTrivia_of_scan_eq_empty {cs : List Char} (h : Lexeme.scan cs = {}) :
    isTrivia cs = true := by
  obtain ⟨gap, tail, rfl, hg, ht⟩ := Lexeme.scan_eq_empty_iff.1 h
  exact isTrivia_gap_append hg ht

end Layout

end InlineVariants
