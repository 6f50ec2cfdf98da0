import InlineVariants.Proofs.Locating
import Mathlib.Data.List.Induction

/-!
# Which texts are trees, and what is wrong with the others

The lexer goes through a text from token to token (`Reached`). A text is a list of trees exactly if
the lexer knows every place it comes to and the brackets it meets are a well-nested word; the trees
are then the tokens it met and nothing else. Otherwise the first fault on its way is reported:
`FirstFault` says for each kind of fault where the lexer stands and which brackets are open there.

The machine that folds lexemes into trees keeps its open groups on a stack. What it has open after
some lexemes is described twice: as the brackets of a word that no later one closes (`Opens`), and as
what is left when the lexemes are taken one by one (`unclosed`).

Main statement: `tokenize_exact`.
-/

namespace InlineVariants

open Text Lexeme

/-! ## The way of the lexer -/

namespace Lexeme

/-- Some terminal matches in front of a text: blanks, a comment or a token. -/
def Matches (cs : List Char) : Prop := (trivia? cs).isSome = true ∨ (token? cs).isSome = true

/-- The lexer comes to an offset of the text, and has met these lexemes on its way. -/
inductive Reached (s : List Char) : List Lexeme → Nat → Prop
  | start : Reached s [] 0
  | skip {ls : List Lexeme} {i n : Nat} :
      Reached s ls i → trivia? (s.drop i) = some n → Reached s ls (i + n)
  | token {ls : List Lexeme} {i n : Nat} {cls : LexemeClass} :
      Reached s ls i → trivia? (s.drop i) = none → token? (s.drop i) = some (cls, n) →
      Reached s (ls ++ [⟨cls, String.ofList (slice s i (i + n : Nat)), .ofOffset s i,
        .ofOffset s (i + n)⟩]) (i + n)

/-- The lexer knows every place of the text that it comes to. -/
def Lexable (s : List Char) : Prop :=
  ∀ ls i, Reached s ls i → i < s.length → Matches (s.drop i)

theorem trivia?_fits {cs : List Char} {n : Nat} (h : trivia? cs = some n) : Fits cs n := by
  rcases trivia?_cases h with ⟨c, rest, rfl, -, rfl⟩ | ⟨rest, rfl, rfl⟩ | ⟨rest, m, rfl, hm, rfl⟩
  · have := length_takeWhile_le isBlank rest
    simp only [Fits, List.length_cons]; omega
  · have := length_takeWhile_le (· != '\n') rest
    simp only [Fits, List.length_cons]; omega
  · have := (take_blockRest? hm).1
    simp only [Fits, List.length_cons]; omega

namespace Reached

variable {s : List Char} {ls : List Lexeme} {i : Nat}

theorem le_length (h : Reached s ls i) : i ≤ s.length := by
  have hfits {j n : Nat} (hj : j ≤ s.length) (hn : Fits (s.drop j) n) : j + n ≤ s.length := by
    have := hn.2
    rw [List.length_drop] at this
    omega
  induction h with
  | start => exact Nat.zero_le _
  | skip _ ht ih => exact hfits ih (trivia?_fits ht)
  | token _ _ ht ih => exact hfits ih (token?_fits ht)

/-- Walking over a stretch of the text leads from one offset to the other. -/
theorem advance_ofOffset {n : Nat} (hi : i ≤ s.length) (hn : n ≤ (s.drop i).length) :
    (Position.ofOffset s i).advance ((s.drop i).take n) = Position.ofOffset s (i + n) := by
  have hin := (Position.ofOffset_inText hi).advance (List.take_append_drop n (s.drop i)).symm
  have hoff : ((Position.ofOffset s i).advance ((s.drop i).take n)).offset = i + n := by
    rw [Position.advance_offset, List.length_take, Nat.min_eq_left hn]
    rfl
  rw [hin.eq_ofOffset, hoff]

/-- What the scanner finds is what the lexer has met so far and what is found from there on. -/
theorem scan_eq (h : Reached s ls i) :
    scan s =
      { lexemes := ls ++ (scanFrom (.ofOffset s i) (s.drop i)).lexemes
        stuck := (scanFrom (.ofOffset s i) (s.drop i)).stuck } := by
  induction h with
  | start =>
    have hfirst : Position.first = Position.ofOffset s 0 := (Position.first_inText s).eq_ofOffset
    rw [scan, hfirst]
    rfl
  | @skip ls i n h ht ih =>
    rw [ih, scanFrom_trivia _ ht, advance_ofOffset h.le_length (trivia?_fits ht).2, List.drop_drop]
  | @token ls i n cls h htr ht ih =>
    obtain ⟨hpos, hle⟩ := token?_fits ht
    have htok : IsToken cls ((s.drop i).take n) ((s.drop i).drop n) := by
      refine ⟨?_, by rwa [List.take_append_drop], ?_⟩
      · intro hnil
        have := congrArg List.length hnil
        rw [List.length_take, Nat.min_eq_left hle] at this
        simp only [List.length_nil] at this
        omega
      · rw [List.take_append_drop, ht, List.length_take, Nat.min_eq_left hle]
    have hslice : slice s i (i + n : Nat) = (s.drop i).take n := by
      rw [slice_natCast, Nat.add_sub_cancel_left]
    have hscan := scanFrom_token (.ofOffset s i) htok
    rw [List.take_append_drop, advance_ofOffset h.le_length hle, List.drop_drop] at hscan
    rw [ih, hscan, hslice]
    simp

/-- The lexer met every lexeme at some time. -/
theorem before {first later : List Lexeme} {l : Lexeme} (h : Reached s (first ++ l :: later) i) :
    ∃ j, Reached s (first ++ [l]) j := by
  generalize hls : first ++ l :: later = ls at h
  induction h generalizing later with
  | start => simp at hls
  | skip _ _ ih => exact ih hls
  | @token ls i n cls h htr ht ih =>
    rcases List.eq_nil_or_concat later with rfl | ⟨later', x, rfl⟩
    · exact ⟨i + n, hls ▸ .token h htr ht⟩
    · rw [List.concat_eq_append, ← List.cons_append, ← List.append_assoc] at hls
      exact ih (List.append_inj_left' hls rfl)

/-- A bracket is one character wide. -/
theorem bracket_stop (h : Reached s ls i) {l : Lexeme} (hl : l ∈ ls) (hb : l.cls.isLeaf = false) :
    l.stop = ⟨l.start.offset + 1, l.start.line, l.start.column + 1⟩ := by
  induction h with
  | start => simp at hl
  | skip _ _ ih => exact ih hl
  | @token ls i n cls h _ ht ih =>
    rcases List.mem_append.1 hl with hl | hl
    · exact ih hl
    · rw [List.mem_singleton] at hl
      subst hl
      obtain ⟨c, rest, hc, rfl, hbr⟩ := bracket?_of_token? hb ht
      have hnext := (Position.ofOffset_inText h.le_length).next hc
      have hline : c ≠ '\n' := by
        rintro rfl
        cases hbr
      rw [Position.next, if_neg hline] at hnext
      exact hnext.eq_ofOffset.symm

/-- The lexer stops at an offset: at the end of the text, or where nothing matches. -/
def StopsAt (s : List Char) (i : Nat) : Prop :=
  (scan s).stuck = none ∧ i = s.length ∨
    ∃ c, (scan s).stuck = some (.ofOffset s i, c) ∧ s[i]? = some c ∧ ¬ Matches (s.drop i)

/-- Where nothing matches, all lexemes have been met, and the scanner tells the character. -/
theorem scan_of_not_matches (h : Reached s ls i) {c : Char} {rest : List Char}
    (hd : s.drop i = c :: rest) (hm : ¬ Matches (s.drop i)) :
    scan s = { lexemes := ls, stuck := some (.ofOffset s i, c) } := by
  obtain ⟨htr, htok⟩ : trivia? (c :: rest) = none ∧ token? (c :: rest) = none := by
    rw [Matches, not_or, hd] at hm
    simpa using hm
  have hscan : scanFrom (.ofOffset s i) (c :: rest) = { stuck := some (.ofOffset s i, c) } := by
    rw [scanFrom]
    simp only [htr, htok]
  rw [h.scan_eq, hd, hscan, List.append_nil]

theorem scan_of_length (h : Reached s ls s.length) : scan s = { lexemes := ls } := by
  rw [h.scan_eq, List.drop_length, scanFrom_nil, List.append_nil]

/-- From every place the lexer goes on until it stops. -/
theorem run (h : Reached s ls i) : ∃ j, Reached s (scan s).lexemes j ∧ StopsAt s j := by
  induction hn : s.length - i using Nat.strong_induction_on generalizing ls i with
  | _ n ih =>
  have hle := h.le_length
  by_cases hi : i = s.length
  · rw [hi] at h
    rw [h.scan_of_length]
    exact ⟨s.length, h, .inl ⟨by rw [h.scan_of_length], rfl⟩⟩
  · cases htr : trivia? (s.drop i) with
    | some m =>
      have := (trivia?_fits htr).1
      exact ih (s.length - (i + m)) (by omega) (.skip h htr) rfl
    | none =>
      cases htok : token? (s.drop i) with
      | some r =>
        have := (token?_fits htok).1
        exact ih (s.length - (i + r.2)) (by omega) (.token h htr htok) rfl
      | none =>
        have hm : ¬ Matches (s.drop i) := by simp [Matches, htr, htok]
        cases hd : s.drop i with
        | nil =>
          have := List.drop_eq_nil_iff.1 hd
          omega
        | cons c rest =>
          have hs := h.scan_of_not_matches hd hm
          have hc : s[i]? = some c := by
            rw [← List.head?_drop, hd]
            rfl
          refine ⟨i, ?_, .inr ⟨c, by rw [hs], hc, hm⟩⟩
          rw [hs]
          exact h

end Reached

/-- The scanner is stuck nowhere exactly if the lexer knows every place it comes to. -/
theorem stuck_eq_none_iff {s : List Char} : (scan s).stuck = none ↔ Lexable s := by
  constructor
  · intro h ls i hr hi
    by_contra hm
    cases hd : s.drop i with
    | nil =>
      have := List.drop_eq_nil_iff.1 hd
      omega
    | cons c rest =>
      rw [hr.scan_of_not_matches hd hm] at h
      cases h
  · intro h
    obtain ⟨i, hr, ⟨hstuck, -⟩ | ⟨c, -, hc, hm⟩⟩ := (Reached.start (s := s)).run
    · exact hstuck
    · exact absurd (h _ i hr (List.getElem?_eq_some_iff.1 hc).1) hm

end Lexeme

/-! ## Bracket words -/

/-- The brackets among some lexemes. -/
def brackets (ls : List Lexeme) : List Lexeme := ls.filter fun l => !l.cls.isLeaf

/-- Every bracket of the word is closed by one of its own kind, and pairs do not cross. -/
inductive WellNested : List Lexeme → Prop
  | nil : WellNested []
  | pair {o c : Lexeme} {d : Delimiter} {inner rest : List Lexeme} :
      o.cls = .opening d → WellNested inner → c.cls = .closing d → WellNested rest →
      WellNested (o :: (inner ++ c :: rest))

/-- No closing bracket of the word is wrong, and these opening ones are left open, the innermost
first. -/
inductive Opens : List Lexeme → List Lexeme → Prop
  | none {word : List Lexeme} : WellNested word → Opens word []
  | one {word inner still : List Lexeme} {o : Lexeme} {d : Delimiter} :
      Opens word still → o.cls = .opening d → WellNested inner →
      Opens (word ++ o :: inner) (o :: still)

theorem WellNested.append {u v : List Lexeme} (hu : WellNested u) (hv : WellNested v) :
    WellNested (u ++ v) := by
  induction hu with
  | nil => exact hv
  | pair ho hin hc _ _ ih =>
    rw [List.cons_append, List.append_assoc, List.cons_append]
    exact .pair ho hin hc ih

theorem Opens.append {word still inner : List Lexeme} (h : Opens word still)
    (hin : WellNested inner) : Opens (word ++ inner) still := by
  cases h with
  | none hw => exact .none (hw.append hin)
  | one h ho hi =>
    rw [List.append_assoc, List.cons_append]
    exact .one h ho (hi.append hin)

/-- What is open behind one more lexeme; nothing when it closes the wrong bracket. -/
def openAfter (still : List Lexeme) (l : Lexeme) : Option (List Lexeme) :=
  match l.cls, still with
  | .opening _, _ => some (l :: still)
  | .closing d, o :: outer => if o.cls = .opening d then some outer else none
  | .closing _, [] => none
  | _, _ => some still

/-- What is open behind some lexemes. -/
def unclosed (still ls : List Lexeme) : Option (List Lexeme) := ls.foldlM openAfter still

theorem openAfter_leaf {still : List Lexeme} {l : Lexeme} (h : l.cls.isLeaf = true) :
    openAfter still l = some still := by
  unfold openAfter
  cases hc : l.cls <;> simp_all [LexemeClass.isLeaf]

theorem openAfter_opening {still : List Lexeme} {l : Lexeme} {d : Delimiter}
    (h : l.cls = .opening d) : openAfter still l = some (l :: still) := by
  simp only [openAfter, h]

theorem openAfter_closing {still : List Lexeme} {o l : Lexeme} {d : Delimiter}
    (ho : o.cls = .opening d) (h : l.cls = .closing d) : openAfter (o :: still) l = some still := by
  simp only [openAfter, h, ho, if_true]

theorem unclosed_cons (still ls : List Lexeme) (l : Lexeme) :
    unclosed still (l :: ls) = (openAfter still l).bind fun now => unclosed now ls :=
  List.foldlM_cons

theorem unclosed_append (still ls ms : List Lexeme) :
    unclosed still (ls ++ ms) = (unclosed still ls).bind fun now => unclosed now ms :=
  List.foldlM_append

/-- Only brackets matter. -/
theorem unclosed_brackets (still ls : List Lexeme) : unclosed still (brackets ls) = unclosed still ls := by
  induction ls generalizing still with
  | nil => rfl
  | cons l ls ih =>
    by_cases hl : l.cls.isLeaf = true
    · rw [unclosed_cons, openAfter_leaf hl, Option.bind_some, ← ih still]
      simp [brackets, hl]
    · have hb : brackets (l :: ls) = l :: brackets ls := by simp [brackets, hl]
      rw [hb, unclosed_cons, unclosed_cons]
      simp only [ih]

/-- A well-nested word opens nothing. -/
theorem WellNested.unclosed_eq {word : List Lexeme} (h : WellNested word) (still : List Lexeme) :
    unclosed still word = some still := by
  induction h generalizing still with
  | nil => rfl
  | @pair o c d inner rest ho _ hc _ ih ih' =>
    rw [unclosed_cons, openAfter_opening ho, Option.bind_some, unclosed_append, ih, Option.bind_some,
      unclosed_cons, openAfter_closing ho hc, Option.bind_some, ih']

theorem Opens.unclosed_eq {word still : List Lexeme} (h : Opens word still) :
    unclosed [] word = some still := by
  induction h with
  | none hw => exact hw.unclosed_eq []
  | one _ ho hin ih =>
    rw [unclosed_append, ih, Option.bind_some, unclosed_cons, openAfter_opening ho, Option.bind_some,
      hin.unclosed_eq]

/-- One more bracket: it is left open, or it closes the innermost open one. -/
theorem Opens.snoc {word still now : List Lexeme} {l : Lexeme} (h : Opens word still)
    (hb : l.cls.isLeaf = false) (hl : openAfter still l = some now) : Opens (word ++ [l]) now := by
  cases hc : l.cls with
  | opening d =>
    rw [openAfter_opening hc, Option.some.injEq] at hl
    exact hl ▸ .one h hc .nil
  | closing d =>
    cases h with
    | none => simp [openAfter, hc] at hl
    | @one word inner still o e h ho hin =>
      simp only [openAfter, hc, Option.ite_none_right_eq_some, Option.some.injEq] at hl
      obtain ⟨hd, rfl⟩ := hl
      rw [List.append_assoc]
      exact h.append (.pair hd hin hc .nil)
  | _ => rw [hc] at hb; cases hb

/-- What is left open, said in both ways. -/
theorem opens_brackets_iff {ls still : List Lexeme} :
    Opens (brackets ls) still ↔ unclosed [] ls = some still := by
  constructor
  · intro h
    rw [← unclosed_brackets]
    exact h.unclosed_eq
  · intro h
    induction ls using List.reverseRecOn generalizing still with
    | nil =>
      obtain rfl : [] = still := Option.some.inj h
      exact .none .nil
    | append_singleton ls l ih =>
      rw [unclosed_append, Option.bind_eq_some_iff] at h
      obtain ⟨before, hbefore, hl⟩ := h
      rw [unclosed_cons, Option.bind_eq_some_iff] at hl
      obtain ⟨now, hnow, hstill⟩ := hl
      obtain rfl : now = still := Option.some.inj hstill
      have hword := ih hbefore
      by_cases hleaf : l.cls.isLeaf = true
      · rw [openAfter_leaf hleaf, Option.some.injEq] at hnow
        simpa [brackets, hleaf, ← hnow] using hword
      · have := hword.snoc (by simpa using hleaf) hnow
        simpa [brackets, hleaf] using this

theorem Opens.wellNested {word : List Lexeme} (h : Opens word []) : WellNested word := by
  cases h with
  | none h => exact h

/-- Where lexemes do not fit together, there is a first one that does not. -/
theorem exists_first_wrong {still ls : List Lexeme} (h : unclosed still ls = none) :
    ∃ before l after now, ls = before ++ l :: after ∧ unclosed still before = some now ∧
      openAfter now l = none := by
  induction ls generalizing still with
  | nil => cases h
  | cons l ls ih =>
    rw [unclosed_cons] at h
    cases hl : openAfter still l with
    | none => exact ⟨[], l, ls, still, rfl, rfl, hl⟩
    | some next =>
      rw [hl, Option.bind_some] at h
      obtain ⟨before, m, after, now, rfl, hbefore, hm⟩ := ih h
      refine ⟨l :: before, m, after, now, rfl, ?_, hm⟩
      rw [unclosed_cons, hl, Option.bind_some, hbefore]

/-! ## Flat trees -/

/-- A token as it shows in a tree: a leaf, or one bracket of a group. -/
inductive FlatToken where
  | leaf (tree : Tree)
  | opening (delimiter : Delimiter) (span : Span)
  | closing (delimiter : Delimiter) (span : Span)

/-- The span of the first character of a span, which is no line feed. -/
def Span.firstChar (s : Span) : Span :=
  { s with endLine := s.line, endColumn := s.column.map (· + 1), stop := s.start.map (· + 1) }

/-- The span of the last character of a span, which is no line feed. -/
def Span.lastChar (s : Span) : Span :=
  { s with line := s.endLine, column := s.endColumn.map (· - 1), start := s.stop.map (· - 1) }

mutual

/-- The tokens of a tree, in order: a group is its opening bracket, its children, its closing
bracket. -/
def Tree.flatten : Tree → List FlatToken
  | .group d stream span =>
    .opening d span.firstChar :: (flattenAll stream ++ [.closing d span.lastChar])
  | .ident text span => [.leaf (.ident text span)]
  | .punct op span => [.leaf (.punct op span)]
  | .literal kind text span => [.leaf (.literal kind text span)]

/-- The tokens of a list of trees, in order. -/
def flattenAll : List Tree → List FlatToken
  | [] => []
  | t :: ts => t.flatten ++ flattenAll ts

end

/-- A lexeme as it shows in a tree. -/
def Lexeme.flat (file : Option String) (l : Lexeme) : FlatToken :=
  match l.cls with
  | .opening d => .opening d (l.span file)
  | .closing d => .closing d (l.span file)
  | _ => .leaf (l.leaf file)

theorem flattenAll_append (ts us : List Tree) :
    flattenAll (ts ++ us) = flattenAll ts ++ flattenAll us := by
  induction ts with
  | nil => rfl
  | cons t ts ih => rw [List.cons_append, flattenAll, ih, flattenAll, List.append_assoc]

theorem Lexeme.flatten_leaf (file : Option String) {l : Lexeme} (h : l.cls.isLeaf = true) :
    (l.leaf file).flatten = [l.flat file] := by
  unfold Lexeme.flat Lexeme.leaf
  cases hc : l.cls <;> simp_all [LexemeClass.isLeaf, Tree.flatten]

/-- A lexeme that is one character wide and no line feed. -/
def Lexeme.IsChar (l : Lexeme) : Prop :=
  l.stop = ⟨l.start.offset + 1, l.start.line, l.start.column + 1⟩

/-- A group between two brackets flattens to the brackets and what is between them. -/
theorem flatten_group (file : Option String) {o c : Lexeme} {d : Delimiter} (children : List Tree)
    (ho : o.cls = .opening d) (hc : c.cls = .closing d) (howide : o.IsChar) (hcwide : c.IsChar) :
    (Tree.group d children (Span.between file o.start c.stop)).flatten =
      o.flat file :: (flattenAll children ++ [c.flat file]) := by
  have hfirst : (Span.between file o.start c.stop).firstChar = o.span file := by
    rw [Lexeme.span, howide]
    simp [Span.firstChar, Span.between]
  have hlast : (Span.between file o.start c.stop).lastChar = c.span file := by
    rw [Lexeme.span, hcwide]
    simp [Span.lastChar, Span.between]
  rw [Tree.flatten, hfirst, hlast]
  simp only [Lexeme.flat, ho, hc]


/-! ## The machine with a stack -/

namespace Tree

variable {file : Option String}

/-- The tokens of all lists of trees that are open. -/
def flattenOpen (file : Option String) : List OpenGroup → List Tree → List FlatToken
  | [], current => flattenAll current.reverse
  | g :: groups, current =>
    flattenOpen file groups g.outer ++ g.opener.flat file :: flattenAll current.reverse

theorem flattenOpen_cons (groups : List OpenGroup) (current : List Tree) (t : Tree) :
    flattenOpen file groups (t :: current) = flattenOpen file groups current ++ t.flatten := by
  cases groups with
  | nil => simp [flattenOpen, flattenAll_append, flattenAll]
  | cons g groups => simp [flattenOpen, flattenAll_append, flattenAll]

/-- What the machine holds after some lexemes: the groups that they leave open, and all their
tokens. -/
structure Holds (file : Option String) (ls : List Lexeme) (groups : List OpenGroup)
    (current : List Tree) : Prop where
  opener : ∀ g ∈ groups, g.opener.cls = .opening g.delimiter
  isChar : ∀ g ∈ groups, g.opener.IsChar
  flat : flattenOpen file groups current = ls.map (Lexeme.flat file)

theorem holds_nil : Holds file [] [] [] where
  opener := by simp
  isChar := by simp
  flat := rfl

namespace Holds

variable {ls : List Lexeme} {groups : List OpenGroup} {current : List Tree} {l : Lexeme}

theorem leaf (h : Holds file ls groups current) (hl : l.cls.isLeaf = true) :
    Holds file (ls ++ [l]) groups (l.leaf file :: current) where
  opener := h.opener
  isChar := h.isChar
  flat := by rw [flattenOpen_cons, h.flat, Lexeme.flatten_leaf file hl, List.map_append]; rfl

theorem opening {d : Delimiter} (h : Holds file ls groups current) (hl : l.cls = .opening d)
    (hw : l.IsChar) : Holds file (ls ++ [l]) (⟨d, l, current⟩ :: groups) [] where
  opener := by
    intro g hg
    rcases List.mem_cons.1 hg with rfl | hg
    · exact hl
    · exact h.opener g hg
  isChar := by
    intro g hg
    rcases List.mem_cons.1 hg with rfl | hg
    · exact hw
    · exact h.isChar g hg
  flat := by rw [flattenOpen, h.flat, List.map_append]; rfl

theorem closing {g : OpenGroup} (h : Holds file ls (g :: groups) current)
    (hl : l.cls = .closing g.delimiter) (hw : l.IsChar) :
    Holds file (ls ++ [l]) groups
      (group g.delimiter current.reverse (Span.between file g.opener.start l.stop) :: g.outer) where
  opener := fun g' hg => h.opener g' (List.mem_cons_of_mem _ hg)
  isChar := fun g' hg => h.isChar g' (List.mem_cons_of_mem _ hg)
  flat := by
    have hflat := h.flat
    rw [flattenOpen] at hflat
    rw [flattenOpen_cons, flatten_group file _ (h.opener g (by simp)) hl (h.isChar g (by simp)) hw,
      List.map_append, ← hflat]
    simp

end Holds

/-- Lexemes that fit together take the machine to the groups they leave open. -/
theorem build_append (stuck : Option (Position × Char)) (rest : List Lexeme)
    {done ls still : List Lexeme} {groups : List OpenGroup} {current : List Tree}
    (h : Holds file done groups current)
    (hw : ∀ l ∈ ls, l.cls.isLeaf = false → l.IsChar)
    (hls : unclosed (groups.map OpenGroup.opener) ls = some still) :
    ∃ groups' current', Holds file (done ++ ls) groups' current' ∧
      groups'.map OpenGroup.opener = still ∧
      build file stuck groups current (ls ++ rest) = build file stuck groups' current' rest := by
  induction ls generalizing done groups current with
  | nil =>
    refine ⟨groups, current, ?_, Option.some.inj hls, rfl⟩
    rw [List.append_nil]
    exact h
  | cons l ls ih =>
    rw [unclosed_cons, Option.bind_eq_some_iff] at hls
    obtain ⟨now, hnow, hstill⟩ := hls
    have hw' : ∀ m ∈ ls, m.cls.isLeaf = false → m.IsChar := fun m hm => hw m (by simp [hm])
    rw [List.cons_append, List.append_cons done l ls]
    cases hc : l.cls with
    | opening d =>
      rw [openAfter_opening hc, Option.some.injEq] at hnow
      subst hnow
      rw [build_opening hc]
      exact ih (h.opening hc (hw l (by simp) (by rw [hc]; rfl))) hw' hstill
    | closing d =>
      cases groups with
      | nil => simp [openAfter, hc] at hnow
      | cons g groups =>
        rw [List.map_cons] at hnow
        simp only [openAfter, hc, Option.ite_none_right_eq_some, Option.some.injEq] at hnow
        obtain ⟨hg, rfl⟩ := hnow
        have hd : g.delimiter = d := by simpa [h.opener g (by simp)] using hg
        subst hd
        rw [build_closing hc]
        exact ih (h.closing hc (hw l (by simp) (by rw [hc]; rfl))) hw' hstill
    | _ =>
      have hleaf : l.cls.isLeaf = true := by rw [hc]; rfl
      rw [openAfter_leaf hleaf, Option.some.injEq] at hnow
      subst hnow
      rw [build_leaf hleaf]
      exact ih (h.leaf hleaf) hw' hstill

end Tree

/-! ## Faults -/

/-- The fault that comes first on the way of the lexer, and where it stands. -/
inductive FirstFault (file : Option String) (s : List Char) : TokenError → Prop
  /-- A closing bracket where none is open. -/
  | unexpected {ls : List Lexeme} {l : Lexeme} {i : Nat} {d : Delimiter} :
      Reached s (ls ++ [l]) i → WellNested (brackets ls) → l.cls = .closing d →
      FirstFault file s ⟨.unexpectedClosing d, l.span file⟩
  /-- A closing bracket that is not of the kind of the innermost open one. -/
  | mismatched {ls still : List Lexeme} {o l : Lexeme} {i : Nat} {d e : Delimiter} :
      Reached s (ls ++ [l]) i → Opens (brackets ls) (o :: still) → o.cls = .opening e →
      l.cls = .closing d → e ≠ d →
      FirstFault file s ⟨.mismatchedClosing d e o.start, l.span file⟩
  /-- A character where nothing matches, behind brackets that are all right. -/
  | character {ls still : List Lexeme} {i : Nat} {c : Char} :
      Reached s ls i → s[i]? = some c → ¬ Matches (s.drop i) → Opens (brackets ls) still →
      FirstFault file s
        ⟨.unexpectedCharacter c,
          { file := file, line := some (lineAt s i), column := some (columnAt s i)
            start := some i, stop := some (i + 1) }⟩
  /-- The end of the text, where a bracket is still open. -/
  | unclosed {ls still : List Lexeme} {o : Lexeme} {d : Delimiter} :
      Reached s ls s.length → Opens (brackets ls) (o :: still) → o.cls = .opening d →
      FirstFault file s ⟨.unclosed d, o.span file⟩

/-- Behind lexemes that fit together, the machine goes on with what they leave open. -/
theorem tokenize_eq_build {s : List Char} {ls rest still : List Lexeme} (file : Option String)
    (hs : (scan s).lexemes = ls ++ rest) (hls : Opens (brackets ls) still) :
    ∃ groups current, Tree.Holds file ls groups current ∧
      groups.map Tree.OpenGroup.opener = still ∧
      tokenize s file = Tree.build file (scan s).stuck groups current rest := by
  obtain ⟨i, hr, -⟩ := (Reached.start (s := s)).run
  have hchar : ∀ l ∈ ls, l.cls.isLeaf = false → l.IsChar := by
    intro l hl hb
    apply hr.bracket_stop _ hb
    rw [hs]
    exact List.mem_append_left _ hl
  obtain ⟨groups, current, hholds, hstill, hbuild⟩ :=
    Tree.build_append (scan s).stuck rest Tree.holds_nil hchar (opens_brackets_iff.1 hls)
  refine ⟨groups, current, hholds, hstill, ?_⟩
  rw [tokenize, ← hbuild, ← hs]

theorem Lexeme.Reached.exists_rest {s : List Char} {ls : List Lexeme} {i : Nat} (h : Reached s ls i) :
    ∃ rest, (scan s).lexemes = ls ++ rest := ⟨_, by rw [h.scan_eq]⟩

/-- The first fault is the one that is reported. -/
theorem FirstFault.tokenize_eq {file : Option String} {s : List Char} {e : TokenError}
    (h : FirstFault file s e) : tokenize s file = .error e := by
  cases h with
  | @unexpected ls l i d hr hn hl =>
    obtain ⟨rest, hs⟩ := hr.exists_rest
    rw [List.append_assoc, List.singleton_append] at hs
    obtain ⟨groups, current, -, hstill, hbuild⟩ := tokenize_eq_build file hs (.none hn)
    obtain rfl : groups = [] := List.map_eq_nil_iff.1 hstill
    rw [hbuild, Tree.build.eq_def]
    simp only [hl]
  | @mismatched ls still o l i d e hr hn ho hl hne =>
    obtain ⟨rest, hs⟩ := hr.exists_rest
    rw [List.append_assoc, List.singleton_append] at hs
    obtain ⟨groups, current, hholds, hstill, hbuild⟩ := tokenize_eq_build file hs hn
    obtain ⟨g, outer, rfl, rfl, -⟩ := List.map_eq_cons_iff.1 hstill
    obtain rfl : g.delimiter = e := by simpa [hholds.opener g (by simp)] using ho
    rw [hbuild, Tree.build.eq_def]
    simp only [hl, hne, if_false]
  | @character ls still i c hr hc hm hn =>
    obtain ⟨hi, hget⟩ := List.getElem?_eq_some_iff.1 hc
    have hd : s.drop i = c :: s.drop (i + 1) := by rw [List.drop_eq_getElem_cons hi, hget]
    have hscan := hr.scan_of_not_matches hd hm
    have hs : (scan s).lexemes = ls ++ [] := by rw [hscan, List.append_nil]
    obtain ⟨groups, current, -, -, hbuild⟩ := tokenize_eq_build file hs hn
    rw [hbuild, Tree.build, hscan]
    rfl
  | @unclosed ls still o d hr hn ho =>
    have hscan := hr.scan_of_length
    have hs : (scan s).lexemes = ls ++ [] := by rw [hscan, List.append_nil]
    obtain ⟨groups, current, hholds, hstill, hbuild⟩ := tokenize_eq_build file hs hn
    obtain ⟨g, outer, rfl, rfl, -⟩ := List.map_eq_cons_iff.1 hstill
    obtain rfl : g.delimiter = d := by simpa [hholds.opener g (by simp)] using ho
    rw [hbuild, Tree.build, hscan]
    rfl

/-- The bracket that is open innermost is an opening one. -/
theorem Opens.head_opening {word still : List Lexeme} {o : Lexeme} (h : Opens word (o :: still)) :
    ∃ d, o.cls = .opening d := by
  cases h with
  | one _ ho _ => exact ⟨_, ho⟩

/-- A lexeme that does not fit is a closing bracket, and nothing is open or the wrong thing. -/
theorem openAfter_eq_none {still : List Lexeme} {l : Lexeme} (h : openAfter still l = none) :
    ∃ d, l.cls = .closing d ∧
      (still = [] ∨ ∃ o outer, still = o :: outer ∧ o.cls ≠ .opening d) := by
  unfold openAfter at h
  split at h
  · cases h
  · rename_i d o outer hl
    split at h
    · cases h
    · exact ⟨d, hl, .inr ⟨o, outer, rfl, ‹_›⟩⟩
  · rename_i d hl
    exact ⟨d, hl, .inl rfl⟩
  · cases h

/-- A text has a first fault, or it is read to its end with nothing left open. -/
theorem firstFault_or (file : Option String) (s : List Char) :
    (∃ e, FirstFault file s e) ∨ Lexable s ∧ WellNested (brackets (scan s).lexemes) := by
  obtain ⟨i, hr, hstop⟩ := (Reached.start (s := s)).run
  cases hopen : unclosed [] (scan s).lexemes with
  | none =>
    left
    obtain ⟨before, l, after, now, hs, hbefore, hl⟩ := exists_first_wrong hopen
    have hnow := opens_brackets_iff.2 hbefore
    rw [hs] at hr
    obtain ⟨j, hj⟩ := hr.before
    obtain ⟨d, hcls, rfl | ⟨o, outer, rfl, hne⟩⟩ := openAfter_eq_none hl
    · exact ⟨_, .unexpected hj hnow.wellNested hcls⟩
    · obtain ⟨e, ho⟩ := hnow.head_opening
      exact ⟨_, .mismatched hj hnow ho hcls (by rintro rfl; exact hne ho)⟩
  | some still =>
    have hstill := opens_brackets_iff.2 hopen
    rcases hstop with ⟨hstuck, hi⟩ | ⟨c, -, hc, hm⟩
    · cases still with
      | nil => exact .inr ⟨stuck_eq_none_iff.1 hstuck, hstill.wellNested⟩
      | cons o still =>
        obtain ⟨d, ho⟩ := hstill.head_opening
        exact .inl ⟨_, .unclosed (hi ▸ hr) hstill ho⟩
    · exact .inl ⟨_, .character hr hc hm hstill⟩

/-- A text that is read to its end with nothing left open gives trees that hold its tokens. -/
theorem tokenize_of_wellNested {s : List Char} (file : Option String) (hs : Lexable s)
    (hn : WellNested (brackets (scan s).lexemes)) :
    ∃ trees, tokenize s file = .ok trees ∧
      flattenAll trees = (scan s).lexemes.map (Lexeme.flat file) := by
  obtain ⟨groups, current, hholds, hstill, hbuild⟩ :=
    tokenize_eq_build file (List.append_nil _).symm (.none hn)
  obtain rfl : groups = [] := List.map_eq_nil_iff.1 hstill
  refine ⟨current.reverse, ?_, hholds.flat⟩
  rw [hbuild, Tree.build, stuck_eq_none_iff.2 hs]
  rfl

/-- A text is read exactly if the lexer knows every place it comes to and the brackets are well
nested. The trees then hold the tokens of the text, and otherwise the first fault is reported. -/
theorem tokenize_exact (s : List Char) (file : Option String) :
    ((∃ trees, tokenize s file = .ok trees) ↔
      Lexable s ∧ WellNested (brackets (scan s).lexemes)) ∧
    (∀ trees, tokenize s file = .ok trees →
      flattenAll trees = (scan s).lexemes.map (Lexeme.flat file)) ∧
    ∀ e, tokenize s file = .error e ↔ FirstFault file s e := by
  rcases firstFault_or file s with ⟨e, he⟩ | ⟨hs, hn⟩
  · have hok (trees : List Tree) : tokenize s file ≠ .ok trees := by simp [he.tokenize_eq]
    refine ⟨⟨fun ⟨trees, h⟩ => absurd h (hok trees), ?_⟩, fun trees h => absurd h (hok trees), ?_⟩
    · rintro ⟨hs, hn⟩
      obtain ⟨trees, h, -⟩ := tokenize_of_wellNested file hs hn
      exact ⟨trees, h⟩
    · intro e'
      refine ⟨fun h => ?_, FirstFault.tokenize_eq⟩
      rw [he.tokenize_eq, Except.error.injEq] at h
      exact h ▸ he
  · obtain ⟨trees, h, hflat⟩ := tokenize_of_wellNested file hs hn
    refine ⟨⟨fun _ => ⟨hs, hn⟩, fun _ => ⟨trees, h⟩⟩, ?_, ?_⟩
    · intro trees' h'
      rw [h, Except.ok.injEq] at h'
      exact h' ▸ hflat
    · intro e
      refine ⟨fun h' => ?_, FirstFault.tokenize_eq⟩
      rw [h] at h'
      cases h'

/-- The closing bracket of the wrong kind comes before the character that nothing matches, and the
outer bracket is never closed. -/
theorem tokenize_exact_first_of_three :
    tokenize "[ ( ] §".toList = .error
      ⟨.mismatchedClosing .bracket .paren ⟨2, 1, 3⟩,
        ⟨none, some 1, some 5, some 1, some 6, some 4, some 5⟩⟩ ∧
    FirstFault none "[ ( ] §".toList
      ⟨.mismatchedClosing .bracket .paren ⟨2, 1, 3⟩,
        ⟨none, some 1, some 5, some 1, some 6, some 4, some 5⟩⟩ := by
  have h : tokenize "[ ( ] §".toList = .error
      ⟨.mismatchedClosing .bracket .paren ⟨2, 1, 3⟩,
        ⟨none, some 1, some 5, some 1, some 6, some 4, some 5⟩⟩ := by cbv
  exact ⟨h, ((tokenize_exact _ _).2.2 _).1 h⟩

end InlineVariants
