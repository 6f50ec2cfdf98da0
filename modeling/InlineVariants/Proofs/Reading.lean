import InlineVariants.Proofs.Skipping
import InlineVariants.Token.Build

/-!
# How trees lie in the text

`Reads file p cs trees q rest` says that the trees are what is written in `cs` from position `p` on,
up to position `q` with `rest` left over: gaps and tokens take turns, a leaf carries the text and the
ends of its token, and the span of a group runs from its opening to its closing bracket.

Main statement: the trees of a text are what is written in it (`tokenize_reads`). The brackets are
matched by a machine with a stack, so the invariant (`Opened`) speaks of the lists of trees that are
still open.
-/

namespace InlineVariants

open Text Lexeme

theorem Lexeme.leaf_span (file : Option String) (l : Lexeme) : (l.leaf file).span = l.span file := by
  unfold Lexeme.leaf; cases l.cls <;> rfl

/-- The trees are what is written in the text `cs` at `p`, and end at `q` in front of `rest`. -/
inductive Reads (file : Option String) :
    Position → List Char → List Tree → Position → List Char → Prop
  | nil {p : Position} {cs : List Char} : Reads file p cs [] p cs
  | leaf {p q : Position} {gap text mid rest : List Char} {cls : LexemeClass} {t : Tree}
      {ts : List Tree} :
      Gap gap → IsToken cls text mid → cls.isLeaf = true →
      t = Lexeme.leaf file ⟨cls, String.ofList text, p.advance gap, (p.advance gap).advance text⟩ →
      Reads file ((p.advance gap).advance text) mid ts q rest →
      Reads file p (gap ++ (text ++ mid)) (t :: ts) q rest
  | group {p q r : Position} {gap opening inner gap' closing mid rest : List Char} {d : Delimiter}
      {children ts : List Tree} :
      Gap gap → IsToken (.opening d) opening inner →
      Reads file ((p.advance gap).advance opening) inner children q (gap' ++ (closing ++ mid)) →
      Gap gap' → IsToken (.closing d) closing mid →
      Reads file ((q.advance gap').advance closing) mid ts r rest →
      Reads file p (gap ++ (opening ++ inner))
        (.group d children
          (Span.between file (p.advance gap) ((q.advance gap').advance closing)) :: ts) r rest

namespace Reads

variable {file : Option String}

theorem append {p q r : Position} {cs mid rest : List Char} {ts us : List Tree}
    (h : Reads file p cs ts q mid) (h' : Reads file q mid us r rest) :
    Reads file p cs (ts ++ us) r rest := by
  induction h with
  | nil => exact h'
  | leaf hg ht hl he _ ih => exact .leaf hg ht hl he (ih h')
  | group hg ho hr hg' hc _ _ ih => exact .group hg ho hr hg' hc (ih h')

/-- Reading takes a stretch of text from the front. -/
theorem exists_append {p q : Position} {cs rest : List Char} {ts : List Tree}
    (h : Reads file p cs ts q rest) : ∃ taken, cs = taken ++ rest ∧ q = p.advance taken := by
  induction h with
  | nil => exact ⟨[], rfl, rfl⟩
  | @leaf p q gap text mid rest cls t ts _ _ _ _ _ ih =>
    obtain ⟨taken, rfl, rfl⟩ := ih
    exact ⟨gap ++ (text ++ taken), by simp, by simp [Position.advance_append]⟩
  | @group p q r gap opening inner gap' closing mid rest d children ts _ _ _ _ _ _ ih1 ih2 =>
    obtain ⟨taken1, rfl, rfl⟩ := ih1
    obtain ⟨taken2, rfl, rfl⟩ := ih2
    exact ⟨gap ++ (opening ++ (taken1 ++ (gap' ++ (closing ++ taken2)))), by simp,
      by simp [Position.advance_append]⟩

theorem rest_suffix {p q : Position} {cs rest : List Char} {ts : List Tree}
    (h : Reads file p cs ts q rest) : rest <:+ cs := by
  obtain ⟨taken, rfl, -⟩ := h.exists_append
  exact List.suffix_append _ _

/-- What is left at the end is the rest of the text at that position. -/
theorem drop_stop {p q : Position} {s cs rest : List Char} {ts : List Tree}
    (h : Reads file p cs ts q rest) (hp : s.drop p.offset = cs) : s.drop q.offset = rest := by
  obtain ⟨taken, rfl, rfl⟩ := h.exists_append
  exact Position.drop_advance hp

theorem offset_le {p q : Position} {cs rest : List Char} {ts : List Tree}
    (h : Reads file p cs ts q rest) : p.offset ≤ q.offset := by
  obtain ⟨taken, -, rfl⟩ := h.exists_append
  rw [Position.advance_offset]; omega

/-- The first tree begins behind a gap, and may as well be read from there. -/
theorem head_start {p q : Position} {cs rest : List Char} {t : Tree} {ts : List Tree}
    (h : Reads file p cs (t :: ts) q rest) :
    ∃ gap cs', cs = gap ++ cs' ∧ Gap gap ∧ t.span.start = some ((p.advance gap).offset : Int) ∧
      Reads file (p.advance gap) cs' (t :: ts) q rest := by
  cases h with
  | @leaf _ _ gap text mid _ cls _ _ hg ht hl he hr =>
    refine ⟨gap, text ++ mid, rfl, hg, ?_, .leaf .nil ht hl he hr⟩
    rw [he, Lexeme.leaf_span]; rfl
  | @group _ _ _ gap opening inner _ _ _ _ _ _ _ hg ho hr hg' hc hr' =>
    exact ⟨gap, opening ++ inner, rfl, hg, rfl, .group .nil ho hr hg' hc hr'⟩

/-- The last tree ends where reading ended. -/
theorem last_stop {p q : Position} {cs rest : List Char} {t : Tree} {ts : List Tree}
    (h : Reads file p cs ts q rest) (hl : ts.getLast? = some t) :
    t.span.stop = some (q.offset : Int) := by
  induction h with
  | nil => simp at hl
  | @leaf _ _ gap text mid _ cls u us _ _ _ he hr ih =>
    cases us with
    | nil =>
      obtain rfl : u = t := by simpa using hl
      cases hr
      rw [he, Lexeme.leaf_span]; rfl
    | cons => exact ih (by simpa [List.getLast?_cons_cons] using hl)
  | @group _ _ _ _ _ _ _ _ _ _ _ _ us _ _ _ _ _ hr _ ih =>
    cases us with
    | nil =>
      obtain rfl := by simpa using hl
      cases hr
      rfl
    | cons => exact ih (by simpa [List.getLast?_cons_cons] using hl)

/-- How a tree without brackets is read. -/
theorem leaf_inv {p q : Position} {cs rest : List Char} {t : Tree}
    {ts : List Tree} (h : Reads file p cs (t :: ts) q rest)
    (ht : ∀ d contents span, t = .group d contents span → d = .invisible) :
    ∃ gap text mid cls, cs = gap ++ (text ++ mid) ∧ Gap gap ∧ IsToken cls text mid ∧
      cls.isLeaf = true ∧
      t = Lexeme.leaf file
        ⟨cls, String.ofList text, p.advance gap, (p.advance gap).advance text⟩ ∧
      Reads file ((p.advance gap).advance text) mid ts q rest := by
  cases h with
  | leaf hg htok hl he hr => exact ⟨_, _, _, _, rfl, hg, htok, hl, he, hr⟩
  | group hg ho hr hg' hc hr' => exact absurd (ht _ _ _ rfl) ho.opening.2

theorem leaf_ne_group {l : Lexeme} {d : Delimiter} {contents : List Tree} {span : Span} :
    l.leaf file ≠ .group d contents span := by
  unfold Lexeme.leaf; cases l.cls <;> simp

/-- How a group is read. -/
theorem group_inv {p r : Position} {cs rest : List Char} {d : Delimiter} {contents ts : List Tree}
    {span : Span} (h : Reads file p cs (.group d contents span :: ts) r rest) :
    ∃ gap opening inner q gap' closing mid, cs = gap ++ (opening ++ inner) ∧ Gap gap ∧
      IsToken (.opening d) opening inner ∧
      Reads file ((p.advance gap).advance opening) inner contents q (gap' ++ (closing ++ mid)) ∧
      Gap gap' ∧ IsToken (.closing d) closing mid ∧
      span = Span.between file (p.advance gap) ((q.advance gap').advance closing) ∧
      Reads file ((q.advance gap').advance closing) mid ts r rest := by
  cases h with
  | leaf _ _ _ he _ => exact absurd he.symm leaf_ne_group
  | group hg ho hr hg' hc hr' =>
    exact ⟨_, _, _, _, _, _, _, rfl, hg, ho, hr, hg', hc, rfl, hr'⟩

theorem cons_inv {p r : Position} {cs rest : List Char} {t : Tree} {ts : List Tree}
    (h : Reads file p cs (t :: ts) r rest) :
    ∃ q mid, Reads file p cs [t] q mid ∧ Reads file q mid ts r rest := by
  cases h with
  | leaf hg ht hl he h => exact ⟨_, _, .leaf hg ht hl he .nil, h⟩
  | group hg ho hr hg' hc h => exact ⟨_, _, .group hg ho hr hg' hc .nil, h⟩

/-- A text is read in one way up to a list and from there on. -/
theorem append_inv {p r : Position} {cs rest : List Char} {ts us : List Tree}
    (h : Reads file p cs (ts ++ us) r rest) :
    ∃ q mid, Reads file p cs ts q mid ∧ Reads file q mid us r rest := by
  induction ts generalizing p cs with
  | nil => exact ⟨p, cs, .nil, h⟩
  | cons t ts ih =>
    obtain ⟨q₁, mid₁, h₁, h⟩ := cons_inv h
    obtain ⟨q₂, mid₂, h₂, h⟩ := ih h
    exact ⟨q₂, mid₂, h₁.append h₂, h⟩

end Reads

/-! ## The machine with a stack -/

namespace Tree

variable {file : Option String}

theorem build_leaf {stuck : Option (Position × Char)} {groups : List OpenGroup}
    {current : List Tree} {l : Lexeme} {ls : List Lexeme} (h : l.cls.isLeaf = true) :
    build file stuck groups current (l :: ls) =
      build file stuck groups (l.leaf file :: current) ls := by
  rw [build.eq_def]
  cases hc : l.cls <;> simp_all [LexemeClass.isLeaf]

theorem build_opening {stuck : Option (Position × Char)} {groups : List OpenGroup}
    {current : List Tree} {l : Lexeme} {ls : List Lexeme} {d : Delimiter}
    (h : l.cls = .opening d) :
    build file stuck groups current (l :: ls) =
      build file stuck (⟨d, l, current⟩ :: groups) [] ls := by
  rw [build.eq_def]; simp only [h]

theorem build_closing {stuck : Option (Position × Char)} {g : OpenGroup}
    {groups : List OpenGroup} {current : List Tree} {l : Lexeme} {ls : List Lexeme}
    (h : l.cls = .closing g.delimiter) :
    build file stuck (g :: groups) current (l :: ls) =
      build file stuck groups
        (group g.delimiter current.reverse (Span.between file g.opener.start l.stop) :: g.outer)
        ls := by
  rw [build.eq_def]; simp only [h, if_true]

/-- A closing bracket is accepted only by the innermost open group. -/
theorem build_closing_ok {stuck : Option (Position × Char)} {groups : List OpenGroup}
    {current trees : List Tree} {l : Lexeme} {ls : List Lexeme} {d : Delimiter}
    (h : l.cls = .closing d) (hok : build file stuck groups current (l :: ls) = .ok trees) :
    ∃ g outer, groups = g :: outer ∧ g.delimiter = d := by
  cases groups with
  | nil => rw [build.eq_def] at hok; simp [h] at hok
  | cons g outer =>
    refine ⟨g, outer, rfl, ?_⟩
    rw [build.eq_def] at hok
    simp only [h] at hok
    split at hok
    · assumption
    · simp at hok

/-- A text where scanning got stuck has no trees. -/
theorem build_stuck {stuck : Position × Char} {groups : List OpenGroup} {current trees : List Tree}
    {ls : List Lexeme} : build file (some stuck) groups current ls ≠ .ok trees := by
  induction ls generalizing groups current with
  | nil => rw [build, finish]; simp
  | cons l ls ih =>
    rw [build.eq_def]
    simp only
    split
    · exact ih
    · simp
    · split
      · exact ih
      · simp
    · exact ih

/-- Where the lists of trees that are still open lie in the text `s`: the current list ends at `q`,
and every open group stands behind the trees of the list around it. -/
inductive Opened (file : Option String) (s : List Char) :
    List OpenGroup → List Tree → Position → List Char → Prop
  | base {current : List Tree} {q : Position} {cs : List Char} :
      Reads file .first s current.reverse q cs → Opened file s [] current q cs
  | push {groups : List OpenGroup} {outer current : List Tree} {p q : Position}
      {gap opening inner cs : List Char} {d : Delimiter} :
      Opened file s groups outer p (gap ++ (opening ++ inner)) →
      Gap gap → IsToken (.opening d) opening inner →
      Reads file ((p.advance gap).advance opening) inner current.reverse q cs →
      Opened file s
        (⟨d, ⟨.opening d, String.ofList opening, p.advance gap, (p.advance gap).advance opening⟩,
          outer⟩ :: groups) current q cs

/-- A tree that is read behind the current list is added to it. -/
theorem Opened.snoc {s : List Char} {groups : List OpenGroup} {current : List Tree} {t : Tree}
    {p q : Position} {cs rest : List Char} (h : Opened file s groups current p cs)
    (ht : Reads file p cs [t] q rest) : Opened file s groups (t :: current) q rest := by
  cases h with
  | base hr => exact .base (by simpa using hr.append ht)
  | push ho hg hop hr => exact .push ho hg hop (by simpa using hr.append ht)

/-- A closing bracket makes one tree of the innermost open group. -/
theorem Opened.close {s : List Char} {g : OpenGroup} {groups : List OpenGroup}
    {current : List Tree} {q : Position} {gap closing rest : List Char}
    (h : Opened file s (g :: groups) current q (gap ++ (closing ++ rest)))
    (hg : Gap gap) (hc : IsToken (.closing g.delimiter) closing rest) :
    Opened file s groups
      (group g.delimiter current.reverse
        (Span.between file g.opener.start ((q.advance gap).advance closing)) :: g.outer)
      ((q.advance gap).advance closing) rest := by
  cases h with
  | push ho hg' hop hr => exact ho.snoc (.group hg' hop hr hg hc .nil)

/-- Building a list of trees from scanned text reads the text. -/
theorem build_reads {s cs : List Char} {p : Position} {groups : List OpenGroup}
    {current trees : List Tree} (ho : Opened file s groups current p cs)
    (hs : (scanFrom p cs).stuck = none)
    (hb : build file none groups current (scanFrom p cs).lexemes = .ok trees) :
    ∃ q rest, Reads file .first s trees q rest ∧ scan rest = {} := by
  induction hn : cs.length using Nat.strong_induction_on
    generalizing p cs groups current with
  | _ n ih =>
  subst hn
  rcases scanFrom_cases hs with ⟨gap, tail, rfl, hg, ht, he⟩ | ⟨gap, cls, text, rest, rfl, hg, ht⟩
  · rw [he, build] at hb
    cases ho with
    | base hr =>
      simp only [finish, Except.ok.injEq] at hb
      exact ⟨p, gap ++ tail, hb ▸ hr, scan_eq_empty_iff.2 ⟨gap, tail, rfl, hg, ht⟩⟩
    | push => simp [finish] at hb
  · have hlen : rest.length < (gap ++ (text ++ rest)).length := by
      have := List.length_pos_iff.2 ht.ne_nil
      simp; omega
    rw [scanFrom_gap hg, scanFrom_token _ ht] at hs hb
    simp only at hs hb
    cases hcls : cls with
    | opening d =>
      subst hcls
      rw [build_opening rfl] at hb
      exact ih _ hlen (.push ho hg ht .nil) hs hb rfl
    | closing d =>
      subst hcls
      obtain ⟨g, outer, rfl, rfl⟩ := build_closing_ok rfl hb
      rw [build_closing rfl] at hb
      exact ih _ hlen (ho.close hg ht) hs hb rfl
    | _ =>
      have hl : cls.isLeaf = true := by rw [hcls]; rfl
      rw [build_leaf hl] at hb
      exact ih _ hlen (ho.snoc (.leaf hg ht hl rfl .nil)) hs hb rfl

end Tree

/-- The trees of a text are what is written in it, and nothing but blanks and comments is left over
behind them. -/
theorem tokenize_reads {s : List Char} {file : Option String} {trees : List Tree}
    (h : tokenize s file = .ok trees) :
    ∃ q rest, Reads file .first s trees q rest ∧ Lexeme.scan rest = {} := by
  unfold tokenize at h
  simp only at h
  cases hs : (Lexeme.scan s).stuck with
  | some stuck => rw [hs] at h; exact absurd h Tree.build_stuck
  | none =>
    rw [hs] at h
    exact Tree.build_reads (.base .nil) hs h

end InlineVariants
