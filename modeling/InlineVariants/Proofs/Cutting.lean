import InlineVariants.Proofs.Locating
import InlineVariants.Proofs.Rejoining
import InlineVariants.Proofs.Respanning
import InlineVariants.Proofs.Rewriting

/-!
# The text between two brackets

A text that is cut at the brackets of one of its groups is read as the trees of that group. The scanner
may look ahead, but what it finds behind the closing bracket never decides about a token in front of it
(`IsToken.cut`); and the trees come out with the same spans, counted from another beginning
(`Span.shift`).

Main statement: a definition may be read from the trees of a group or from the text between its
brackets, with the same answer (`parseSource_between`).
-/

namespace InlineVariants

open Text Lexeme

/-! ## Another beginning -/

namespace Text.Position

/-- The position `p` of a text is the position `q` of a text that begins at `base`. Only the first line
of that text begins in the middle of a line. -/
structure Shifts (base q p : Position) : Prop where
  offset : p.offset = base.offset + q.offset
  line : p.line + 1 = base.line + q.line
  column : if q.line = 1 then p.column + 1 = base.column + q.column else p.column = q.column
  line_pos : 1 ≤ q.line

namespace Shifts

variable {base p q : Position}

theorem first (base : Position) : Shifts base .first base where
  offset := rfl
  line := rfl
  column := rfl
  line_pos := Nat.le_refl 1

theorem next (h : Shifts base q p) (c : Char) : Shifts base (q.next c) (p.next c) := by
  obtain ⟨hoffset, hline, hcolumn, hpos⟩ := h
  unfold Position.next
  by_cases hc : c = '\n'
  · simp only [hc, if_true]
    exact ⟨by simp only; omega, by simp only; omega, by rw [if_neg (by simp only; omega)], by simp⟩
  · simp only [hc, if_false]
    refine ⟨by simp only; omega, hline, ?_, hpos⟩
    simp only
    split at hcolumn
    · rw [if_pos ‹_›]
      omega
    · rw [if_neg ‹_›]
      omega

theorem advance (h : Shifts base q p) (cs : List Char) : Shifts base (q.advance cs) (p.advance cs) := by
  induction cs generalizing p q with
  | nil => exact h
  | cons c cs ih =>
    rw [advance_cons, advance_cons]
    exact ih (h.next c)

end Shifts

end Text.Position

namespace Span

/-- A column of a text that begins at `base`. -/
def shiftColumn (base : Position) (line column : Option Int) : Option Int :=
  if line = some 1 then column.map (· + (base.column - 1)) else column

/-- The span in a text of a span in a text that begins at `base`. -/
def shift (file : Option String) (base : Position) (span : Span) : Span :=
  match span.start, span.stop with
  | some a, some b =>
    { file := file
      line := span.line.map (· + (base.line - 1))
      column := shiftColumn base span.line span.column
      endLine := span.endLine.map (· + (base.line - 1))
      endColumn := shiftColumn base span.endLine span.endColumn
      start := some (base.offset + a)
      stop := some (base.offset + b) }
  | _, _ => span

theorem shift_join (file : Option String) (base : Position) (s t : Span) :
    (s.join t).shift file base = (s.shift file base).join (t.shift file base) := by
  obtain ⟨file₁, line₁, column₁, endLine₁, endColumn₁, start₁, stop₁⟩ := s
  obtain ⟨file₂, line₂, column₂, endLine₂, endColumn₂, start₂, stop₂⟩ := t
  cases start₁ <;> cases stop₁ <;> cases start₂ <;> cases stop₂ <;> try rfl
  rename_i a b c d
  have hmax : (base.offset : Int) + max b d = max (base.offset + b) (base.offset + d) := by omega
  by_cases h : a ≤ c
  · have h' : (base.offset : Int) + a ≤ base.offset + c := by omega
    simp only [join, shift, h, h', if_true, hmax, namedFile_self]
  · have h' : ¬ (base.offset : Int) + a ≤ base.offset + c := by omega
    simp only [join, shift, h, h', if_false, hmax, namedFile_self]

theorem shiftColumn_add (base : Position) (line column : Option Int) (k : Int) :
    shiftColumn base line (column.map (· + k)) = (shiftColumn base line column).map (· + k) := by
  unfold shiftColumn
  split
  · cases column with
    | none => rfl
    | some n =>
      simp only [Option.map_some, Option.some.injEq]
      omega
  · rfl

theorem shift_charAt (file : Option String) (base : Position) (s : Span) (i : Nat) :
    (s.charAt i).shift file base = (s.shift file base).charAt i := by
  obtain ⟨_, line, column, _, _, start, stop⟩ := s
  cases start <;> cases stop <;> try rfl
  simp [charAt, shift, Int.add_assoc, shiftColumn_add base line column]

theorem shift_isMove (file : Option String) (base : Position) : IsMove (shift file base) where
  unknown := rfl
  join := shift_join file base
  charAt := shift_charAt file base

theorem shift_between {file file' : Option String} {base p q p' q' : Position}
    (hp : base.Shifts p' p) (hq : base.Shifts q' q) :
    (Span.between file' p' q').shift file base = Span.between file p q := by
  have hcolumn {p p' : Position} (h : base.Shifts p' p) :
      shiftColumn base (some (p'.line : Int)) (some (p'.column : Int)) = some (p.column : Int) := by
    have hc := h.column
    unfold shiftColumn
    split at hc
    · rename_i h1
      rw [if_pos (by rw [h1]; rfl)]
      simp only [Option.map_some, Option.some.injEq]
      omega
    · rw [if_neg (by simp only [Option.some.injEq]; omega), hc]
  have hline {p p' : Position} (h : base.Shifts p' p) :
      (p'.line : Int) + (base.line - 1) = p.line := by
    have := h.line
    omega
  simp only [shift, Span.between, hcolumn hp, hcolumn hq, Option.map_some, hline hp, hline hq,
    hp.offset, hq.offset]
  push_cast
  rfl

end Span

/-! ## Tokens in front of a cut -/

namespace Lexeme

/-- The new text is the old one, cut off behind a token or a gap. -/
structure CutOff (old new : List Char) : Prop where
  look : Lookahead old new
  leavesOpen : LeavesOpen old new
  part : new <+: old

namespace CutOff

variable {old new : List Char}

theorem nil (old : List Char) : CutOff old [] where
  look := .of_inert nofun
  leavesOpen _ _ := rfl
  part := List.nil_prefix

theorem gap_append {gap : List Char} (h : CutOff old new) (hg : Gap gap) :
    CutOff (gap ++ old) (gap ++ new) where
  look := h.look.gap_append h.leavesOpen hg
  leavesOpen := h.leavesOpen.append h.look.shared gap
  part := (List.prefix_append_right_inj gap).2 h.part

theorem token_append {cls : LexemeClass} {text : List Char} (h : CutOff old new)
    (ht : IsToken cls text old) : CutOff (text ++ old) (text ++ new) where
  look := h.look.token_append h.leavesOpen ht
  leavesOpen := h.leavesOpen.append h.look.shared text
  part := (List.prefix_append_right_inj text).2 h.part

end CutOff

/-- A token stays what it is when the text is cut off further behind. -/
theorem IsToken.cut {old new text : List Char} {cls : LexemeClass} (ht : IsToken cls text old)
    (h : CutOff old new) : IsToken cls text new := by
  obtain ⟨tail, hold⟩ := h.part
  refine ht.move h.look ?_ ?_
  · rintro rfl rest rfl
    rw [← hold] at ht
    exact not_isToken_colon (rest ++ tail) ht
  · -- a comment that is closed in front of the cut is a comment in the old text too
    rintro rfl
    have hnone : blockComment? ('/' :: old) = none := by
      have htrivia := ht.not_trivia
      simp only [trivia?, Option.orElse_eq_orElse, Option.orElse_eq_or, Option.or_eq_none_iff] at htrivia
      exact htrivia.1
    rcases new with _ | ⟨c, new⟩
    · rfl
    by_cases hc : c = '*'
    · subst hc
      rw [← hold] at hnone
      simp only [List.cons_append, List.nil_append, blockComment?, Option.map_eq_none_iff] at hnone ⊢
      by_contra hsome
      obtain ⟨n, hn⟩ := Option.ne_none_iff_exists'.1 hsome
      rw [blockRest?_append tail hn] at hnone
      cases hnone
    · simp [blockComment?, hc]

theorem mapSpans_leaf {file file' : Option String} {base p q p' q' : Position} (cls : LexemeClass)
    (text : String) (hp : base.Shifts p' p) (hq : base.Shifts q' q) :
    (Lexeme.leaf file' ⟨cls, text, p', q'⟩).mapSpans (Span.shift file base) =
      Lexeme.leaf file ⟨cls, text, p, q⟩ := by
  have hspan : Span.shift file base (Lexeme.span file' ⟨cls, text, p', q'⟩) =
      Lexeme.span file ⟨cls, text, p, q⟩ := Span.shift_between hp hq
  unfold Lexeme.leaf
  cases cls <;> simp only [Tree.mapSpans_ident, Tree.mapSpans_punct, Tree.mapSpans_literal, hspan]

end Lexeme

/-! ## Reading in front of a cut -/

namespace Reads

variable {file : Option String} {p q : Position} {cs rest : List Char} {ts : List Tree}

/-- What is read in front of a cut is read again when the text begins elsewhere and ends there, with
spans that are counted from the new beginning. -/
theorem cut (h : Reads file p cs ts q rest) {base p' : Position} {rest' : List Char}
    (hp : base.Shifts p' p) (hcut : CutOff rest rest') (file' : Option String) :
    ∃ taken us, cs = taken ++ rest ∧ us.map (Tree.mapSpans (Span.shift file base)) = ts ∧
      Reads file' p' (taken ++ rest') us (p'.advance taken) rest' ∧
      CutOff cs (taken ++ rest') := by
  induction h generalizing p' rest' with
  | nil => exact ⟨[], [], rfl, rfl, .nil, hcut⟩
  | @leaf p q gap text mid rest cls t ts hg ht hl he hr ih =>
    have hgap := hp.advance gap
    have htext := hgap.advance text
    obtain ⟨taken, us, rfl, hus, hr', hcut'⟩ := ih htext hcut
    refine ⟨gap ++ (text ++ taken), Lexeme.leaf file'
      ⟨cls, String.ofList text, p'.advance gap, (p'.advance gap).advance text⟩ :: us, by simp, ?_, ?_, ?_⟩
    · rw [List.map_cons, hus, he, Lexeme.mapSpans_leaf cls _ hgap htext]
    · rw [List.append_assoc, List.append_assoc, Position.advance_append, Position.advance_append]
      exact .leaf hg (ht.cut hcut') hl rfl hr'
    · rw [List.append_assoc, List.append_assoc]
      exact (hcut'.token_append ht).gap_append hg
  | @group p q r gap opening inner gap' closing mid rest d children ts hg ho hr hg' hc hr' ih ih' =>
    obtain ⟨between, hbetween, hq⟩ := hr.exists_append
    have hgap := hp.advance gap
    have hopening := hgap.advance opening
    have hclosing := ((hopening.advance between).advance gap').advance closing
    rw [← hq] at hclosing
    -- what comes behind the group is cut first, since the tokens in the group look ahead at it
    obtain ⟨taken, us, rfl, hus, hread, hcut'⟩ := ih' hclosing hcut
    obtain ⟨between', vs, hinner, hvs, hread', hcutInner⟩ :=
      ih hopening ((hcut'.token_append hc).gap_append hg')
    obtain rfl : between' = between := List.append_cancel_right (hinner.symm.trans hbetween)
    refine ⟨gap ++ (opening ++ (between' ++ (gap' ++ (closing ++ taken)))),
      .group d vs (Span.between file' (p'.advance gap)
        (((((p'.advance gap).advance opening).advance between').advance gap').advance closing)) :: us,
      by rw [hinner]; simp, ?_, ?_, ?_⟩
    · rw [List.map_cons, hus, Tree.mapSpans_group, hvs, Span.shift_between hgap hclosing]
    · simp only [List.append_assoc, Position.advance_append] at hread' hread ⊢
      exact .group hg (ho.cut hcutInner) hread' hg' (hc.cut hcut') hread
    · simp only [List.append_assoc] at hcutInner ⊢
      exact (hcutInner.token_append ho).gap_append hg

/-- The machine with a stack builds what is read. -/
theorem build (h : Reads file p cs ts q rest) (stuck : Option (Position × Char))
    (groups : List Tree.OpenGroup) (current : List Tree) :
    Tree.build file stuck groups current (scanFrom p cs).lexemes =
        Tree.build file stuck groups (ts.reverse ++ current) (scanFrom q rest).lexemes ∧
      (scanFrom p cs).stuck = (scanFrom q rest).stuck := by
  induction h generalizing groups current with
  | nil => exact ⟨rfl, rfl⟩
  | @leaf p q gap text mid rest cls t ts hg ht hl he hr ih =>
    obtain ⟨hbuild, hstuck⟩ := ih groups (t :: current)
    rw [scanFrom_gap hg, scanFrom_token _ ht]
    refine ⟨?_, hstuck⟩
    rw [Tree.build_leaf hl, ← he, hbuild]
    simp
  | @group p q r gap opening inner gap' closing mid rest d children ts hg ho hr hg' hc hr' ih ih' =>
    rw [scanFrom_gap hg, scanFrom_token _ ho]
    dsimp only
    rw [Tree.build_opening rfl]
    obtain ⟨hchildren, hstuck⟩ := ih (⟨d, _, current⟩ :: groups) []
    rw [hchildren, hstuck, scanFrom_gap hg', scanFrom_token _ hc]
    dsimp only
    obtain ⟨hrest, hstuck'⟩ := ih' groups _
    rw [Tree.build_closing rfl]
    refine ⟨?_, hstuck'⟩
    rw [List.append_nil, List.reverse_reverse, hrest]
    simp

end Reads

/-- A text is read as the trees that are written in it, if only blanks and comments are left over. -/
theorem Reads.tokenize {file : Option String} {s rest : List Char} {q : Position} {trees : List Tree}
    (h : Reads file .first s trees q rest) (hrest : scan rest = {}) :
    InlineVariants.tokenize s file = .ok trees := by
  obtain ⟨gap, tail, rfl, hg, ht⟩ := scan_eq_empty_iff.1 hrest
  obtain ⟨hbuild, hstuck⟩ := h.build none [] []
  rw [scanFrom_trailing hg ht] at hbuild hstuck
  have hnone : (scan s).stuck = none := hstuck
  simp only [InlineVariants.tokenize, hnone]
  rw [scan, hbuild]
  simp [Tree.build, Tree.finish]

/-! ## The text of a group -/

/-- A tree at any depth stands somewhere in the text. -/
theorem LieBetween.occurs {file : Option String} {s : List Char} {a b : Nat} {t : Tree} {ts : List Tree}
    (h : LieBetween file s a b ts) (ht : t.Occurs ts) : ∃ i j, t.LiesAt file s i j := by
  induction ht generalizing a b with
  | here ht =>
    obtain ⟨i, j, -, -, hlies⟩ := h.mem ht
    exact ⟨i, j, hlies⟩
  | inside hg _ ih =>
    obtain ⟨i, j, -, -, hlies⟩ := h.mem hg
    exact ih hlies.inner

/-- A group that takes up the text from `a` up to `b` is read between `a + 1` and `b - 1`. -/
theorem Reads.between {file : Option String} {s cs rest : List Char} {p q : Position} {d : Delimiter}
    {contents : List Tree} {span : Span} {a b : Nat}
    (h : Reads file p cs [.group d contents span] q rest) (hp : s.drop p.offset = cs)
    (hlies : (Tree.group d contents span).LiesAt file s a b) :
    ∃ r gap closing mid, Gap gap ∧
      Reads file (Position.ofOffset s (a + 1)) (s.drop (a + 1)) contents r (gap ++ (closing ++ mid)) ∧
      (r.advance gap).offset = b - 1 := by
  obtain ⟨gap, opening, inner, r, gap', closing, mid, rfl, hg, ho, hin, hg', hc, hspan, -⟩ := h.group_inv
  have hcovering : Span.between file (p.advance gap) ((r.advance gap').advance closing) =
      Span.covering file s a b := hspan.symm.trans hlies.span_eq
  have hopen : opening.length = 1 := ho.length_bracket rfl
  have hstart : p.advance gap = Position.ofOffset s a := by
    simp only [Span.between, Span.covering, Span.mk.injEq, Option.some.injEq, Int.natCast_inj,
      true_and] at hcovering
    obtain ⟨hline, hcolumn, -, -, hoffset, -⟩ := hcovering
    rw [Position.ofOffset, ← hline, ← hcolumn, ← hoffset]
  have hstop : ((r.advance gap').advance closing).offset = b :=
    Int.ofNat.inj (Option.some.inj (congrArg Span.stop hcovering))
  have hdrop : s.drop a = opening ++ inner := by
    have := Position.drop_advance hp
    rwa [hstart] at this
  have hbounds := hlies.bounds
  have hbase : (Position.ofOffset s a).advance opening = Position.ofOffset s (a + 1) := by
    have hin := ((Position.ofOffset_inText (by omega)).advance hdrop).eq_ofOffset
    rwa [Position.advance_offset, hopen] at hin
  have hinner : s.drop (a + 1) = inner := by
    rw [← List.drop_drop, hdrop, ← hopen, List.drop_left]
  rw [hstart, hbase, ← hinner] at hin
  rw [Position.advance_offset, hc.length_bracket rfl] at hstop
  exact ⟨r, gap', closing, mid, hg', hin, by omega⟩

/-- A definition may be read from the trees of a group or from the text between its brackets. The text
is read as the trees of the group, with spans that are counted from behind the opening bracket; and
either both refuse, with the same fault, or both give the same definition, up to these spans. -/
theorem parseSource_between {s : List Char} {file : Option String} {trees : List Tree}
    (h : tokenize s file = .ok trees) {d : Delimiter} {contents : List Tree} {span : Span}
    (hocc : (Tree.group d contents span).Occurs trees) (file' : Option String) :
    ∃ a b : Nat, span.start = some (a : Int) ∧ span.stop = some (b : Int) ∧
      ∃ alone, tokenize (slice s (a + 1 : Nat) (b - 1 : Nat)) file' = .ok alone ∧
        alone.map (Tree.mapSpans (Span.shift file (Position.ofOffset s (a + 1)))) = contents ∧
        Variant.SameUpTo (Span.shift file (Position.ofOffset s (a + 1)))
          (Variant.parseSource (slice s (a + 1 : Nat) (b - 1 : Nat)) file')
          (Variant.parse contents span).result := by
  obtain ⟨q, rest, hr, hrest⟩ := tokenize_reads h
  obtain ⟨p', cs', q', rest', hr', hp'⟩ := hr.occurs hocc rfl
  obtain ⟨a, b, hlies⟩ := (hr.lieBetween_ends hrest).occurs hocc
  have hspan : span = Span.covering file s a b := hlies.span_eq
  obtain ⟨r, gap, closing, mid, hg, hread, hstop⟩ := hr'.between hp' hlies
  obtain ⟨taken, alone, hdrop, hmap, halone, -⟩ :=
    hread.cut (.first _) ((CutOff.nil (closing ++ mid)).gap_append hg) file'
  have htext : slice s (a + 1 : Nat) (b - 1 : Nat) = taken ++ (gap ++ []) := by
    obtain ⟨taken', hdrop', hr'⟩ := hread.exists_append
    obtain rfl : taken' = taken := List.append_cancel_right (hdrop'.symm.trans hdrop)
    have hbase : s.drop (Position.ofOffset s (a + 1)).offset = (taken' ++ gap) ++ (closing ++ mid) := by
      rw [List.append_assoc]
      exact hdrop
    rw [List.append_nil, ← hstop, hr', ← Position.advance_append]
    exact slice_advance hbase
  have htokens : tokenize (slice s (a + 1 : Nat) (b - 1 : Nat)) file' = .ok alone := by
    rw [htext]
    exact halone.tokenize (scan_eq_empty_iff.2 ⟨gap, [], rfl, hg, .inl rfl⟩)
  refine ⟨a, b, by rw [hspan]; rfl, by rw [hspan]; rfl, alone, htokens, hmap, ?_⟩
  rw [Variant.parseSource, htokens, ← hmap]
  exact Variant.parse_mapSpans (Span.shift_isMove file _) alone Span.unknown span

/-- What stands between the outer brackets of `e (B(u8= 1))`, written over three lines. -/
def threeLineContents : List Tree :=
  [.ident "B" ⟨some "m", some 2, some 2, some 2, some 3, some 3, some 4⟩,
    .group .paren
      [.ident "u8" ⟨some "m", some 2, some 4, some 2, some 6, some 5, some 7⟩,
        .punct "=" ⟨some "m", some 2, some 6, some 2, some 7, some 7, some 8⟩,
        .literal .number "1" ⟨some "m", some 3, some 1, some 3, some 2, some 9, some 10⟩]
      ⟨some "m", some 2, some 3, some 3, some 3, some 4, some 11⟩]

/-- The text between the brackets begins in the middle of the second line. -/
theorem parseSource_between_lines :
    let span : Span := ⟨some "m", some 2, some 1, some 3, some 4, some 2, some 12⟩
    let trees : List Tree :=
      [.ident "e" ⟨some "m", some 1, some 1, some 1, some 2, some 0, some 1⟩,
        .group .paren threeLineContents span]
    let shift := Span.shift (some "m") ⟨3, 2, 2⟩
    tokenize "e\n(B(u8=\n1))".toList (some "m") = .ok trees ∧
      (Tree.group .paren threeLineContents span).Occurs trees ∧
      ∃ alone, tokenize "B(u8=\n1)".toList none = .ok alone ∧
        alone.map (Tree.mapSpans shift) = threeLineContents ∧
        Variant.SameUpTo shift (Variant.parseSource "B(u8=\n1)".toList none)
          (Variant.parse threeLineContents span).result := by
  have htrees : tokenize "e\n(B(u8=\n1))".toList (some "m") = .ok
      [.ident "e" ⟨some "m", some 1, some 1, some 1, some 2, some 0, some 1⟩,
        .group .paren threeLineContents
          ⟨some "m", some 2, some 1, some 3, some 4, some 2, some 12⟩] := by cbv
  have hocc : (Tree.group .paren threeLineContents
      ⟨some "m", some 2, some 1, some 3, some 4, some 2, some 12⟩).Occurs
      [.ident "e" ⟨some "m", some 1, some 1, some 1, some 2, some 0, some 1⟩,
        .group .paren threeLineContents
          ⟨some "m", some 2, some 1, some 3, some 4, some 2, some 12⟩] := .here (by simp)
  obtain ⟨a, b, ha, hb, halone⟩ := parseSource_between htrees hocc none
  obtain rfl : 2 = a := Int.ofNat.inj (Option.some.inj ha)
  obtain rfl : 12 = b := Int.ofNat.inj (Option.some.inj hb)
  exact ⟨htrees, hocc, halone⟩

end InlineVariants
