import InlineVariants.Proofs.Ordering

/-!
# Where diagnostics point

A marker that cannot be read is reported once, at a place between its brackets. The place comes from
many sites: the next tree, the trees of an entry, the sign in front of a missing value, and the
brackets themselves where nothing is left. All of them are stretches of the marker's own text, also
where a token was split on the way; a reader that keeps to its region (`Reader.KeepsTo`) can point
nowhere else.

Main statement: diagnostics and rejected markers come in pairs, in the order of the text, and what the
diagnostics point at does not overlap (`walk_diagnostics_located`).
-/

namespace InlineVariants

open Text

section

variable {file : Option String} {s : List Char} {a b : Nat}

/-! ## Split tokens in the text -/

/-- Behind characters that end no line, the line is the same and the column has grown. -/
theorem lineAt_columnAt_add {cs rest : List Char} (h : s.drop a = cs ++ rest)
    (hcs : ∀ c ∈ cs, c ≠ '\n') :
    lineAt s (a + cs.length) = lineAt s a ∧ columnAt s (a + cs.length) = columnAt s a + cs.length := by
  induction cs generalizing a with
  | nil => exact ⟨rfl, rfl⟩
  | cons c cs ih =>
    have ha : a ≤ s.length := by
      have hlen := congrArg List.length h
      rw [List.length_drop, List.length_append, List.length_cons] at hlen
      omega
    have hc : c ≠ '\n' := hcs c List.mem_cons_self
    have hnext := (Position.ofOffset_inText ha).next h
    simp only [Position.next, Position.ofOffset, hc, if_false] at hnext
    have hdrop : s.drop (a + 1) = cs ++ rest := by
      rw [← List.drop_drop, h]
      rfl
    obtain ⟨hline, hcolumn⟩ := ih hdrop fun x hx => hcs x (List.mem_cons_of_mem c hx)
    have hlineNext : lineAt s (a + 1) = lineAt s a := hnext.line.symm
    have hcolumnNext : columnAt s (a + 1) = columnAt s a + 1 := hnext.column.symm
    rw [List.length_cons, show a + (cs.length + 1) = a + 1 + cs.length by omega]
    exact ⟨hline.trans hlineNext, by omega⟩

/-- One character of a token is cut out of the text. -/
theorem CutOut.piece {op text : String} {span : Span} {c : Char} (h : CutOut file s a b op span)
    (htext : text.toList = [c]) (pre : List Char) {post : List Char}
    (hop : op.toList = pre ++ c :: post) (hline : '\n' ∉ op.toList) :
    CutOut file s (a + pre.length) (a + pre.length + 1) text (span.charAt pre.length) := by
  obtain ⟨hab, hb, hslice, rfl⟩ := h
  rw [slice_natCast, hop] at hslice
  have hlen := congrArg List.length hslice
  simp only [List.length_append, List.length_cons, List.length_take, List.length_drop] at hlen
  have hdrop : s.drop a = pre ++ ([c] ++ (post ++ s.drop b)) := by
    rw [← List.take_append_drop (b - a) (s.drop a), ← hslice, List.drop_drop,
      Nat.add_sub_cancel' (Nat.le_of_lt hab)]
    simp
  have hdrop' : s.drop (a + pre.length) = [c] ++ (post ++ s.drop b) := by
    rw [← List.drop_drop, hdrop, List.drop_left]
  have hmem (x : Char) (hx : x ∈ pre ++ c :: post) : x ≠ '\n' := by
    rintro rfl
    exact hline (hop ▸ hx)
  obtain ⟨hl, hc⟩ := lineAt_columnAt_add hdrop fun x hx => hmem x (List.mem_append_left _ hx)
  obtain ⟨hl', hc'⟩ := lineAt_columnAt_add hdrop' (by simpa using hmem c (by simp))
  rw [List.length_singleton] at hl' hc'
  refine ⟨by omega, by omega, ?_, ?_⟩
  · rw [slice_natCast, hdrop', Nat.add_sub_cancel_left, htext]
    rfl
  · simp only [Span.covering, Span.charAt, hl', hc', hl, hc, Option.map_some]
    push_cast
    rfl

/-- A token that is split lies where it lay. -/
theorem LieBetween.pieces {op : String} {span : Span} {n : Nat} {us : List Tree} {i j : Nat}
    (h : CutOut file s i j op span) (hop : gluedAngles? op = some n) (hus : LieBetween file s j b us) :
    LieBetween file s i b (anglePieces span n ++ equalsPiece span n :: us) := by
  have hlen : op.toList.length = j - i := by
    have := h.2.1
    rw [h.2.2.1, slice_natCast, List.length_take, List.length_drop]
    omega
  have hij := h.1
  have hle := hus.le
  have hangle : (">" : String).toList = ['>'] := rfl
  have hequals : ("=" : String).toList = ['='] := rfl
  rcases gluedAngles?_cases hop with ⟨rfl, rfl⟩ | ⟨rfl, rfl⟩
  · have hj : j = i + 2 := by
      have : (">=" : String).toList.length = 2 := rfl
      omega
    subst hj
    have hfirst := h.piece hangle [] rfl (by decide)
    have hlast := h.piece hequals ['>'] rfl (by decide)
    exact ⟨i, i + 1, Nat.le_refl i, by omega, .nil, hfirst,
      i + 1, i + 2, Nat.le_refl _, hle, .nil, hlast, hus⟩
  · have hj : j = i + 3 := by
      have : (">>=" : String).toList.length = 3 := rfl
      omega
    subst hj
    have hfirst := h.piece hangle [] rfl (by decide)
    have hsecond := h.piece hangle ['>'] rfl (by decide)
    have hlast := h.piece hequals ['>', '>'] rfl (by decide)
    exact ⟨i, i + 1, Nat.le_refl i, by omega, .nil, hfirst,
      i + 1, i + 2, Nat.le_refl _, by omega, .nil, hsecond,
      i + 2, i + 3, Nat.le_refl _, hle, .nil, hlast, hus⟩

/-- Splitting tokens keeps trees where they stand in the text. -/
theorem Splits.lieBetween {ts us : List Tree} (h : Splits ts us) (hts : LieBetween file s a b ts) :
    LieBetween file s a b us := by
  induction h generalizing a b with
  | nil => exact hts
  | keep _ ih =>
    obtain ⟨i, j, hi, hj, hskip, ht, hrest⟩ := hts
    exact ⟨i, j, hi, hj, hskip, ht, ih hrest⟩
  | pieces hop _ ih =>
    obtain ⟨i, j, hi, hj, hskip, ht, hrest⟩ := hts
    exact .skip hi hskip (.pieces ht hop (ih hrest))
  | inside _ _ ihin ih =>
    obtain ⟨i, j, hi, hj, hskip, ⟨hij, hjs, hspan, hopen, hclose, hin⟩, hrest⟩ := hts
    exact ⟨i, j, hi, hj, hskip, ⟨hij, hjs, hspan, hopen, hclose, ihin hin⟩, ih hrest⟩

/-! ## Spans of stretches -/

/-- The span covers a stretch of the text, which is not empty and lies between two offsets. -/
def Span.Within (file : Option String) (s : List Char) (a b : Nat) (span : Span) : Prop :=
  ∃ i j, a ≤ i ∧ i < j ∧ j ≤ b ∧ span = Span.covering file s i j

theorem Span.Within.mono {span : Span} {a' b' : Nat} (h : span.Within file s a b) (ha : a' ≤ a)
    (hb : b ≤ b') : span.Within file s a' b' := by
  obtain ⟨i, j, hi, hij, hj, rfl⟩ := h
  exact ⟨i, j, Nat.le_trans ha hi, hij, Nat.le_trans hj hb, rfl⟩

theorem Span.Within.offsets {span : Span} (h : span.Within file s a b) :
    span.known = true ∧ a ≤ span.startOffset ∧ span.stopOffset ≤ b := by
  obtain ⟨i, j, hi, -, hj, rfl⟩ := h
  exact ⟨rfl, hi, hj⟩

theorem Span.Within.orElse {span : Span} (h : span.Within file s a b) (other : Span) :
    span.orElse other = span := by
  obtain ⟨i, j, -, -, -, rfl⟩ := h
  rfl

/-- Two stretches in the order of the text are joined into one. -/
theorem Span.covering_join {i j k l : Nat} (hik : i ≤ k) (hjl : j ≤ l) :
    (Span.covering file s i j).join (Span.covering file s k l) = Span.covering file s i l := by
  have hstart : (i : Int) ≤ k := by omega
  have hstop : max (j : Int) l = l := by omega
  simp [Span.join, Span.covering, hstart, hstop, Span.namedFile_self]

/-- The span that begins as the first one and ends as the second one. -/
def Span.through (first last : Span) : Span :=
  { first with endLine := last.endLine, endColumn := last.endColumn, stop := last.stop }

theorem Span.covering_through (i j k l : Nat) :
    (Span.covering file s i j).through (Span.covering file s k l) = Span.covering file s i l := rfl

theorem streamSpan_concat (ts : List Tree) (t : Tree) :
    streamSpan (ts ++ [t]) = (streamSpan ts).join t.span := by
  simp [streamSpan, Span.joinAll]

/-- Trees that stand in the text cover it from the beginning of the first to the end of the last one. -/
theorem LieBetween.streamSpan_eq {ts : List Tree} (h : LieBetween file s a b ts) (hne : ts ≠ []) :
    streamSpan ts = (ts.head hne).span.through (ts.getLast hne).span := by
  induction ts using List.reverseRecOn generalizing b with
  | nil => exact absurd rfl hne
  | append_singleton ts u ih =>
    obtain ⟨c, hfront, k, l, hk, -, -, hu, -⟩ := h.append_inv
    have hkl := hu.bounds
    rw [List.getLast_append_singleton, streamSpan_concat]
    cases ts with
    | nil => simp [streamSpan, Span.joinAll, Span.join, Span.unknown, Span.through]
    | cons t ts =>
      obtain ⟨i, j, -, hj, ht⟩ := hfront.mem List.mem_cons_self
      obtain ⟨m, n, -, hn, hlast⟩ := hfront.mem (List.getLast_mem (List.cons_ne_nil t ts))
      have hij := ht.bounds
      rw [ih hfront (List.cons_ne_nil t ts), List.head_cons, hlast.span_eq, hu.span_eq]
      show (t.span.through _).join _ = t.span.through _
      rw [ht.span_eq, Span.covering_through, Span.covering_through,
        Span.covering_join (by omega) (by omega)]

/-- Trees that stand in the text cover a stretch of it. -/
theorem LieBetween.streamSpan_within {ts : List Tree} (h : LieBetween file s a b ts) (hne : ts ≠ []) :
    (streamSpan ts).Within file s a b := by
  rw [h.streamSpan_eq hne]
  obtain ⟨t, ts, rfl⟩ := List.exists_cons_of_ne_nil hne
  obtain ⟨i, j, hi, hj, -, ht, hrest⟩ := h
  have hij := ht.bounds
  rw [List.head_cons, ht.span_eq]
  cases ts with
  | nil =>
    rw [List.getLast_singleton, ht.span_eq]
    exact ⟨i, j, hi, hij.1, hj, rfl⟩
  | cons u us =>
    rw [List.getLast_cons_cons]
    obtain ⟨k, l, hk, hl, hlast⟩ := hrest.mem (List.getLast_mem (List.cons_ne_nil u us))
    have hkl := hlast.bounds
    rw [hlast.span_eq]
    exact ⟨i, l, hi, by omega, hl, rfl⟩

theorem LieBetween.part {ts part : List Tree} (h : LieBetween file s a b ts) (hp : part <:+: ts) :
    ∃ i j, a ≤ i ∧ j ≤ b ∧ LieBetween file s i j part := by
  obtain ⟨pre, post, rfl⟩ := hp
  obtain ⟨j, hfront, hpost⟩ := h.append_inv
  obtain ⟨i, hpre, hpart⟩ := hfront.append_inv
  exact ⟨i, j, hpre.le, hpost.le, hpart⟩

theorem LieBetween.span_within {ts : List Tree} {t : Tree} (h : LieBetween file s a b ts)
    (ht : t ∈ ts) : t.span.Within file s a b := by
  obtain ⟨i, j, hi, hj, hlies⟩ := h.mem ht
  exact ⟨i, j, hi, hlies.bounds.1, hj, hlies.span_eq⟩

/-! ## Cursors in the text -/

/-- The trees of the level stand between the brackets of the region, which is a stretch of the text. -/
structure Cursor.Lies (file : Option String) (s : List Char) (a b : Nat) (c : Cursor) : Prop where
  stream : LieBetween file s (a + 1) (b - 1) c.stream
  region : c.region = Span.covering file s a b

namespace Cursor.Lies

variable {c : Cursor}

theorem region_within (h : c.Lies file s a b) : c.region.Within file s a b := by
  have := h.stream.le
  exact ⟨a, b, Nat.le_refl a, by omega, Nat.le_refl b, h.region⟩

theorem span_within (h : c.Lies file s a b) {t : Tree} (ht : t ∈ c.ahead) :
    t.span.Within file s a b :=
  (h.stream.span_within (List.mem_append_right _ ht)).mono (Nat.le_succ a) (Nat.sub_le b 1)

theorem here_within (h : c.Lies file s a b) : c.here.Within file s a b := by
  unfold here
  split
  · rename_i t rest hc
    have ht : t.span.Within file s a b := h.span_within (hc ▸ List.mem_cons_self)
    rwa [ht.orElse]
  · exact h.region_within

theorem spanToSeparator_within (h : c.Lies file s a b) (start : Nat) :
    (c.spanToSeparator start).Within file s a b := by
  unfold spanToSeparator
  generalize c.pos + (c.ahead.takeWhile fun t => !t.isPunct ",").length = stop
  dsimp only
  by_cases hne : slice c.stream start stop = []
  · rw [hne]
    exact h.region_within
  · have hpart : slice c.stream start stop <:+: c.stream := by
      rw [slice_natCast]
      exact (List.take_prefix _ _).isInfix.trans (List.drop_suffix _ _).isInfix
    obtain ⟨i, j, hi, hj, hlie⟩ := h.stream.part hpart
    have hwithin := (hlie.streamSpan_within hne).mono (Nat.le_of_succ_le hi) (hj.trans (Nat.sub_le b 1))
    rwa [hwithin.orElse]

/-- A step over trees stays in the region. -/
theorem pass (h : c.Lies file s a b) (taken : List Tree) {rest : List Tree} (hc : c.ahead = taken ++ rest) :
    (c.pass taken rest).Lies file s a b where
  stream := by
    have hstream : (c.pass taken rest).stream = c.stream := by
      simp [Cursor.pass, Cursor.stream, hc]
    exact hstream ▸ h.stream
  region := h.region

end Cursor.Lies

/-! ## Readers that keep to their region -/

namespace Reader

variable {α β : Type}

/-- The cursor is left in its region, what comes out is good, and an error points into the region. -/
def StaysIn (file : Option String) (s : List Char) (a b : Nat) (good : α → Prop) :
    EStateM.Result GrammarError Cursor α → Prop
  | .ok x c => c.Lies file s a b ∧ good x
  | .error e c => c.Lies file s a b ∧ e.span.Within file s a b

/-- What a reader does, at every cursor of the region. -/
def KeepsTo (file : Option String) (s : List Char) (a b : Nat) (good : α → Prop)
    (reader : Reader α) : Prop :=
  ∀ c : Cursor, c.Lies file s a b → StaysIn file s a b good (reader c)

/-- Nothing is asked of what the reader gives. -/
abbrev Keeps (file : Option String) (s : List Char) (a b : Nat) (reader : Reader α) : Prop :=
  KeepsTo file s a b (fun _ => True) reader

namespace KeepsTo

variable {good : α → Prop} {good' : β → Prop} {reader : Reader α}

theorem pure {x : α} (hx : good x) : KeepsTo file s a b good (Pure.pure x) := fun _ hc => ⟨hc, hx⟩

theorem refuse {fault : Cursor → GrammarFault} {anchor : Cursor → Span}
    (h : ∀ c : Cursor, c.Lies file s a b → (anchor c).Within file s a b) :
    KeepsTo file s a b good (Reader.refuse fault anchor) :=
  fun c hc => ⟨hc, h c hc⟩

theorem bind {f : α → Reader β} (h : KeepsTo file s a b good reader)
    (hf : ∀ x, good x → KeepsTo file s a b good' (f x)) :
    KeepsTo file s a b good' (reader >>= f) := by
  intro c hc
  have hreader := h c hc
  simp only [Bind.bind, EStateM.bind]
  cases he : reader c with
  | error e c' =>
    rw [he] at hreader
    exact hreader
  | ok x c' =>
    rw [he] at hreader
    exact hf x hreader.2 c' hreader.1

/-- A look at the cursor. -/
theorem look {f : Cursor → Reader α} (h : ∀ c, KeepsTo file s a b good (f c)) :
    KeepsTo file s a b good (get >>= f) :=
  fun c hc => h c c hc

theorem ite {p : Prop} [Decidable p] {x y : Reader α} (hx : KeepsTo file s a b good x)
    (hy : KeepsTo file s a b good y) : KeepsTo file s a b good (if p then x else y) := by
  split
  · exact hx
  · exact hy

/-- A check that refuses to go on. -/
theorem guard {p : Prop} [Decidable p] {γ : Type} {k : γ → Reader α} {fault : Cursor → GrammarFault}
    {anchor : Cursor → Span} (h : ∀ c : Cursor, c.Lies file s a b → (anchor c).Within file s a b)
    (hr : KeepsTo file s a b good reader) :
    KeepsTo file s a b good (if p then Reader.refuse fault anchor >>= k else reader) :=
  .ite (.bind (.refuse h) (fun _ (hx : False) => hx.elim)) hr

end KeepsTo

theorem eat?_keepsTo (op : String) :
    KeepsTo file s a b (fun found => ∀ span, found = some span → span.Within file s a b)
      (eat? op) := by
  intro c hc
  unfold eat?
  split
  · rename_i t rest hahead
    by_cases h : t.isPunct op = true
    · rw [if_pos h]
      refine ⟨hc.pass _ hahead, ?_⟩
      rintro _ ⟨⟩
      exact hc.span_within (hahead ▸ List.mem_cons_self)
    · rw [if_neg h]
      exact ⟨hc, by rintro _ ⟨⟩⟩
  · exact ⟨hc, by rintro _ ⟨⟩⟩

theorem expect_keeps (op context : String) : Keeps file s a b (expect op context) := by
  refine (eat?_keepsTo op).bind ?_
  rintro (_ | span) -
  · exact .refuse fun c hc => hc.here_within
  · exact .pure trivial

theorem name_keeps (what : String) : Keeps file s a b (name what) := by
  intro c hc
  unfold name
  split
  · rename_i hahead
    split
    · exact ⟨hc, hc.here_within⟩
    · exact ⟨hc.pass _ hahead, trivial⟩
  · exact ⟨hc, hc.here_within⟩

theorem valueTrees_keeps : Keeps file s a b valueTrees :=
  fun c hc => ⟨hc.pass _ (valueRun_append {} c.ahead).symm, trivial⟩

theorem typeTrees_keeps : Keeps file s a b typeTrees := by
  intro c hc
  have hsplits : Splits c.stream (c.pass (typeRun 0 c.ahead).1 (typeRun 0 c.ahead).2).stream :=
    splits_stream rfl (typeRun_spec 0 c.ahead).1
  exact ⟨⟨hsplits.lieBetween hc.stream, hc.region⟩, trivial⟩

theorem attributesFrom_keeps {region : Span} {passed ahead : List Tree}
    (h : (Cursor.mk passed ahead region).Lies file s a b) :
    StaysIn file s a b (fun _ => True) (attributesFrom region passed ahead) := by
  fun_induction attributesFrom region passed ahead with
  | case1 passed pound inner brackets ahead attributes c he ih =>
    have hnext := ih (h.pass [.punct "#" pound, .group .bracket inner brackets] rfl)
    rwa [he] at hnext
  | case2 passed pound inner brackets ahead e c he ih =>
    have hnext := ih (h.pass [.punct "#" pound, .group .bracket inner brackets] rfl)
    rwa [he] at hnext
  | case3 passed pound ahead _ =>
    have hnext := h.pass [.punct "#" pound] rfl
    exact ⟨hnext, hnext.here_within⟩
  | case4 passed ahead _ _ => exact ⟨h, trivial⟩

theorem attributes_keeps : Keeps file s a b attributes := fun _ hc => attributesFrom_keeps hc

/-- An error that is moved to the entry around it points into the region. -/
theorem anchoredFrom_keeps {good : α → Prop} {reader : Reader α} (start : Nat)
    (h : KeepsTo file s a b good reader) : KeepsTo file s a b good (anchoredFrom start reader) := by
  intro c hc
  have hreader := h c hc
  unfold anchoredFrom
  cases he : reader c with
  | ok x c' =>
    rw [he] at hreader
    exact hreader
  | error e c' =>
    rw [he] at hreader
    exact ⟨hreader.1, hreader.1.spanToSeparator_within start⟩

theorem typeAndValue_keeps (start : Nat) (label : FieldLabel) :
    Keeps file s a b (typeAndValue start label) := by
  have hentry (c : Cursor) (hc : c.Lies file s a b) : (c.spanToSeparator start).Within file s a b :=
    hc.spanToSeparator_within start
  refine typeTrees_keeps.bind fun type _ => .guard hentry ?_
  refine (eat?_keepsTo "=").bind fun found _ => .guard hentry ?_
  cases TypeExpr.ofTrees type with
  | error e => exact .bind (.refuse hentry) fun _ (hx : False) => hx.elim
  | ok e => exact valueTrees_keeps.bind fun value _ => .guard hentry (.pure trivial)

theorem namedEntry_keeps : Keeps file s a b namedEntry := by
  refine .look fun c => attributes_keeps.bind fun as _ => ?_
  refine (anchoredFrom_keeps c.pos ((name_keeps _).bind fun name _ =>
    (expect_keeps _ _).bind fun _ _ => .pure trivial)).bind fun name _ => ?_
  exact (typeAndValue_keeps _ _).bind fun r _ => .look fun c' => .pure trivial

theorem unnamedEntry_keeps (index : Nat) : Keeps file s a b (unnamedEntry index) :=
  .look fun _ => attributes_keeps.bind fun _ _ =>
    (typeAndValue_keeps _ _).bind fun _ _ => .look fun _ => .pure trivial

theorem another_keeps : Keeps file s a b another :=
  .look fun _ => .ite (.pure trivial) ((expect_keeps _ _).bind fun _ _ => .look fun _ => .pure trivial)

theorem entries_keeps {entry : Nat → Reader α} (h : ∀ index, Keeps file s a b (entry index))
    (limit index : Nat) : Keeps file s a b (entries entry limit index) := by
  induction limit generalizing index with
  | zero => exact .pure trivial
  | succ limit ih =>
    refine .look fun c => .ite (.pure trivial) ((h index).bind fun first _ => ?_)
    refine another_keeps.bind fun more _ => .ite ?_ (.pure trivial)
    exact (ih (index + 1)).bind fun as _ => .pure trivial

theorem namedFields_keeps : Keeps file s a b namedFields :=
  .bind (.look fun _ => entries_keeps (fun _ => namedEntry_keeps) _ _) fun _ _ => .pure trivial

theorem unnamedFields_keeps : Keeps file s a b unnamedFields :=
  .bind (.look fun _ => entries_keeps unnamedEntry_keeps _ _) fun _ _ => .pure trivial

/-- A reader that keeps to a group keeps to the region around the group. -/
theorem inside_keeps {reader : Reader α} (h : ∀ a b, Keeps file s a b reader) {d : Delimiter}
    {inner rest : List Tree} {span : Span} {c : Cursor} (hc : c.Lies file s a b)
    (hahead : c.ahead = .group d inner span :: rest) :
    StaysIn file s a b (fun _ => True) (inside d inner span rest reader c) := by
  have hstream := hc.stream
  rw [Cursor.stream, hahead] at hstream
  obtain ⟨k, hpassed, i, j, hi, hj, hskip, hgroup, hrest⟩ := hstream.append_inv
  have hinner : (Cursor.mk [] inner span).Lies file s i j := ⟨hgroup.inner, hgroup.span_eq⟩
  -- the group that is put back has other contents and lies where it lay
  have hback {c' : Cursor} (hc' : c'.Lies file s i j) :
      (c.pass [.group d c'.stream span] rest).Lies file s a b := by
    obtain ⟨hij, hjs, hspan, hopen, hclose, -⟩ := hgroup
    refine ⟨?_, hc.region⟩
    have hput : LieBetween file s k (b - 1) (.group d c'.stream span :: rest) :=
      ⟨i, j, hi, hj, hskip, ⟨hij, hjs, hspan, hopen, hclose, hc'.stream⟩, hrest⟩
    simpa [Cursor.pass, Cursor.stream] using hpassed.append hput
  have hreader := h i j _ hinner
  have hle := hpassed.le
  unfold inside
  cases he : reader (Cursor.mk [] inner span) with
  | ok x c' =>
    rw [he] at hreader
    exact ⟨hback hreader.1, trivial⟩
  | error e c' =>
    rw [he] at hreader
    exact ⟨hback hreader.1, hreader.2.mono (by omega) (by omega)⟩

theorem fieldGroup_keeps : Keeps file s a b fieldGroup := by
  intro c hc
  unfold fieldGroup
  split
  · rename_i hahead
    exact inside_keeps (fun _ _ => namedFields_keeps) hc hahead
  · rename_i hahead
    exact inside_keeps (fun _ _ => unnamedFields_keeps) hc hahead
  · exact ⟨hc, trivial⟩

theorem discriminant_keeps (name : String) : Keeps file s a b (discriminant name) := by
  refine (eat?_keepsTo "=").bind ?_
  rintro (_ | span) hspan
  · exact .pure trivial
  · exact valueTrees_keeps.bind fun value _ => .guard (fun _ _ => hspan span rfl) (.pure trivial)

theorem visibility_keeps : Keeps file s a b visibility := by
  intro c hc
  obtain ⟨left, rest, hahead, he⟩ := visibility_pass c
  rw [he]
  exact ⟨hc.pass _ hahead, trivial⟩

theorem variant_keeps : Keeps file s a b variant := by
  refine attributes_keeps.bind fun as _ => visibility_keeps.bind fun _ _ => ?_
  refine (name_keeps _).bind fun name _ => fieldGroup_keeps.bind fun fields _ => ?_
  refine (discriminant_keeps _).bind fun d _ => .look fun c => .ite ?_ ?_
  · exact .look fun c' => .pure trivial
  · exact .bind (.refuse fun c hc => hc.here_within) fun _ (hx : False) => hx.elim

end Reader

/-- Why the contents of a group cannot be read is found between its brackets. -/
theorem Variant.parse_error_within {d : Delimiter} {contents : List Tree} {span : Span}
    {e : GrammarError} (h : (Tree.group d contents span).LiesAt file s a b)
    (he : (Variant.parse contents span).result = .error e) : e.span.Within file s a b := by
  have hbounds := h.bounds
  have hspan : span = Span.covering file s a b := h.span_eq
  have hregion : span.orElse (streamSpan contents) = span := by
    rw [hspan]
    rfl
  have hlies : (Cursor.mk [] contents span).Lies file s a b := ⟨h.inner, hspan⟩
  have hkeeps := Reader.variant_keeps _ hlies
  rw [Variant.parse, Reader.over, hregion] at he
  cases hr : Reader.variant (Cursor.mk [] contents span) with
  | ok v c =>
    rw [hr] at he
    cases he
  | error e' c =>
    rw [hr] at he hkeeps
    obtain rfl : e' = e := Except.error.inj he
    exact hkeeps.2

/-! ## One diagnostic for one marker -/

namespace Visit

/-- The diagnostic says why the marker cannot be read, and points at a stretch of text from its
opening bracket up to its closing one. -/
def Reports (file : Option String) (s : List Char) (x : Visit) (d : Diagnostic) : Prop :=
  (∃ e, (Variant.parse x.contents x.groupSpan).result = .error e ∧ d.message = e.message) ∧
    d.span.Within file s x.groupSpan.startOffset x.groupSpan.stopOffset

theorem isSome_rejection? (x : Visit) : x.rejection?.isSome = !x.isAccepted := by
  unfold rejection? isAccepted parsed?
  split <;> simp_all

theorem Lies.reports {w : Walker} {x : Visit} {d : Diagnostic} (h : x.Lies w file s a b)
    (hd : x.rejection? = some d) : x.Reports file s d := by
  obtain ⟨delimiter, -, -, k, l, -, -, -, -, hgroup⟩ := h
  have hstart : x.groupSpan.startOffset = k := hgroup.startOffset
  have hstop : x.groupSpan.stopOffset = l := hgroup.stopOffset
  unfold rejection? at hd
  split at hd
  · cases hd
  · rename_i e he
    have hwithin := Variant.parse_error_within hgroup he
    obtain rfl := Option.some.inj hd
    refine ⟨⟨e, he, rfl⟩, ?_⟩
    rw [hstart, hstop]
    show (e.span.orElse (x.nameSpan.join x.groupSpan)).Within file s k l
    rwa [hwithin.orElse]

end Visit

/-- A marker is visited inside another one only if that one can be read. -/
theorem Ordered.isAccepted_of_inside {w : Walker} {xs : List Visit} {x y : Visit}
    (h : Ordered w file s a b xs) (hx : x ∈ xs) (hy : y ∈ xs) (hin : y.Inside x) :
    x.isAccepted = true := by
  have hyo := (h.lie y hy).offsets
  obtain ⟨hstart, hstop⟩ := hin
  obtain ⟨i, hi⟩ := List.mem_iff_getElem?.1 hx
  obtain ⟨j, hj⟩ := List.mem_iff_getElem?.1 hy
  have hij : i < j := index_lt_of_lt h.starts hi hj (by omega)
  obtain ⟨hilen, rfl⟩ := List.getElem?_eq_some_iff.1 hi
  obtain ⟨hjlen, rfl⟩ := List.getElem?_eq_some_iff.1 hj
  rcases List.pairwise_iff_getElem.1 h.pairwise i j hilen hjlen hij with hbehind | ⟨-, v, hv, -⟩
  · have hbehind : xs[i].groupSpan.stopOffset ≤ xs[j].nameSpan.startOffset := hbehind
    omega
  · simp [Visit.isAccepted, hv]

theorem Walker.walk_diagnostics (w : Walker) (ts : List Tree) :
    (w.walk {} ts).1.diagnostics = (w.visits none ts).filterMap Visit.rejection? := by
  rw [w.walk_eq, w.walkLevel_diagnostics]
  rfl

/-- A walk reports every marker that it comes by and that cannot be read, and no other one. What the
reports point at stands inside the group of the marker, so it comes in the order of the text and does
not overlap. Inside a marker that cannot be read, no marker is visited. -/
theorem walk_diagnostics_located {trees : List Tree} (h : tokenize s file = .ok trees) (w : Walker) :
    let visited := w.visits none trees
    let rejected := visited.filter fun x => !x.isAccepted
    let diagnostics := (w.walk {} trees).1.diagnostics
    List.Forall₂ (Visit.Reports file s) rejected diagnostics ∧
      (∀ d ∈ diagnostics, d.span.known = true) ∧
      diagnostics.Pairwise (fun d e => d.span.stopOffset ≤ e.span.startOffset) ∧
      (∀ x ∈ visited, x.StandsIn w trees) ∧
      visited.Pairwise (fun x y => x.groupSpan.startOffset < y.groupSpan.startOffset) ∧
      ∀ x ∈ rejected, ∀ y ∈ visited, ¬ y.Inside x := by
  intro visited rejected diagnostics
  obtain ⟨q, rest, hr, hrest⟩ := tokenize_reads h
  have hordered := w.visits_ordered none (hr.lieBetween_ends hrest)
  have hdiagnostics : diagnostics = visited.filterMap Visit.rejection? := w.walk_diagnostics trees
  refine ⟨?_, ?_, ?_, w.visits_standsIn none trees, hordered.starts, ?_⟩
  · have hone := forall₂_filterMap fun x hx d hd => (hordered.lie x hx).reports (d := d) hd
    simp only [Visit.isSome_rejection?] at hone
    rwa [← hdiagnostics] at hone
  · intro d hd
    obtain ⟨x, hx, hxd⟩ := List.mem_filterMap.1 (hdiagnostics ▸ hd)
    exact ((hordered.lie x hx).reports hxd).2.offsets.1
  · rw [hdiagnostics, List.pairwise_filterMap]
    refine hordered.pairwise.imp_of_mem fun {x y} hx hy hxy d hd e he => ?_
    have hdspan := ((hordered.lie x hx).reports hd).2.offsets
    have hespan := ((hordered.lie y hy).reports he).2.offsets
    have hyo := (hordered.lie y hy).offsets
    rcases hxy with hbehind | ⟨-, v, hv, -⟩
    · have hbehind : x.groupSpan.stopOffset ≤ y.nameSpan.startOffset := hbehind
      omega
    · have hnone := Visit.isSome_rejection? x
      simp [hd, Visit.isAccepted, hv] at hnone
  · intro x hx y hy hin
    obtain ⟨hx, hrejected⟩ := List.mem_filter.1 hx
    simp [hordered.isAccepted_of_inside hx hy hin] at hrejected

end

/-- A marker in a value of an accepted one, a marker with another one inside, and one without a
value. -/
theorem walk_diagnostics_located_nested :
    let s := "err!(A(u8=err!(=)))err!(B err!(=))err!(C(u8=))".toList
    let w : Walker := ⟨"E", "err"⟩
    ∃ trees, tokenize s none = .ok trees ∧
      (w.walk {} trees).1.diagnostics.map (fun d => (d.message, d.span.start, d.span.stop)) =
        [("expected variant name, found `=`", some 15, some 16),
          ("unexpected token `err` after variant `B`", some 26, some 29),
          ("expected expression after `=` for field 0", some 41, some 44)] ∧
      List.Forall₂ (Visit.Reports none s) ((w.visits none trees).filter fun x => !x.isAccepted)
        (w.walk {} trees).1.diagnostics ∧
      (w.walk {} trees).1.diagnostics.Pairwise fun d e => d.span.stopOffset ≤ e.span.startOffset := by
  have hvalues : (tokenize "err!(A(u8=err!(=)))err!(B err!(=))err!(C(u8=))".toList none).map
      (fun trees => ((Walker.mk "E" "err").walk {} trees).1.diagnostics.map
        fun d => (d.message, d.span.start, d.span.stop)) =
        .ok [("expected variant name, found `=`", some 15, some 16),
          ("unexpected token `err` after variant `B`", some 26, some 29),
          ("expected expression after `=` for field 0", some 41, some 44)] := by decide +kernel
  cases htrees : tokenize "err!(A(u8=err!(=)))err!(B err!(=))err!(C(u8=))".toList none with
  | error e =>
    rw [htrees] at hvalues
    cases hvalues
  | ok trees =>
    rw [htrees] at hvalues
    have hlocated := walk_diagnostics_located htrees ⟨"E", "err"⟩
    exact ⟨trees, htrees, Except.ok.inj hvalues, hlocated.1, hlocated.2.2.1⟩

end InlineVariants
