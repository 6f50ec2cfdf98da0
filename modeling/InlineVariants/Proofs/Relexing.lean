import InlineVariants.Layout.Words
import InlineVariants.Proofs.Chunks
import InlineVariants.Proofs.Lookahead
import InlineVariants.Proofs.Splitting

/-!
# Reading printed text once more

A printed text is made of tokens that were read from a source, with the source gaps between them or
without, and of marks and names that were put in. `Mirrors` says so, chunk by chunk, and keeps track
of where in the source the printer is: behind a source token the next chunk either continues the
source or begins with something inert, and the place in the source only moves forward.

Main statement: the scanner finds the words of such a text exactly if no `:` has a `:` directly behind
it (`Mirrors.readBack`), as long as no `/` opens a comment. The words are then folded into the trees
that they spell (`Spells.build`).
-/

namespace InlineVariants

open Text Lexeme

/-! ## Trees without spans -/

mutual

/-- A tree without its spans. -/
def Tree.bare : Tree → Tree
  | .ident text _ => .ident text Span.unknown
  | .punct op _ => .punct op Span.unknown
  | .literal kind text _ => .literal kind text Span.unknown
  | .group d stream _ => .group d (bareOf stream) Span.unknown

/-- A list of trees without their spans. -/
def bareOf : List Tree → List Tree
  | [] => []
  | t :: ts => t.bare :: bareOf ts

end

/-! ## Words -/

/-- A token without its place. -/
abbrev Word := LexemeClass × String

/-- The word of a lexeme. -/
def Lexeme.word (l : Lexeme) : Word := (l.cls, l.text)

/-- The leaf that a word stands for, without a span. -/
def Word.leaf (w : Word) : Tree := (Lexeme.leaf none ⟨w.1, w.2, .first, .first⟩).bare

theorem Lexeme.bare_leaf (file : Option String) (l : Lexeme) : (l.leaf file).bare = l.word.leaf := by
  unfold Lexeme.leaf Word.leaf Lexeme.word Lexeme.leaf
  cases l.cls <;> rfl

/-- The words are those of the trees, with brackets around the words of a group. -/
inductive Spells : List Word → List Tree → Prop
  | nil : Spells [] []
  | leaf {w : Word} {t : Tree} {words : List Word} {ts : List Tree} :
      w.1.isLeaf = true → t.bare = w.leaf → Spells words ts → Spells (w :: words) (t :: ts)
  | group {d : Delimiter} {span : Span} {inner words : List Word} {children ts : List Tree} :
      Spells inner children → Spells words ts →
      Spells ((.opening d, d.opening) :: (inner ++ (.closing d, d.closing) :: words))
        (.group d children span :: ts)

namespace Spells

theorem append {ws ws' : List Word} {ts ts' : List Tree} (h : Spells ws ts) (h' : Spells ws' ts') :
    Spells (ws ++ ws') (ts ++ ts') := by
  induction h with
  | nil => exact h'
  | leaf hl ht _ ih => exact .leaf hl ht ih
  | group hin _ _ ih =>
    simp only [List.cons_append, List.append_assoc]
    exact .group hin ih

/-- The words of trees are folded into these trees, up to spans. -/
theorem build (file : Option String) {words : List Word} {ts : List Tree} (h : Spells words ts)
    {ls : List Lexeme} (hls : ls.map Lexeme.word = words) :
    ∃ us, bareOf us = bareOf ts ∧ ∀ groups current more,
      Tree.build file none groups current (ls ++ more) =
        Tree.build file none groups (us.reverse ++ current) more := by
  induction h generalizing ls with
  | nil =>
    obtain rfl := List.map_eq_nil_iff.1 hls
    exact ⟨[], rfl, fun _ _ _ => rfl⟩
  | @leaf w t words ts hl ht _ ih =>
    obtain ⟨l, ls, rfl, rfl, hrest⟩ := List.map_eq_cons_iff.1 hls
    obtain ⟨us, hus, hbuild⟩ := ih hrest
    refine ⟨l.leaf file :: us, ?_, fun groups current more => ?_⟩
    · rw [bareOf, bareOf, Lexeme.bare_leaf, ht, hus]
    · rw [List.cons_append, Tree.build_leaf hl, hbuild]
      simp
  | @group d span inner words children ts _ _ ihin ih =>
    obtain ⟨l, ls, rfl, hopen, hls⟩ := List.map_eq_cons_iff.1 hls
    obtain ⟨lin, ls, rfl, hin, hls⟩ := List.map_eq_append_iff.1 hls
    obtain ⟨l', ls, rfl, hclose, hls⟩ := List.map_eq_cons_iff.1 hls
    obtain ⟨vs, hvs, hbuild⟩ := ihin hin
    obtain ⟨us, hus, hbuild'⟩ := ih hls
    refine ⟨.group d vs (Span.between file l.start l'.stop) :: us, ?_, fun groups current more => ?_⟩
    · simp only [bareOf, Tree.bare, hvs, hus]
    · have hopen : l.cls = .opening d := congrArg Prod.fst hopen
      have hclose : l'.cls = .closing d := congrArg Prod.fst hclose
      simp only [List.cons_append, List.append_assoc]
      rw [Tree.build_opening hopen, hbuild, Tree.build_closing (by simpa using hclose), hbuild']
      simp

end Spells

/-! ## Marks that are put in -/

/-- The marks and brackets that the printer is given beside source tokens, with their classes. -/
def madeMarks : List (String × LexemeClass) :=
  [("::", .punct), (",", .punct), (":", .punct), ("!", .punct), ("(", .opening .paren),
   (")", .closing .paren), ("\x7b", .opening .brace), ("\x7d", .closing .brace)]

/-- What the printer puts between two tokens that are no neighbours in the source. -/
def Loose (gap : List Char) : Prop := gap = [] ∨ gap = [' ']

theorem not_trivia_of_ne {c : Char} (cs : List Char) (hs : c ≠ '/') (hb : isBlank c = false) :
    trivia? (c :: cs) = none := by
  simp [trivia?, blockComment?_of_ne cs hs, lineComment?_of_ne cs hs, blanks?, hb]

theorem not_pair {c : Char} (cs : List Char) (h : ∀ t ∈ pairs.map String.toList, t.head? ≠ some c) :
    ¬ pairs.contains (String.ofList ((c :: cs).take 2)) = true := by
  rw [contains_ofList, List.contains_iff_mem]
  exact fun hc => h _ hc (by simp)

/-- A character that begins one pair only is that pair only in front of its second character. -/
theorem second_of_pair {a b : Char} {cs : List Char}
    (h : ∀ t ∈ pairs.map String.toList, t.head? = some a → t = [a, b])
    (hp : pairs.contains (String.ofList ((a :: cs).take 2)) = true) : ∃ rest, cs = b :: rest := by
  rw [contains_ofList, List.contains_iff_mem] at hp
  have := h _ hp (by simp)
  rcases cs with _ | ⟨c, rest⟩
  · simp at this
  · exact ⟨rest, by simpa using this⟩

/-- A mark that is put in is a token whatever comes behind it, a `:` and a `!` apart. -/
theorem isToken_mark {op : String} {cls : LexemeClass} {cs : List Char}
    (h : (op, cls) ∈ madeMarks) (hcolon : op = ":" → ∀ rest, cs ≠ ':' :: rest)
    (hbang : op = "!" → Inert cs) : IsToken cls op.toList cs := by
  have htok {c : Char} (ds : List Char) (hq : c ≠ '\x22') (ha : c ≠ '\x27') (hd : isDigit c = false)
      (hn : isNameStart c = false) (hs : c ≠ '/') (hb : isBlank c = false)
      (hsym : symbol? (c :: (ds ++ cs)) = some (cls, ds.length + 1)) : IsToken cls (c :: ds) cs :=
    ⟨by simp, not_trivia_of_ne _ hs hb, by
      rw [List.cons_append, token?_eq_symbol? _ hq ha hd hn, hsym]; rfl⟩
  simp only [madeMarks, List.mem_cons, Prod.mk.injEq, List.not_mem_nil, or_false] at h
  rcases h with ⟨rfl, rfl⟩ | ⟨rfl, rfl⟩ | ⟨rfl, rfl⟩ | ⟨rfl, rfl⟩ | ⟨rfl, rfl⟩ | ⟨rfl, rfl⟩ | ⟨rfl, rfl⟩ |
    ⟨rfl, rfl⟩
  · refine htok [':'] (by decide) (by decide) (by decide) (by decide) (by decide) (by decide) ?_
    rw [symbol?, if_neg (not_triple _ (by decide))]
    rfl
  · refine htok [] (by decide) (by decide) (by decide) (by decide) (by decide) (by decide) ?_
    rw [symbol?, if_neg (not_triple _ (by decide)), if_neg (not_pair _ (by decide))]
    rfl
  · refine htok [] (by decide) (by decide) (by decide) (by decide) (by decide) (by decide) ?_
    rw [symbol?, if_neg (not_triple _ (by decide)), if_neg]
    · rfl
    · intro hp
      obtain ⟨rest, he⟩ := second_of_pair (b := ':') (by decide) hp
      exact hcolon rfl rest he
  · refine htok [] (by decide) (by decide) (by decide) (by decide) (by decide) (by decide) ?_
    rw [symbol?, if_neg (not_triple _ (by decide)), if_neg]
    · rfl
    · intro hp
      obtain ⟨rest, he⟩ := second_of_pair (b := '=') (by decide) hp
      exact absurd (hbang rfl _ _ he) (by decide)
  all_goals
    refine htok [] (by decide) (by decide) (by decide) (by decide) (by decide) (by decide) ?_
    rw [symbol?, if_neg (not_triple _ (by decide)), if_neg (not_pair _ (by decide))]
    rfl

/-- A mark that is put in begins with an inert character and has no quote in it. -/
theorem inert_mark {op : String} {cls : LexemeClass} (h : (op, cls) ∈ madeMarks) (cs : List Char) :
    Inert (op.toList ++ cs) ∧ '\x22' ∉ op.toList := by
  have hmark : ∀ m ∈ madeMarks, m.1.toList.head?.any inertChars.contains = true ∧
      '\x22' ∉ m.1.toList := by decide
  obtain ⟨hi, hq⟩ := hmark _ h
  refine ⟨fun c rest he => ?_, hq⟩
  cases hop : op.toList with
  | nil => simp [hop] at hi
  | cons c' ds =>
    rw [hop] at hi he
    obtain rfl := (List.cons.inj he).1
    simpa using hi

/-! ## Marks that never grow -/

/-- Brackets and `;`, which are tokens in front of any text. -/
def soleMarks : List (Char × LexemeClass) :=
  [('(', .opening .paren), (')', .closing .paren), ('[', .opening .bracket), (']', .closing .bracket),
   ('\x7b', .opening .brace), ('\x7d', .closing .brace), (';', .punct)]

theorem isToken_sole {c : Char} {cls : LexemeClass} (h : (c, cls) ∈ soleMarks) (cs : List Char) :
    IsToken cls [c] cs := by
  have hsole : ∀ m ∈ soleMarks, m.1 ≠ '\x22' ∧ m.1 ≠ '\x27' ∧ isDigit m.1 = false ∧
      isNameStart m.1 = false ∧ m.1 ≠ '/' ∧ isBlank m.1 = false ∧
      (∀ t ∈ triples.map String.toList, t.head? ≠ some m.1) ∧
      (∀ t ∈ pairs.map String.toList, t.head? ≠ some m.1) ∧
      (if singles.contains m.1 then some (LexemeClass.punct, 1) else (bracket? m.1).map (·, 1)) =
        some (m.2, 1) := by decide
  obtain ⟨hq, ha, hd, hn, hs, hb, htriple, hpair, hsym⟩ := hsole _ h
  refine ⟨by simp, not_trivia_of_ne _ hs hb, ?_⟩
  rw [List.singleton_append, token?_eq_symbol? _ hq ha hd hn, symbol?, if_neg (not_triple _ htriple),
    if_neg (not_pair _ hpair)]
  exact hsym

theorem inert_sole {c : Char} {cls : LexemeClass} (h : (c, cls) ∈ soleMarks) :
    c ∈ inertChars ∧ c ≠ ':' := by
  have hsole : ∀ m ∈ soleMarks, m.1 ∈ inertChars ∧ m.1 ≠ ':' := by decide
  exact hsole _ h

theorem sole_opening {d : Delimiter} (h : d ≠ .invisible) :
    ∃ c, d.opening.toList = [c] ∧ (c, .opening d) ∈ soleMarks := by
  cases d with
  | invisible => exact absurd rfl h
  | _ => exact ⟨_, rfl, by decide⟩

theorem sole_closing {d : Delimiter} (h : d ≠ .invisible) :
    ∃ c, d.closing.toList = [c] ∧ (c, .closing d) ∈ soleMarks := by
  cases d with
  | invisible => exact absurd rfl h
  | _ => exact ⟨_, rfl, by decide⟩

theorem isToken_opening {d : Delimiter} (h : d ≠ .invisible) (cs : List Char) :
    IsToken (.opening d) d.opening.toList cs := by
  obtain ⟨c, hc, hsole⟩ := sole_opening h
  rw [hc]
  exact isToken_sole hsole cs

theorem isToken_closing {d : Delimiter} (h : d ≠ .invisible) (cs : List Char) :
    IsToken (.closing d) d.closing.toList cs := by
  obtain ⟨c, hc, hsole⟩ := sole_closing h
  rw [hc]
  exact isToken_sole hsole cs

/-! ## Printed text and where it comes from -/

namespace Layout

/-- Whether a `:` has a `:` directly behind it, so that the two are read as one token. -/
def fuses : List Chunk → Bool
  | [] => false
  | .gap _ :: chunks => fuses chunks
  | .token piece :: chunks =>
    (piece.text == ":" && (textOf chunks).head? == some ':') || fuses chunks

/-- Whether a `/` begins a block comment, so that tokens behind it are skipped. -/
def swallows : List Chunk → Bool
  | [] => false
  | .gap _ :: chunks => swallows chunks
  | .token piece :: chunks =>
    (piece.text == "/" && (blockComment? ('/' :: textOf chunks)).isSome) || swallows chunks

@[simp] theorem swallows_gapChunk (gap : List Char) (chunks : List Chunk) :
    swallows (gapChunk gap ++ chunks) = swallows chunks := by
  unfold gapChunk
  split <;> simp [swallows]

end Layout

open Layout

/-- The chunks of a token that was split. -/
def pieceChunks (n : Nat) : List Chunk :=
  List.replicate n (.token ⟨.punct, ">"⟩) ++ [.token ⟨.punct, "="⟩]

theorem textOf_pieceChunks {op : String} {n : Nat} (h : gluedAngles? op = some n) :
    textOf (pieceChunks n) = op.toList := by
  rcases gluedAngles?_cases h with ⟨rfl, rfl⟩ | ⟨rfl, rfl⟩ <;> rfl

/-- The chunks hold tokens of the old text, with the words beside them, or something that was put
in. Behind an old token the old text goes on, or something inert was put in, and then the old text
may be taken up again further on. -/
inductive Mirrors : List Char → List Chunk → List Word → Prop
  | nil {old : List Char} : Mirrors old [] []
  | gap {gap old : List Char} {chunks : List Chunk} {words : List Word} :
      Gap gap → Mirrors old chunks words → Mirrors (gap ++ old) (.gap gap :: chunks) words
  | token {cls : LexemeClass} {kind : Kind} {text : String} {old : List Char}
      {chunks : List Chunk} {words : List Word} :
      IsToken cls text.toList old → Mirrors old chunks words →
      Mirrors (text.toList ++ old) (.token ⟨kind, text⟩ :: chunks) ((cls, text) :: words)
  /-- An old token that was split is printed in pieces. -/
  | pieces {op : String} {n : Nat} {old : List Char} {chunks : List Chunk} {words : List Word} :
      gluedAngles? op = some n → IsToken .punct op.toList old → Mirrors old chunks words →
      Mirrors (op.toList ++ old) (pieceChunks n ++ chunks) ((.punct, op) :: words)
  | blank {old : List Char} {chunks : List Chunk} {words : List Word} :
      Mirrors old chunks words → Mirrors old (.gap [' '] :: chunks) words
  | mark {cls : LexemeClass} {kind : Kind} {op : String} {old ahead : List Char}
      {chunks : List Chunk} {words : List Word} :
      (op, cls) ∈ madeMarks → (op = "!" → Inert (textOf chunks)) → ahead <:+ old →
      Mirrors ahead chunks words → Mirrors old (.token ⟨kind, op⟩ :: chunks) ((cls, op) :: words)
  /-- A name that is put in stands behind a mark and in front of something inert. -/
  | step {cls : LexemeClass} {kind kind' : Kind} {op name : String} {gap old : List Char}
      {chunks : List Chunk} {words : List Word} :
      (op, cls) ∈ madeMarks → op ≠ "!" → Loose gap → IsToken .name name.toList [] →
      Inert (textOf chunks) → Mirrors old chunks words →
      Mirrors old (.token ⟨kind, op⟩ :: (gapChunk gap ++ .token ⟨kind', name⟩ :: chunks))
        ((cls, op) :: (.name, name) :: words)

namespace Mirrors

variable {old : List Char} {chunks : List Chunk} {words : List Word}

theorem loose {gap : List Char} (hg : Loose gap) (h : Mirrors old chunks words) :
    Mirrors old (gapChunk gap ++ chunks) words := by
  rcases hg with rfl | rfl
  · exact h
  · exact .blank h

theorem gap_append {gap : List Char} (hg : Gap gap) (h : Mirrors old chunks words) :
    Mirrors (gap ++ old) (gapChunk gap ++ chunks) words := by
  unfold gapChunk
  split
  · rename_i hnil
    rw [hnil]
    exact h
  · exact .gap hg h

/-- A text that mirrors another tells the scanner no more than the other did. -/
theorem lookahead (h : Mirrors old chunks words) :
    Lookahead old (textOf chunks) ∧ LeavesOpen old (textOf chunks) := by
  induction h with
  | nil => exact ⟨.of_inert nofun, fun _ _ => rfl⟩
  | gap hg _ ih => exact ⟨ih.1.gap_append ih.2 hg, ih.2.append ih.1.shared _⟩
  | token ht _ ih => exact ⟨ih.1.token_append ih.2 ht, ih.2.append ih.1.shared _⟩
  | pieces hop ht _ ih =>
    rw [textOf_append, textOf_pieceChunks hop]
    exact ⟨ih.1.token_append ih.2 ht, ih.2.append ih.1.shared _⟩
  | blank _ ih =>
    refine ⟨.of_inert ?_, LeavesOpen.made ih.2 (by decide : '\x22' ∉ [' '])⟩
    rintro c rest ⟨⟩
    decide
  | mark hm _ hs _ ih =>
    obtain ⟨hi, hq⟩ := inert_mark hm _
    exact ⟨.of_inert hi, (ih.2.of_suffix hs).made hq⟩
  | @step _ kind kind' op name gap _ chunks _ hm _ hg hname _ _ ih =>
    obtain ⟨hi, hq⟩ := inert_mark hm (gap ++ (name.toList ++ textOf chunks))
    have hgap : '\x22' ∉ gap := by rcases hg with rfl | rfl <;> decide
    have htext : textOf (.token ⟨kind, op⟩ :: (gapChunk gap ++ .token ⟨kind', name⟩ :: chunks)) =
        op.toList ++ (gap ++ (name.toList ++ textOf chunks)) := by simp
    rw [htext]
    exact ⟨.of_inert hi, ((ih.2.made (quote_not_mem_name hname)).made hgap).made hq⟩

end Mirrors

/-! ## The scanner on printed text -/

/-- The colons among some words, single and double. -/
def colons (words : List String) : List String := words.filter fun w => w = ":" || w = "::"

/-- What the scanner finds in a printed text: the words, or, where a `:` fuses, other colons. -/
def ReadBack (chunks : List Chunk) (words : List Word) (p : Position) : Prop :=
  let found := (scanFrom p (textOf chunks)).lexemes.map Lexeme.word
  if fuses chunks then colons (found.map Prod.snd) ≠ colons (words.map Prod.snd)
  else (scanFrom p (textOf chunks)).stuck = none ∧ found = words

namespace ReadBack

variable {chunks : List Chunk} {words : List Word}

theorem gap_append {gap : List Char} (hg : Gap gap) (h : ∀ p, ReadBack chunks words p)
    (p : Position) : ReadBack (.gap gap :: chunks) words p := by
  have := h (p.advance gap)
  unfold ReadBack at this ⊢
  rwa [textOf_gap, scanFrom_gap hg, fuses]

/-- A token that is found as it is leaves the rest of the text to be read. -/
theorem token_append {cls : LexemeClass} {text : String} {run : List Chunk}
    (ht : IsToken cls text.toList (textOf chunks)) (hrun : textOf run = text.toList)
    (hf : fuses (run ++ chunks) = fuses chunks) (h : ∀ p, ReadBack chunks words p) (p : Position) :
    ReadBack (run ++ chunks) ((cls, text) :: words) p := by
  have := h (p.advance text.toList)
  unfold ReadBack at this ⊢
  rw [textOf_append, hrun, scanFrom_token p ht, hf]
  split at this
  · rename_i hfuse
    rw [if_pos hfuse]
    simp only [List.map_cons, Lexeme.word, String.ofList_toList, colons, List.filter_cons]
    split
    · simpa [colons] using this
    · exact this
  · rename_i hfuse
    rw [if_neg hfuse]
    simpa [Lexeme.word] using this

/-- A `:` in front of a `:` is found as `::`. -/
theorem colon_append {cls : LexemeClass} {kind : Kind} {rest : List Char}
    (hc : textOf chunks = ':' :: rest) (p : Position) :
    ReadBack (.token ⟨kind, ":"⟩ :: chunks) ((cls, ":") :: words) p := by
  have ht : IsToken .punct "::".toList rest := isToken_mark (by decide) (by simp) (by simp)
  have hfuse : fuses (.token ⟨kind, ":"⟩ :: chunks) = true := by simp [fuses, hc]
  have htext : textOf (.token ⟨kind, ":"⟩ :: chunks) = "::".toList ++ rest := by simp [hc]
  unfold ReadBack
  rw [if_pos hfuse, htext, scanFrom_token p ht]
  simp [Lexeme.word, colons]

theorem mark_append {cls : LexemeClass} {kind : Kind} {text : String}
    (ht : (text = ":" → ∀ rest, textOf chunks ≠ ':' :: rest) →
      IsToken cls text.toList (textOf chunks))
    (h : ∀ p, ReadBack chunks words p) (p : Position) :
    ReadBack (.token ⟨kind, text⟩ :: chunks) ((cls, text) :: words) p := by
  by_cases hc : text = ":" ∧ ∃ rest, textOf chunks = ':' :: rest
  · obtain ⟨rfl, rest, hrest⟩ := hc
    exact colon_append hrest p
  · have hne : text = ":" → ∀ rest, textOf chunks ≠ ':' :: rest :=
      fun htext rest hrest => hc ⟨htext, rest, hrest⟩
    rw [← List.singleton_append]
    refine token_append (ht hne) (by simp) ?_ h p
    have hhead : (text == ":" && (textOf chunks).head? == some ':') = false := by
      by_contra hb
      simp only [Bool.not_eq_false, Bool.and_eq_true, beq_iff_eq] at hb
      obtain ⟨rest, hrest⟩ := List.head?_eq_some_iff.1 hb.2
      exact hne hb.1 rest hrest
    simp [fuses, hhead]

end ReadBack

/-- The scanner finds the words of a text that mirrors another, unless something fuses. -/
theorem Mirrors.readBack {old : List Char} {chunks : List Chunk} {words : List Word}
    (h : Mirrors old chunks words) (hs : swallows chunks = false) (p : Position) :
    ReadBack chunks words p := by
  induction h generalizing p with
  | nil => simp [ReadBack, fuses]
  | gap hg _ ih => exact .gap_append hg (ih hs) p
  | @token cls kind text old chunks words ht h ih =>
    simp only [swallows, Bool.or_eq_false_iff] at hs
    refine .mark_append (fun hcolon => ?_) (ih hs.2) p
    refine ht.move h.lookahead.1 (fun htext => hcolon ?_) fun htext => ?_
    · rw [← String.ofList_toList (s := text), htext]
    · have hslash : text = "/" := by rw [← String.ofList_toList (s := text), htext]
      simpa [hslash] using hs.1
  | @pieces op n old chunks words hop ht h ih =>
    have hop' := gluedAngles?_cases hop
    refine .token_append ?_ (textOf_pieceChunks hop) ?_ (ih ?_) p
    · refine ht.move h.lookahead.1 ?_ ?_ <;>
        rcases hop' with ⟨rfl, -⟩ | ⟨rfl, -⟩ <;> simp
    · rcases hop' with ⟨-, rfl⟩ | ⟨-, rfl⟩ <;> simp [pieceChunks, fuses]
    · rcases hop' with ⟨-, rfl⟩ | ⟨-, rfl⟩ <;> simpa [pieceChunks, swallows] using hs
  | blank _ ih => exact .gap_append (.blank (by decide) .nil) (ih hs) p
  | mark hm hbang _ _ ih =>
    simp only [swallows, Bool.or_eq_false_iff] at hs
    exact .mark_append (fun hcolon => isToken_mark hm hcolon hbang) (ih hs.2) p
  | @step cls kind kind' op name gap old chunks words hm hbang hg hname hi _ ih =>
    have hs' : swallows chunks = false := by
      simp only [swallows, swallows_gapChunk, Bool.or_eq_false_iff] at hs
      exact hs.2.2
    have hname' : IsToken .name name.toList (textOf chunks) := by
      refine hname.move (.of_inert hi) ?_ ?_
      · intro htext
        rw [htext] at hname
        exact absurd hname.token (by decide)
      · intro htext
        rw [htext] at hname
        exact absurd hname.token (by decide)
    have hrest (p : Position) :
        ReadBack (gapChunk gap ++ .token ⟨kind', name⟩ :: chunks) ((.name, name) :: words) p := by
      rcases hg with rfl | rfl
      · exact .mark_append (fun _ => hname') (ih hs') p
      · exact .gap_append (.blank (by decide) .nil) (.mark_append (fun _ => hname') (ih hs')) p
    exact .mark_append (fun hcolon => isToken_mark hm hcolon fun h => absurd h hbang) hrest p

/-! ## Colons of trees -/

mutual

theorem words_bare : ∀ t : Tree, t.bare.words = t.words
  | .ident .. | .punct .. | .literal .. => rfl
  | .group d ts _ => by cases d <;> simp only [Tree.bare, Tree.words, streamWords_bareOf ts]

theorem streamWords_bareOf : ∀ ts : List Tree, streamWords (bareOf ts) = streamWords ts
  | [] => rfl
  | t :: ts => by simp only [bareOf, streamWords, words_bare t, streamWords_bareOf ts]

end

theorem colons_append (as bs : List String) : colons (as ++ bs) = colons as ++ colons bs :=
  List.filter_append _ _

theorem colons_leafWords (text : String) : colons (leafWords text) = colons [text] := by
  unfold leafWords
  split
  · rename_i h; rw [h]; rfl
  · rfl

/-- Brackets are no colons. -/
theorem colons_group (d : Delimiter) (ts : List Tree) (span : Span) :
    colons (Tree.words (.group d ts span)) = colons (streamWords ts) := by
  cases d with
  | invisible => rfl
  | paren | brace | bracket =>
    simp only [Tree.words]
    split
    · rename_i h; rw [h]; rfl
    · rw [List.cons_append, ← List.singleton_append, colons_append, colons_append]
      simp [colons, Delimiter.opening, Delimiter.closing]

theorem Spells.colons_eq {words : List Word} {ts : List Tree} (h : Spells words ts) :
    colons (streamWords ts) = colons (words.map Prod.snd) := by
  induction h with
  | nil => rfl
  | @leaf w t words ts hl ht _ ih =>
    have hw : t.words = leafWords w.2 := by
      rw [← words_bare, ht]
      obtain ⟨cls, text⟩ := w
      cases cls <;> rfl
    rw [streamWords, colons_append, hw, colons_leafWords, ih, ← colons_append]
    rfl
  | @group d span inner words children ts _ _ ihin ih =>
    rw [streamWords, colons_append, colons_group, ihin, ih]
    cases d <;> simp [colons, Delimiter.opening, Delimiter.closing]

theorem Splits.colons_eq {ts us : List Tree} (h : Splits ts us) :
    colons (streamWords ts) = colons (streamWords us) := by
  induction h with
  | nil => rfl
  | keep _ ih => simp only [streamWords, colons_append, ih]
  | @pieces op span n ts us hop _ ih =>
    have hpieces : colons (streamWords (anglePieces span n ++ equalsPiece span n :: us)) =
        colons (streamWords us) := by
      rcases gluedAngles?_cases hop with ⟨-, rfl⟩ | ⟨-, rfl⟩ <;> rfl
    have hglued : colons (leafWords op) = [] := by
      rcases gluedAngles?_cases hop with ⟨rfl, -⟩ | ⟨rfl, -⟩ <;> rfl
    rw [hpieces, streamWords, Tree.words, colons_append, hglued, ih, List.nil_append]
  | inside _ _ ihin ih => simp only [streamWords, colons_append, colons_group, ihin, ih]

/-! ## The trees of a text spell its words -/

/-- The lexemes are tokens, and the trees are made of them. -/
inductive Forms (file : Option String) : List Lexeme → List Tree → Prop
  | nil : Forms file [] []
  | leaf {l : Lexeme} {mid : List Char} {ls : List Lexeme} {t : Tree} {ts : List Tree} :
      IsToken l.cls l.text.toList mid → l.cls.isLeaf = true → t = l.leaf file →
      Forms file ls ts → Forms file (l :: ls) (t :: ts)
  | group {d : Delimiter} {p q : Position} {mid : List Char} {ls ms : List Lexeme}
      {children ts : List Tree} :
      d ≠ .invisible → IsToken (.closing d) d.closing.toList mid →
      Forms file ls children → Forms file ms ts →
      Forms file (⟨.opening d, d.opening, p, p.advance d.opening.toList⟩ ::
          (ls ++ ⟨.closing d, d.closing, q, q.advance d.closing.toList⟩ :: ms))
        (.group d children (Span.between file p (q.advance d.closing.toList)) :: ts)

/-- Trees that were read are made of the lexemes that the scanner finds. -/
theorem Reads.forms {file : Option String} {p q : Position} {cs rest : List Char} {ts : List Tree}
    (h : Reads file p cs ts q rest) :
    ∃ ls, (scanFrom p cs).lexemes = ls ++ (scanFrom q rest).lexemes ∧ Forms file ls ts := by
  induction h with
  | nil => exact ⟨[], rfl, .nil⟩
  | @leaf p q gap text mid rest cls t ts hg ht hl he _ ih =>
    obtain ⟨ls, hscan, hforms⟩ := ih
    refine ⟨⟨cls, String.ofList text, p.advance gap, (p.advance gap).advance text⟩ :: ls, ?_, ?_⟩
    · rw [scanFrom_gap hg, scanFrom_token _ ht]
      simp [hscan]
    · exact .leaf (by rwa [String.toList_ofList]) hl he hforms
  | @group p q r gap opening inner gap' closing mid rest d children ts hg ho _ hg' hc _ ih ih' =>
    obtain ⟨ls, hscan, hforms⟩ := ih
    obtain ⟨ls', hscan', hforms'⟩ := ih'
    obtain ⟨rfl, hd⟩ := ho.opening
    obtain ⟨rfl, -⟩ := hc.closing
    refine ⟨_, ?_, .group hd hc hforms hforms'⟩
    rw [scanFrom_gap hg, scanFrom_token _ ho]
    rw [scanFrom_gap hg', scanFrom_token _ hc] at hscan
    simp [hscan, hscan']

theorem tokenize_forms {s : List Char} {file : Option String} {trees : List Tree}
    (h : tokenize s file = .ok trees) : Forms file (scan s).lexemes trees := by
  obtain ⟨q, rest, hr, hrest⟩ := tokenize_reads h
  obtain ⟨ls, hscan, hforms⟩ := hr.forms
  obtain ⟨gap, tail, rfl, hg, ht⟩ := scan_eq_empty_iff.1 hrest
  rw [scanFrom_trailing hg ht] at hscan
  rw [scan, hscan]
  simpa using hforms

theorem Forms.spells {file : Option String} {ls : List Lexeme} {ts : List Tree}
    (h : Forms file ls ts) : Spells (ls.map Lexeme.word) ts := by
  induction h with
  | nil => exact .nil
  | leaf _ hl he _ ih => exact .leaf hl (he ▸ Lexeme.bare_leaf file _) ih
  | group _ _ _ _ ihin ih =>
    rw [List.map_cons, List.map_append, List.map_cons]
    exact .group ihin ih

/-- A text whose words are found is read as the trees that they spell. -/
theorem Spells.tokenize {s : List Char} {ts : List Tree}
    (h : Spells ((scan s).lexemes.map Lexeme.word) ts) (hs : (scan s).stuck = none)
    (file : Option String) :
    ∃ us, InlineVariants.tokenize s file = .ok us ∧ bareOf us = bareOf ts := by
  obtain ⟨us, hus, hbuild⟩ := h.build file rfl
  refine ⟨us, ?_, hus⟩
  have := hbuild [] [] []
  rw [List.append_nil, List.append_nil] at this
  simp only [InlineVariants.tokenize, hs, this, Tree.build, Tree.finish, List.reverse_reverse]

end InlineVariants
