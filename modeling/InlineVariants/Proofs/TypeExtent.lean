import InlineVariants.Proofs.Descending
import InlineVariants.Proofs.SpacedForm

/-!
# Where a type ends among its trees

The type of a field is cut out by counting angle brackets (`typeRun`) and only then read with the
grammar. The two agree because the grammar closes every angle bracket that it opens, and has `=`, `,`,
`;` and braces inside of angle brackets or groups only. `Depths` counts groups as well, so that one and
the same count runs over the lexemes of a phrase, where brackets are tokens, and over the trees that
they spell.

Main statement: in front of a `=`, the run takes exactly the trees of the type (`typeRun_type`).
-/

namespace InlineVariants

open Lexeme

/-! ## Counting brackets -/

/-- How many groups and, outside of groups, how many angle brackets are open. -/
@[ext]
structure Depths where
  groups : Nat
  angles : Nat

/-- The marks that matter to the end of a type. -/
def angleMarks : List String := ["<", ">", ">=", ">>=", "=", ",", ";"]

namespace Depths

/-- Whether a comma, `=`, `;` or a brace is part of a type here. -/
def Inside (d : Depths) : Prop := 0 < d.groups ∨ 0 < d.angles

instance (d : Depths) : Decidable d.Inside := inferInstanceAs (Decidable (_ ∨ _))

/-- The depths behind a mark outside of groups; nothing, if the mark ends the type or closes what is
not open. -/
def passMark (d : Depths) (op : String) : Option Depths :=
  if op = "<" then some { d with angles := d.angles + 1 }
  else if d.angles = 0 then if angleMarks.contains op then none else some d
  else if op = ">" then some { d with angles := d.angles - 1 }
  else if (gluedAngles? op).isSome then none
  else some d

/-- The depths behind a word. -/
def pass (d : Depths) : Word → Option Depths
  | (.opening e, _) =>
    if e = .brace ∧ ¬ d.Inside then none else some { d with groups := d.groups + 1 }
  | (.closing _, _) => if d.groups = 0 then none else some { d with groups := d.groups - 1 }
  | (.punct, op) => if d.groups = 0 then d.passMark op else some d
  | _ => some d

/-- From the first depths, the words lead to the second ones. -/
def Leads (d d' : Depths) (ws : List Word) : Prop := ws.foldlM pass d = some d'

/-- The words leave the depths as they are. -/
abbrev Keeps (d : Depths) (ws : List Word) : Prop := d.Leads d ws

variable {d d' d'' : Depths} {ws ws' : List Word} {w : Word}

theorem Leads.nil : d.Keeps [] := rfl

theorem Leads.cons (hw : d.pass w = some d') (h : d'.Leads d'' ws) : d.Leads d'' (w :: ws) := by
  simpa [Leads, hw] using h

theorem Leads.append (h : d.Leads d' ws) (h' : d'.Leads d'' ws') : d.Leads d'' (ws ++ ws') := by
  unfold Leads at *
  rw [List.foldlM_append, h]
  exact h'

theorem Leads.cons_inv (h : d.Leads d'' (w :: ws)) : ∃ d', d.pass w = some d' ∧ d'.Leads d'' ws := by
  unfold Leads at *
  rw [List.foldlM_cons] at h
  exact Option.bind_eq_some_iff.1 h

/-- Inside of a group no leaf counts. -/
theorem pass_leaf (hd : 0 < d.groups) (hl : w.1.isLeaf = true) : d.pass w = some d := by
  obtain ⟨cls, op⟩ := w
  cases cls with
  | punct => exact if_neg (Nat.ne_of_gt hd)
  | opening | closing => simp [LexemeClass.isLeaf] at hl
  | _ => rfl

theorem pass_opening {e : Delimiter} (h : e ≠ .brace ∨ d.Inside) (text : String) :
    d.pass (.opening e, text) = some { d with groups := d.groups + 1 } :=
  if_neg fun hn => h.elim (· hn.1) hn.2

theorem pass_opening_inv {e : Delimiter} {text : String} (h : d.pass (.opening e, text) = some d') :
    (e ≠ .brace ∨ d.Inside) ∧ d' = { d with groups := d.groups + 1 } := by
  rw [pass] at h
  split_ifs at h with hn
  refine ⟨?_, (Option.some.inj h).symm⟩
  by_cases he : e = .brace
  · exact .inr (not_not.1 fun hin => hn ⟨he, hin⟩)
  · exact .inl he

end Depths

open Depths

/-- Trees inside of a group leave the depths as they are. -/
theorem Spells.keeps {d : Depths} {words : List Word} {ts : List Tree} (h : Spells words ts)
    (hd : 0 < d.groups) : d.Keeps words := by
  induction h generalizing d with
  | nil => exact .nil
  | leaf hl _ _ ih => exact .cons (pass_leaf hd hl) (ih hd)
  | group _ _ ihin ih =>
    refine .cons (pass_opening (.inr (.inl hd)) _) ?_
    refine (ihin (d := { d with groups := d.groups + 1 }) (Nat.succ_pos _)).append ?_
    exact .cons rfl (ih hd)

/-- Behind a group the depths are as in front of it, and braces are inside. -/
theorem Spells.leads_group_inv {e : Delimiter} {inner words : List Word} {children : List Tree}
    (hin : Spells inner children) {a b : Nat}
    (h : Leads ⟨0, a⟩ ⟨0, b⟩ ((.opening e, e.opening) :: (inner ++ (.closing e, e.closing) :: words))) :
    (e = .brace → a ≠ 0) ∧ Leads ⟨0, a⟩ ⟨0, b⟩ words := by
  obtain ⟨d, hpass, hrest⟩ := h.cons_inv
  obtain ⟨hbrace, rfl⟩ := pass_opening_inv hpass
  have hkeep : Keeps ⟨1, a⟩ inner := hin.keeps Nat.one_pos
  have hclose : Leads ⟨1, a⟩ ⟨0, b⟩ ((.closing e, e.closing) :: words) := by
    unfold Leads Keeps at *
    rwa [List.foldlM_append, hkeep] at hrest
  obtain ⟨d, hpass', hwords⟩ := hclose.cons_inv
  obtain rfl : d = ⟨0, a⟩ := by simpa [Depths.pass, eq_comm] using hpass'
  refine ⟨fun he => ?_, hwords⟩
  have hinside : 0 < 0 ∨ 0 < a := hbrace.resolve_left (· he)
  omega

/-- What a mark may be that the count passes. -/
theorem passMark_cases {a : Nat} {op : String} {d : Depths} (h : passMark ⟨0, a⟩ op = some d) :
    (op = "<" ∧ d = ⟨0, a + 1⟩) ∨ (op = ">" ∧ a ≠ 0 ∧ d = ⟨0, a - 1⟩) ∨
      (op ≠ "<" ∧ op ≠ ">" ∧ gluedAngles? op = none ∧ (a = 0 → op ∉ angleMarks) ∧ d = ⟨0, a⟩) := by
  unfold passMark at h
  split_ifs at h with hopen hzero hmark hclose hglue
  · exact .inl ⟨hopen, (Option.some.inj h).symm⟩
  · have hmark' : op ∉ angleMarks := by simpa using hmark
    have hnames := hmark'
    simp only [angleMarks, List.mem_cons, List.not_mem_nil, or_false, not_or] at hnames
    obtain ⟨-, hclose, hglue, hglue', -⟩ := hnames
    exact .inr (.inr ⟨hopen, hclose, by simp [gluedAngles?, hglue, hglue'], fun _ => hmark',
      (Option.some.inj h).symm⟩)
  · exact .inr (.inl ⟨hclose, hzero, (Option.some.inj h).symm⟩)
  · exact .inr (.inr ⟨hopen, hclose, by simpa using hglue, fun he => absurd he hzero,
      (Option.some.inj h).symm⟩)

/-- The run takes a mark that the count passes, and counts as it does. -/
theorem typeRun_mark {a : Nat} {op : String} {d : Depths} (h : passMark ⟨0, a⟩ op = some d)
    (span : Span) (rest : List Tree) :
    d.groups = 0 ∧ typeRun a (.punct op span :: rest) =
      (.punct op span :: (typeRun d.angles rest).1, (typeRun d.angles rest).2) := by
  have htake {b : Nat} (hend : ¬ (a = 0 ∧ (op = "=" ∨ op = ","))) (hglued : gluedAngles? op ≠ some a)
      (hb : angleDepth a op = b) : typeRun a (.punct op span :: rest) =
        (.punct op span :: (typeRun b rest).1, (typeRun b rest).2) := by
    rw [typeRun, if_neg (by simpa using hend), if_neg hglued, hb]
  rcases passMark_cases h with ⟨rfl, rfl⟩ | ⟨rfl, -, rfl⟩ | ⟨hopen, hclose, hglue, hmark, rfl⟩
  · exact ⟨rfl, htake (by simp) (by simp [gluedAngles?]) (by simp [angleDepth])⟩
  · exact ⟨rfl, htake (by simp) (by simp [gluedAngles?]) (by simp [angleDepth])⟩
  · refine ⟨rfl, htake ?_ (by simp [hglue]) (by simp [angleDepth, hopen, hclose])⟩
    rintro ⟨hzero, rfl | rfl⟩ <;> exact hmark hzero (by decide)

theorem typeRun_other {a : Nat} {t : Tree} (ht : ∀ op span, t ≠ .punct op span) (rest : List Tree) :
    typeRun a (t :: rest) = (t :: (typeRun a rest).1, (typeRun a rest).2) := by
  cases t with
  | punct op span => exact absurd rfl (ht op span)
  | _ => rw [typeRun]; simp

/-- The run over trees keeps the count of the words they are spelled with. -/
theorem Spells.typeRun_eq {words : List Word} {ts : List Tree} (h : Spells words ts) {a b : Nat}
    (hlead : Leads ⟨0, a⟩ ⟨0, b⟩ words) (rest : List Tree) :
    typeRun a (ts ++ rest) = (ts ++ (typeRun b rest).1, (typeRun b rest).2) := by
  induction h generalizing a with
  | nil =>
    obtain rfl : a = b := by simpa [Leads] using hlead
    rfl
  | @leaf w t words ts hl ht _ ih =>
    obtain ⟨⟨groups, angles⟩, hpass, hrest⟩ := hlead.cons_inv
    obtain ⟨cls, text⟩ := w
    cases cls with
    | opening | closing => simp [LexemeClass.isLeaf] at hl
    | punct =>
      cases t with
      | punct op span =>
        obtain rfl : op = text := by simpa [Tree.bare, Word.leaf, Lexeme.leaf] using ht
        obtain ⟨hgroups, hrun⟩ := typeRun_mark hpass span (ts ++ rest)
        obtain rfl : groups = 0 := hgroups
        rw [List.cons_append, hrun, ih hrest]
        rfl
      | _ => simp [Tree.bare, Word.leaf, Lexeme.leaf] at ht
    | _ =>
      obtain ⟨rfl, rfl⟩ : 0 = groups ∧ a = angles := by simpa [Depths.pass] using hpass
      cases t with
      | punct | group => simp [Tree.bare, Word.leaf, Lexeme.leaf] at ht
      | ident | literal => rw [List.cons_append, typeRun_other (by simp), ih hrest]; rfl
  | @group d span inner words children ts hin _ _ ih =>
    obtain ⟨-, hrest⟩ := hin.leads_group_inv hlead
    rw [List.cons_append, typeRun_other (by simp), ih hrest]
    rfl

/-! ## Phrases -/

namespace TypeExpr

/-- The words of lexemes. -/
abbrev wordsOf (ls : List Lexeme) : List Word := ls.map Lexeme.word

section

variable {d d' : Depths} {l : Lexeme}

/-- A mark that is none of the counted ones. -/
theorem pass_mark {op : String} (hl : isMark op l = true) (hop : op ∉ angleMarks) :
    d.pass l.word = some d := by
  obtain ⟨hc, rfl⟩ := isMark_iff.1 hl
  simp only [angleMarks, List.mem_cons, List.not_mem_nil, or_false, not_or] at hop
  obtain ⟨h1, h2, h3, h4, h5, h6, h7⟩ := hop
  simp [Lexeme.word, hc, Depths.pass, passMark, angleMarks, gluedAngles?, h1, h2, h3, h4, h5, h6, h7]

/-- A comma, `=` or `;` inside. -/
theorem pass_separator {op : String} (hd : d.Inside) (hl : isMark op l = true)
    (hop : op = "," ∨ op = "=" ∨ op = ";") : d.pass l.word = some d := by
  obtain ⟨hc, rfl⟩ := isMark_iff.1 hl
  have hangles : d.groups = 0 → d.angles ≠ 0 := by
    unfold Inside at hd
    omega
  rcases hop with h | h | h <;> by_cases hg : d.groups = 0 <;>
    simp [Lexeme.word, hc, h, Depths.pass, passMark, gluedAngles?, hg, hangles]

/-- What is no mark and no bracket does not count. -/
theorem pass_isOf {cls : LexemeClass} (hl : isOf cls l = true)
    (hcls : cls ≠ .punct ∧ cls.isLeaf = true) : d.pass l.word = some d := by
  obtain rfl := isOf_iff.1 hl
  cases hc : l.cls <;> simp_all [Lexeme.word, Depths.pass, LexemeClass.isLeaf]

theorem pass_freeName (hl : isFreeName l = true) : d.pass l.word = some d :=
  pass_isOf (isOf_iff.2 (isFreeName_iff.1 hl).1) (by decide)

theorem pass_reserved {word : String} (hl : isReserved word l = true) : d.pass l.word = some d :=
  pass_isOf (isOf_iff.2 (isReserved_iff.1 hl).1) (by decide)

/-- The lexeme opens what each of the closing ones closes. -/
def Encloses (d : Depths) (o : Lexeme) (close : Lexeme → Bool) : Prop :=
  ∃ d', d.pass o.word = some d' ∧ d'.Inside ∧ ∀ c, close c = true → d'.pass c.word = some d

theorem encloses_angles {o : Lexeme} (ho : isMark "<" o = true) : Encloses d o (isMark ">") := by
  obtain ⟨hc, ht⟩ := isMark_iff.1 ho
  by_cases hg : d.groups = 0
  · refine ⟨{ d with angles := d.angles + 1 }, by simp [Lexeme.word, hc, ht, Depths.pass, passMark, hg],
      .inr (Nat.succ_pos _), fun c hclose => ?_⟩
    obtain ⟨hc', ht'⟩ := isMark_iff.1 hclose
    simp [Lexeme.word, hc', ht', Depths.pass, passMark, hg, Depths.ext_iff]
  · refine ⟨d, by simp [Lexeme.word, hc, Depths.pass, hg], .inl (Nat.pos_of_ne_zero hg), fun c hclose => ?_⟩
    obtain ⟨hc', -⟩ := isMark_iff.1 hclose
    simp [Lexeme.word, hc', Depths.pass, hg]

theorem pass_group {e : Delimiter} {o : Lexeme} (ho : isOf (.opening e) o = true)
    (he : e ≠ .brace ∨ d.Inside) :
    ∃ d', d.pass o.word = some d' ∧ 0 < d'.groups ∧
      ∀ c, isOf (.closing e) c = true → d'.pass c.word = some d := by
  have hc := isOf_iff.1 ho
  refine ⟨{ d with groups := d.groups + 1 }, ?_, Nat.succ_pos _, fun c hclose => ?_⟩
  · rw [Lexeme.word, hc]
    exact pass_opening he _
  have hc' := isOf_iff.1 hclose
  simp [Lexeme.word, hc', Depths.pass]

theorem encloses_group {e : Delimiter} {o : Lexeme} (ho : isOf (.opening e) o = true)
    (he : e ≠ .brace) : Encloses d o (isOf (.closing e)) := by
  obtain ⟨d', hopen, hpos, hclose⟩ := pass_group ho (.inl he)
  exact ⟨d', hopen, .inl hpos, hclose⟩

end

/-- Phrases of a kind leave the depths as they are. -/
def Level (d : Depths) (p : Phrase α) : Prop := ∀ ls a e, p ls a e → d.Keeps (wordsOf ls)

section Lists

variable {d d' : Depths} {close : Lexeme → Bool} {item : Phrase α} {ls : List Lexeme} {as : List α}
  {e : Ends}

theorem ListTail.leads (hitem : Level d' item) (hin : d'.Inside)
    (hclose : ∀ c, close c = true → d'.pass c.word = some d) (h : ListTail close item ls as e) :
    d'.Leads d (wordsOf ls) := by
  induction h with
  | close hc => exact .cons (hclose _ hc) .nil
  | trailing hx hc => exact .cons (pass_separator hin hx (.inl rfl)) (.cons (hclose _ hc) .nil)
  | cons hx ha _ ih =>
    rw [wordsOf, List.map_cons, List.map_append]
    exact .cons (pass_separator hin hx (.inl rfl)) ((hitem _ _ _ ha).append ih)

/-- A list closes what was opened in front of it. -/
theorem Listed.keeps {o : Lexeme} (h : Listed close item ls as e) (hopen : Encloses d o close)
    (hitem : ∀ d', d'.Inside → Level d' item) : d.Keeps (wordsOf (o :: ls)) := by
  obtain ⟨d', ho, hin, hclose⟩ := hopen
  refine .cons ho ?_
  cases h with
  | nil hc => exact .cons (hclose _ hc) .nil
  | some hi =>
    obtain ⟨ha, ht⟩ := hi
    rw [List.map_append]
    exact (hitem d' hin _ _ _ ha).append (ht.leads (hitem d' hin) hin hclose)

theorem Chain.level {g : Bool} {k : Link} (hitem : Level d item) : Level d (Chain g k item) := by
  have hsep {s : Lexeme} (hs : k.isSep s = true) : d.pass s.word = some d := by
    cases k with
    | path => exact pass_mark hs (by decide)
    | bounds => exact pass_mark hs (by decide)
  have htail {e : Ends} {ls : List Lexeme} {as : List α} {e' : Ends}
      (h : ChainTail g k item e ls as e') : d.Keeps (wordsOf ls) := by
    induction h with
    | nil => exact .nil
    | cons hs _ ha _ ih =>
      rw [wordsOf, List.map_cons, List.map_append]
      exact .cons (hsep hs) ((hitem _ _ _ ha).append ih)
  rintro _ _ e ⟨ha, ht⟩
  rw [wordsOf, List.map_append]
  exact (hitem _ _ _ ha).append (htail ht)

end Lists

theorem Maybe.keeps {d : Depths} {kind : List Lexeme → Prop} {ls : List Lexeme} (h : Maybe kind ls)
    (hkind : kind ls → d.Keeps (wordsOf ls)) : d.Keeps (wordsOf ls) := by
  rcases h with rfl | h
  · exact .nil
  · exact hkind h

theorem One.keeps {d : Depths} {test : Lexeme → Bool} {ls : List Lexeme} (h : One test ls)
    (htest : ∀ l, test l = true → d.pass l.word = some d) : d.Keeps (wordsOf ls) := by
  obtain ⟨l, rfl, hl⟩ := h
  exact .cons (htest l hl) .nil

/-- Anything inside of a group leaves the depths as they are. -/
theorem TokenRun.keeps {d : Depths} {ls : List Lexeme} (h : TokenRun ls) (hd : 0 < d.groups) :
    d.Keeps (wordsOf ls) := by
  induction h generalizing d with
  | nil => exact .nil
  | @leaf l ls hl _ ih =>
    refine .cons (pass_leaf hd ?_) (ih hd)
    cases hc : l.cls with
    | opening e => exact absurd hc (hl e).1
    | closing e => exact absurd hc (hl e).2
    | _ => simp [Lexeme.word, hc, LexemeClass.isLeaf]
  | group ho _ hc _ ihin ih =>
    obtain ⟨d', hopen, hpos, hclose⟩ := pass_group (d := d) (isOf_iff.2 ho) (.inr (.inl hd))
    rw [wordsOf, List.map_cons, List.map_append, List.map_cons]
    exact .cons hopen ((ihin hpos).append (.cons (hclose _ (isOf_iff.2 hc)) (ih hd)))

theorem TokenRun.of_length {ls : List Lexeme} (h : ∀ l ∈ ls, isLengthPart l = true) :
    TokenRun ls := by
  induction ls with
  | nil => exact .nil
  | cons l ls ih =>
    refine .leaf (fun e => ?_) (ih fun m hm => h m (List.mem_cons_of_mem _ hm))
    have hl := h l List.mem_cons_self
    constructor <;> intro hc <;> simp [isLengthPart, isFreeName, isOf, isMark, hc] at hl

/-- A binder closes its angle brackets. -/
theorem Binder.keeps {d : Depths} {ls : List Lexeme} (h : Binder ls) : d.Keeps (wordsOf ls) := by
  obtain ⟨f, o, ms, as, e, rfl, hf, ho, hitems⟩ := h
  refine .cons (pass_reserved hf) ?_
  refine (Listed.some hitems).keeps (encloses_angles ho) fun d' _ => ?_
  rintro _ l _ ⟨rfl, hl, -⟩
  exact .cons (pass_isOf hl (by decide)) .nil

section Rules

variable {g : Bool} {path ty : Phrase TypeExpr} {d : Depths}

theorem Returned.level (hty : Level d ty) : Level d (Returned ty) := by
  intro ls ts e h
  cases h with
  | none => exact .nil
  | some hm ht => exact .cons (pass_mark hm (by decide)) (hty _ _ _ ht)

theorem IsArg.level (hd : d.Inside) (hty : Level d ty) : Level d (IsArg ty) := by
  intro ls a e h
  cases h with
  | type ht => exact hty _ _ _ ht
  | lifetime hl => exact .cons (pass_isOf hl (by decide)) .nil
  | binding hl hm ht =>
    exact .cons (pass_freeName hl) (.cons (pass_separator hd hm (.inr (.inl rfl))) (hty _ _ _ ht))
  | literal hl =>
    simp only [Bool.or_eq_true] at hl
    rcases hl with (hl | hl) | hl
    all_goals exact .cons (pass_isOf hl (by decide)) .nil
  | negative hm hl =>
    exact .cons (pass_mark hm (by decide)) (.cons (pass_isOf hl (by decide)) .nil)
  | braced ho hr hclose =>
    obtain ⟨d', hopen, hpos, hend⟩ := pass_group ho (.inr hd)
    rw [wordsOf, List.map_cons, List.map_append]
    exact .cons hopen ((hr.keeps hpos).append (.cons (hend _ hclose) .nil))

theorem IsSegment.level (hty : ∀ d, Level d ty) : Level d (IsSegment ty) := by
  intro ls a e h
  cases h with
  | plain hl => exact .cons (pass_freeName hl) .nil
  | generic hl ho hargs =>
    refine .cons (pass_freeName hl) ?_
    exact hargs.keeps (encloses_angles ho) fun d' hd' => IsArg.level hd' (hty d')
  | callable hl ho hparams hresult =>
    have hlist := hparams.keeps (encloses_group (d := d) ho (by decide)) fun d' _ => hty d'
    rw [wordsOf, List.map_cons, List.map_cons, List.map_append]
    exact .cons (pass_freeName hl) (hlist.append (Returned.level (hty d) _ _ _ hresult))

theorem SelfType.keeps {o : Lexeme} {ls : List Lexeme} {t : TypeExpr} {e : Ends}
    (h : SelfType path ty ls t e) (ho : isMark "<" o = true) (hpath : ∀ d, Level d path)
    (hty : ∀ d, Level d ty) : d.Keeps (wordsOf (o :: ls)) := by
  obtain ⟨d', hopen, -, hclose⟩ := encloses_angles (d := d) ho
  refine .cons hopen ?_
  cases h with
  | plain ht hc =>
    rw [List.map_append]
    exact (hty d' _ _ _ ht).append (.cons (hclose _ hc) .nil)
  | ofTrait ht hm htrait hc =>
    rw [List.map_append, List.map_cons, List.map_append]
    refine (hty d' _ _ _ ht).append (.cons (pass_reserved hm) ?_)
    exact (hpath d' _ _ _ htrait).append (.cons (hclose _ hc) .nil)

theorem PathOver.level (hpath : ∀ d, Level d path) (hty : ∀ d, Level d ty) :
    Level d (PathOver g path ty) := by
  have hsegs : Level d (Chain g .path (IsSegment ty)) := Chain.level (IsSegment.level hty)
  intro ls t e h
  cases h with
  | relative hs => exact hsegs _ _ _ hs
  | absolute hm hs => exact .cons (pass_mark hm (by decide)) (hsegs _ _ _ hs)
  | qualified ho hself hm hs =>
    have hhead := hself.keeps (d := d) ho hpath hty
    rw [wordsOf, List.map_cons, List.map_append, List.map_cons, ← List.cons_append]
    exact hhead.append (.cons (pass_mark hm (by decide)) (hsegs _ _ _ hs))

theorem IsBound.level (hpath : Level d path) : Level d (IsBound path) := by
  intro ls ts e h
  cases h with
  | plain hp => exact hpath _ _ _ hp
  | lifetime hl => exact .cons (pass_isOf hl (by decide)) .nil
  | relaxed hm hp => exact .cons (pass_mark hm (by decide)) (hpath _ _ _ hp)
  | bound hb hp =>
    rw [wordsOf, List.map_append]
    exact hb.keeps.append (hpath _ _ _ hp)

/-- A function pointer opens its parameters. -/
theorem FunctionHead.exists_opening {ls : List Lexeme} (h : FunctionHead ls) :
    ∃ front o, ls = front ++ [o] ∧ isOf (.opening .paren) o = true ∧
      ∀ d : Depths, d.Keeps (wordsOf front) := by
  obtain ⟨bs, us, xs, f, o, rfl, hb, hu, hx, hf, ho⟩ := h
  refine ⟨bs ++ (us ++ (xs ++ [f])), o, by simp, ho, fun d => ?_⟩
  have hbinder : d.Keeps (wordsOf bs) := hb.keeps Binder.keeps
  have hsafety : d.Keeps (wordsOf us) := hu.keeps (·.keeps fun _ => pass_reserved)
  have hlinkage : d.Keeps (wordsOf xs) := by
    refine hx.keeps ?_
    rintro ⟨x, ms, rfl, hx, hms⟩
    exact .cons (pass_reserved hx) (hms.keeps (·.keeps fun _ hl => pass_isOf hl (by decide)))
  simp only [wordsOf, List.map_append]
  exact hbinder.append (hsafety.append (hlinkage.append (.cons (pass_reserved hf) .nil)))

theorem TypeOver.level (hpath : ∀ d, Level d path) (hty : ∀ d, Level d ty) :
    Level d (TypeOver g path ty) := by
  have hbounds : Level d (Chain g .bounds (IsBound path)) := Chain.level (IsBound.level (hpath d))
  intro ls t e h
  cases h with
  | path hp => exact PathOver.level hpath hty _ _ _ hp
  | @reference m as us _ _ _ hm ha hu ht =>
    have hmark : d.pass m.word = some d := by
      rcases Bool.or_eq_true_iff.1 hm with hm | hm <;> exact pass_mark hm (by decide)
    have hlife : d.Keeps (wordsOf as) := ha.keeps (·.keeps fun _ hl => pass_isOf hl (by decide))
    have hmut : d.Keeps (wordsOf us) := hu.keeps (·.keeps fun _ => pass_reserved)
    simp only [wordsOf, List.map_cons, List.map_append]
    exact .cons hmark (hlife.append (hmut.append (hty d _ _ _ ht)))
  | @pointer _ k _ _ _ hm hk ht =>
    have hword : d.pass k.word = some d := by
      rcases Bool.or_eq_true_iff.1 hk with hk | hk <;> exact pass_reserved hk
    exact .cons (pass_mark hm (by decide)) (.cons hword (hty d _ _ _ ht))
  | tuple ho hparts => exact hparts.keeps (encloses_group ho (by decide)) fun d' _ => hty d'
  | slice ho ht hc =>
    obtain ⟨d', hopen, -, hclose⟩ := encloses_group (d := d) ho (by decide)
    rw [wordsOf, List.map_cons, List.map_append]
    exact .cons hopen ((hty d' _ _ _ ht).append (.cons (hclose _ hc) .nil))
  | array ho ht hm _ hlen hc =>
    obtain ⟨d', hopen, hpos, hclose⟩ := pass_group (d := d) ho (.inl (by decide))
    have hsemicolon := pass_separator (.inl hpos) hm (.inr (.inr rfl))
    have hlength := (TokenRun.of_length hlen).keeps hpos
    simp only [wordsOf, List.map_cons, List.map_append]
    refine .cons hopen ((hty d' _ _ _ ht).append (.cons hsemicolon ?_))
    exact hlength.append (.cons (hclose _ hc) .nil)
  | never hm => exact .cons (pass_mark hm (by decide)) .nil
  | impl hw hbs => exact .cons (pass_reserved hw) (hbounds _ _ _ hbs)
  | dyn hw hbs => exact .cons (pass_reserved hw) (hbounds _ _ _ hbs)
  | function hh hparams hresult =>
    obtain ⟨front, o, rfl, ho, hfront⟩ := hh.exists_opening
    have hlist := hparams.keeps (encloses_group (d := d) ho (by decide)) fun d' _ => hty d'
    simp only [wordsOf, List.append_assoc, List.singleton_append, List.map_append, List.map_cons]
    rw [← List.cons_append]
    exact (hfront d).append (hlist.append (Returned.level (hty d) _ _ _ hresult))

end Rules

theorem level_within (n : Nat) (d : Depths) : Level d (PathWithin n) ∧ Level d (TypeWithin n) := by
  induction n generalizing d with
  | zero => exact ⟨fun _ _ _ h => h.elim, fun _ _ _ h => h.elim⟩
  | succ n ih =>
    have hpath := fun d => (ih d).1
    have hty := fun d => (ih d).2
    exact ⟨PathOver.level hpath hty, TypeOver.level hpath hty⟩

/-- The lexemes of a type leave the depths as they are. -/
theorem IsType.keeps {ls : List Lexeme} {t : TypeExpr} {e : Ends} (h : IsType true ls t e)
    (d : Depths) : d.Keeps (wordsOf ls) := by
  obtain ⟨t', e', h', -⟩ := (recast_within ls.length).2 _ _ _ (Nat.lt_succ_self _) h
  exact (level_within _ d).2 _ _ _ h'

end TypeExpr

/-! ## Types among other trees -/

/-- Trees are read as a type exactly if their spaced form is. -/
theorem TypeExpr.ofTrees_eq_ok_iff {type : List Tree} {t : TypeExpr} :
    TypeExpr.ofTrees type = .ok t ↔ TypeExpr.parse (renderSpaced type).toList = .ok t := by
  cases type with
  | nil =>
    refine ⟨fun h => by simp [TypeExpr.ofTrees] at h, fun h => ?_⟩
    obtain ⟨-, e, ⟨ht⟩⟩ := TypeExpr.parse_eq_ok.1 h
    obtain ⟨l, ls, hls, -⟩ := ht.head
    simp [renderSpaced, streamWords, scan] at hls
  | cons u us =>
    cases hparse : TypeExpr.parse (renderSpaced (u :: us)).toList <;>
      simp [TypeExpr.ofTrees, hparse, Except.mapError]

/-- What the grammar says of trees that it accepts as a type. -/
theorem TypeExpr.ofTrees_eq_ok {type : List Tree} {t : TypeExpr} (h : TypeExpr.ofTrees type = .ok t)
    (hlex : Lexed type) :
    ∃ ls e, TypeExpr.IsType true ls t e ∧ Spells (TypeExpr.wordsOf ls) type := by
  obtain ⟨-, e, ht⟩ := TypeExpr.parse_eq_ok.1 (TypeExpr.ofTrees_eq_ok_iff.1 h)
  exact ⟨_, e, ht, hlex.scan_spaced.2⟩

/-- No type begins like an attribute. -/
theorem TypeExpr.ofTrees_head {type : List Tree} {t : TypeExpr} (h : TypeExpr.ofTrees type = .ok t)
    (hlex : Lexed type) (rest : List Tree) (span : Span) (more : List Tree) :
    type ++ rest ≠ .punct "#" span :: more := by
  obtain ⟨ls, e, ⟨ht⟩, hspells⟩ := TypeExpr.ofTrees_eq_ok h hlex
  obtain ⟨l, ms, rfl, hl, -⟩ := ht.head
  intro he
  generalize hwords : TypeExpr.wordsOf (l :: ms) = words at hspells
  cases hspells with
  | nil => simp at hwords
  | group => simp at he
  | leaf hleaf hu =>
    obtain ⟨rfl, -⟩ := List.cons.inj hwords
    obtain ⟨rfl, -⟩ := List.cons.inj he
    have hword : l.cls = .punct ∧ l.text = "#" := by
      cases hc : l.cls <;>
        simp_all [Tree.bare, Word.leaf, Lexeme.word, Lexeme.leaf, LexemeClass.isLeaf]
    simp [TypeExpr.isTypeStart, TypeExpr.isPathStart, TypeExpr.isFreeName, TypeExpr.isMark,
      TypeExpr.isOf, TypeExpr.isReserved, hword] at hl

/-- In front of a `=`, the run takes exactly the trees of a type. -/
theorem typeRun_type {type : List Tree} {t : TypeExpr} (h : TypeExpr.ofTrees type = .ok t)
    (hlex : Lexed type) (span : Span) (rest : List Tree) :
    typeRun 0 (type ++ .punct "=" span :: rest) = (type, .punct "=" span :: rest) := by
  obtain ⟨ls, e, ht, hspells⟩ := TypeExpr.ofTrees_eq_ok h hlex
  rw [hspells.typeRun_eq (ht.keeps ⟨0, 0⟩), typeRun]
  simp

end InlineVariants
