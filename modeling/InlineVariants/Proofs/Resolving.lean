import InlineVariants.ErrorType
import InlineVariants.Proofs.Respelling

/-!
# Which return types name an error type

The name of the error type is taken from a type that was read from re-printed words, which know no
places; its place is looked up afterwards, as that of the last identifier with this text. In a path
that ends in `Result<A, n>` nothing behind `n` is an identifier, so the last identifier of all is `n`
itself, wherever else the same text stands.

Main statement: an error type is named exactly by such a path, and its place is that of `n`
(`errorType_resolved_iff`).
-/

namespace InlineVariants

open Text Lexeme

namespace TypeExpr

/-! ## Paths with an error type -/

/-- Segments of a path, each with the `::` behind it. The `::` is none that the segment would take. -/
inductive Steps : List Lexeme → List PathSegment → Prop
  | nil : Steps [] []
  | cons {ls ms : List Lexeme} {s : Lexeme} {segment : PathSegment} {segments : List PathSegment}
      {e : Ends} :
      IsSegment (IsType true) ls segment e → isMark "::" s = true → e.takes s = false →
      Steps ms segments → Steps (ls ++ s :: ms) (segment :: segments)

/-- What stands in front of a path tells whether it is absolute. -/
inductive IsLead : List Lexeme → Bool → Prop
  | relative : IsLead [] false
  | absolute {m : Lexeme} : isMark "::" m = true → IsLead [m] true

/-- The lexemes of a path with the last segment `result<argument, name>`, or the same with a comma in
front of the `>`, behind the other segments and perhaps a `::`. -/
inductive NamesError (result : String) :
    (absolute : Bool) → (front : List PathSegment) → GenericArg → (name : Lexeme) → List Lexeme → Prop
  | mk {absolute : Bool} {front : List PathSegment} {argument : GenericArg} {e : Ends}
      {lead steps ls trail : List Lexeme} {r o comma name g : Lexeme} :
      IsLead lead absolute → Steps steps front →
      isFreeName r = true → r.text = result → isMark "<" o = true →
      IsArg (IsType true) ls argument e → isMark "," comma = true →
      isFreeName name = true → Maybe (One (isMark ",")) trail → isMark ">" g = true →
      NamesError result absolute front argument name
        (lead ++ (steps ++ r :: o :: (ls ++ comma :: name :: (trail ++ [g]))))

/-- A path with the last segment `result<argument, name>`. -/
def resultPath (absolute : Bool) (front : List PathSegment) (result : String) (argument : GenericArg)
    (name : String) : TypeExpr :=
  .path none absolute (front ++ [.generic result [argument, .type (.path none false [.plain name])]])

/-- A chain of segments is a last one behind the others. -/
theorem chain_snoc_iff {ls : List Lexeme} {front : List PathSegment} {last : PathSegment} :
    (∃ e, Chain true .path (IsSegment (IsType true)) ls (front ++ [last]) e) ↔
      ∃ steps ms e, ls = steps ++ ms ∧ Steps steps front ∧ IsSegment (IsType true) ms last e := by
  constructor
  · rintro ⟨e, h⟩
    induction front generalizing ls with
    | nil =>
      obtain ⟨ha, ht⟩ := h
      cases ht
      exact ⟨[], _, _, by simp, .nil, ha⟩
    | cons segment front ih =>
      rw [List.cons_append] at h
      obtain ⟨ha, ht⟩ := h
      generalize hfront : front ++ [last] = segments at ht
      cases ht with
      | nil => simp at hfront
      | cons hs hcut hb ht =>
        have hrest := Chain.mk hb ht
        rw [← hfront] at hrest
        obtain ⟨steps, ms, e', hms, hsteps, hlast⟩ := ih hrest
        refine ⟨_ ++ _ :: steps, ms, e', ?_, .cons ha hs (hcut rfl) hsteps, hlast⟩
        rw [hms]
        simp
  · rintro ⟨steps, ms, e, rfl, hsteps, hlast⟩
    induction hsteps with
    | nil => exact ⟨_, .single hlast⟩
    | cons ha hs hcut _ ih =>
      obtain ⟨e', h⟩ := ih
      rw [List.append_assoc]
      exact ⟨e', .cons ha hs (fun _ => hcut) h⟩

theorem isType_path_iff {ls : List Lexeme} {absolute : Bool} {segments : List PathSegment} :
    (∃ e, IsType true ls (.path none absolute segments) e) ↔
      ∃ lead ms e, ls = lead ++ ms ∧ IsLead lead absolute ∧
        Chain true .path (IsSegment (IsType true)) ms segments e := by
  constructor
  · rintro ⟨e, ⟨⟨h⟩⟩⟩
    cases h with
    | relative hs => exact ⟨[], ls, e, rfl, .relative, hs⟩
    | absolute hm hs => exact ⟨[_], _, e, rfl, .absolute hm, hs⟩
  · rintro ⟨lead, ms, e, rfl, hlead, hs⟩
    cases hlead with
    | relative => exact ⟨e, .mk (.path (.relative hs))⟩
    | absolute hm => exact ⟨e, .mk (.path (.absolute hm hs))⟩

theorem isType_plain_iff {ls : List Lexeme} {name : String} :
    (∃ e, IsType true ls (.path none false [.plain name]) e) ↔
      ∃ l, ls = [l] ∧ isFreeName l = true ∧ l.text = name := by
  constructor
  · rintro ⟨e, ⟨⟨⟨⟨hl⟩, ht⟩⟩⟩⟩
    cases ht
    exact ⟨_, rfl, hl, rfl⟩
  · rintro ⟨l, rfl, hl, rfl⟩
    exact ⟨_, .mk (.path (.relative (.single (.plain hl))))⟩

/-- A list of two arguments, the second a plain name. -/
theorem listed_pair_iff {ls : List Lexeme} {argument : GenericArg} {name : String} :
    (∃ e, Listed (isMark ">") (IsArg (IsType true)) ls
      [argument, .type (.path none false [.plain name])] e) ↔
      ∃ ms comma l trail g e, ls = ms ++ comma :: l :: (trail ++ [g]) ∧
        IsArg (IsType true) ms argument e ∧ isMark "," comma = true ∧ isFreeName l = true ∧
        l.text = name ∧ Maybe (One (isMark ",")) trail ∧ isMark ">" g = true := by
  constructor
  · rintro ⟨e, _ | ⟨harg, htail⟩⟩
    cases htail with
    | cons hcomma hname hend =>
      cases hname with
      | type ht =>
        obtain ⟨l, rfl, hl, rfl⟩ := isType_plain_iff.1 ⟨_, ht⟩
        cases hend with
        | close hg => exact ⟨_, _, l, [], _, _, by simp, harg, hcomma, hl, rfl, .inl rfl, hg⟩
        | trailing hx hg =>
          exact ⟨_, _, l, [_], _, _, by simp, harg, hcomma, hl, rfl, .inr ⟨_, rfl, hx⟩, hg⟩
  · rintro ⟨ms, comma, l, trail, g, e, rfl, harg, hcomma, hl, rfl, htrail, hg⟩
    obtain ⟨e', ht⟩ := isType_plain_iff.2 ⟨l, rfl, hl, rfl⟩
    obtain ⟨e'', hend⟩ : ∃ e'', ListTail (isMark ">") (IsArg (IsType true)) (trail ++ [g]) [] e'' := by
      rcases htrail with rfl | ⟨x, rfl, hx⟩
      · exact ⟨_, .close hg⟩
      · exact ⟨_, .trailing hx hg⟩
    exact ⟨e'', .some (.mk harg (.cons hcomma (.type ht) hend))⟩

/-- The lexemes of a path with an error type. -/
theorem isType_resultPath_iff {ls : List Lexeme} {absolute : Bool} {front : List PathSegment}
    {result name : String} {argument : GenericArg} :
    (∃ e, IsType true ls (resultPath absolute front result argument name) e) ↔
      ∃ l, NamesError result absolute front argument l ls ∧ l.text = name := by
  constructor
  · intro h
    obtain ⟨lead, ms, e, rfl, hlead, hchain⟩ := isType_path_iff.1 h
    obtain ⟨steps, ms, e, rfl, hsteps, hlast⟩ := chain_snoc_iff.1 ⟨e, hchain⟩
    cases hlast with
    | generic hr ho hargs =>
      obtain ⟨ls, comma, l, trail, g, e, rfl, harg, hcomma, hl, rfl, htrail, hg⟩ :=
        listed_pair_iff.1 ⟨_, hargs⟩
      exact ⟨l, .mk hlead hsteps hr rfl ho harg hcomma hl htrail hg, rfl⟩
  · rintro ⟨l, h, rfl⟩
    obtain ⟨hlead, hsteps, hr, rfl, ho, harg, hcomma, hl, htrail, hg⟩ := h
    obtain ⟨e, hargs⟩ :=
      listed_pair_iff.2 ⟨_, _, _, _, _, _, rfl, harg, hcomma, hl, rfl, htrail, hg⟩
    obtain ⟨e', hchain⟩ := chain_snoc_iff.2 ⟨_, _, _, rfl, hsteps, .generic hr ho hargs⟩
    exact isType_path_iff.2 ⟨_, _, _, rfl, hlead, hchain⟩

theorem bareName?_eq_some_iff {t : TypeExpr} {name : String} :
    t.bareName? = some name ↔ t = .path none false [.plain name] := by
  unfold bareName?
  split <;> simp_all

/-- The types that name an error type. -/
theorem errorName?_eq_some_iff {t : TypeExpr} {result name : String} :
    t.errorName? result = some name ↔ isEnumName name = true ∧
      ∃ absolute front argument, t = resultPath absolute front result argument name := by
  constructor
  · intro h
    unfold errorName? at h
    split at h
    · rename_i absolute segments
      split at h
      · rename_i last argument error hlast
        split_ifs at h with hname
        obtain ⟨herror, hgood⟩ := Option.filter_eq_some_iff.1 h
        obtain ⟨front, rfl⟩ := List.getLast?_eq_some_iff.1 hlast
        rw [bareName?_eq_some_iff.1 herror, hname]
        exact ⟨hgood, absolute, front, argument, rfl⟩
      · cases h
    · cases h
  · rintro ⟨hgood, absolute, front, argument, rfl⟩
    simp [errorName?, resultPath, bareName?, hgood]

end TypeExpr

/-! ## The last identifier -/

/-- The name that a token is. -/
def FlatToken.name? : FlatToken → Option Name
  | .leaf (.ident text span) => some ⟨text, span⟩
  | _ => none

/-- The identifiers in trees, at any depth and in order. -/
def identifiersOf (ts : List Tree) : List Name := (flattenAll ts).filterMap FlatToken.name?

mutual

theorem Tree.lastSpanOf?_eq (text : String) : ∀ t : Tree, t.lastSpanOf? text =
    ((t.flatten.filterMap FlatToken.name?).reverse.find? (·.text = text)).map Name.span
  | .ident t span => by
    by_cases h : t = text <;> simp [Tree.lastSpanOf?, Tree.flatten, FlatToken.name?, h]
  | .punct .. | .literal .. => rfl
  | .group d ts span => by
    have hbrackets : FlatToken.name? (.opening d span.firstChar) = none ∧
        FlatToken.name? (.closing d span.lastChar) = none := ⟨rfl, rfl⟩
    rw [Tree.lastSpanOf?, lastSpanOf?_eq text ts, Tree.flatten]
    simp [identifiersOf, hbrackets]

/-- The place that is looked up is that of the last identifier with the text. -/
theorem lastSpanOf?_eq (text : String) : ∀ ts : List Tree, lastSpanOf? text ts =
    ((identifiersOf ts).reverse.find? (·.text = text)).map Name.span
  | [] => rfl
  | t :: ts => by
    rw [lastSpanOf?, Tree.lastSpanOf?_eq text t, lastSpanOf?_eq text ts, identifiersOf,
      identifiersOf, flattenAll, List.filterMap_append, List.reverse_append, List.find?_append,
      Option.map_or]
    exact Option.or_eq_orElse.symm

end

theorem lastSpanOf?_of_getLast? {ts : List Tree} {name : Name}
    (h : (identifiersOf ts).getLast? = some name) : lastSpanOf? name.text ts = some name.span := by
  obtain ⟨front, hfront⟩ := List.getLast?_eq_some_iff.1 h
  rw [lastSpanOf?_eq, hfront]
  simp

section

variable {file : Option String} {l : Lexeme}

theorem Lexeme.name?_flat (h : l.cls = .name) : (l.flat file).name? = some ⟨l.text, l.span file⟩ := by
  simp [Lexeme.flat, Lexeme.leaf, h, FlatToken.name?]

theorem Lexeme.name?_flat_punct (h : l.cls = .punct) : (l.flat file).name? = none := by
  simp [Lexeme.flat, Lexeme.leaf, h, FlatToken.name?]

end

namespace TypeExpr.NamesError

variable {result : String} {absolute : Bool} {front : List PathSegment} {argument : GenericArg}
  {l : Lexeme} {ls : List Lexeme}

/-- Behind the name of the error type there are only marks. -/
theorem exists_append (h : NamesError result absolute front argument l ls) :
    ∃ before behind, ls = before ++ l :: behind ∧ ∀ m ∈ behind, m.cls = .punct := by
  cases h with
  | @mk _ lead steps as trail r o comma _ g _ _ _ _ _ _ _ _ htrail hg =>
    refine ⟨lead ++ (steps ++ r :: o :: (as ++ [comma])), trail ++ [g], by simp, fun m hm => ?_⟩
    have hend : g.cls = .punct := (isMark_iff.1 hg).1
    rcases htrail with rfl | ⟨x, rfl, hx⟩
    · simp only [List.nil_append, List.mem_singleton] at hm
      rwa [hm]
    · simp only [List.singleton_append, List.mem_cons, List.not_mem_nil, or_false] at hm
      rcases hm with rfl | rfl
      · exact (isMark_iff.1 hx).1
      · exact hend

theorem isFreeName (h : NamesError result absolute front argument l ls) : isFreeName l = true := by
  obtain ⟨-, -, -, -, -, -, -, hl, -, -⟩ := h
  exact hl

/-- The name of the error type is the last identifier. -/
theorem getLast?_identifiersOf {file : Option String} {ts : List Tree}
    (h : NamesError result absolute front argument l ls)
    (hflat : flattenAll ts = ls.map (Lexeme.flat file)) :
    (identifiersOf ts).getLast? = some ⟨l.text, l.span file⟩ := by
  obtain ⟨before, behind, rfl, hbehind⟩ := h.exists_append
  have hname : (l.flat file).name? = some ⟨l.text, l.span file⟩ :=
    Lexeme.name?_flat (isFreeName_iff.1 h.isFreeName).1
  have hmarks : (behind.map (Lexeme.flat file)).filterMap FlatToken.name? = [] := by
    rw [List.filterMap_map, List.filterMap_eq_nil_iff]
    exact fun m hm => Lexeme.name?_flat_punct (hbehind m hm)
  rw [identifiersOf, hflat, List.map_append, List.filterMap_append, List.map_cons,
    List.filterMap_cons_some hname, hmarks]
  simp

/-- The place that is looked up for the name of the error type is its own. -/
theorem eq_of_span {file : Option String} {ts : List Tree} {name : Name}
    (h : NamesError result absolute front argument l ls)
    (hflat : flattenAll ts = ls.map (Lexeme.flat file)) (htext : l.text = name.text)
    (hspan : name.span = (lastSpanOf? name.text ts).getD Span.unknown) :
    name = ⟨l.text, l.span file⟩ := by
  obtain ⟨text, span⟩ := name
  obtain rfl : l.text = text := htext
  have hlast := lastSpanOf?_of_getLast? (h.getLast?_identifiersOf hflat)
  rw [hlast] at hspan
  exact congrArg (Name.mk l.text) hspan

end TypeExpr.NamesError

/-! ## Trees in a text -/

/-- The trees stand side by side in the list, or in a group of it at any depth. -/
inductive Among (us : List Tree) : List Tree → Prop
  | here {ts : List Tree} : us <:+: ts → Among us ts
  | inside {d : Delimiter} {contents ts : List Tree} {span : Span} :
      .group d contents span ∈ ts → Among us contents → Among us ts

namespace Forms

variable {file : Option String} {ls : List Lexeme} {ts us : List Tree}

theorem append_inv (h : Forms file ls (ts ++ us)) :
    ∃ ms ns, ls = ms ++ ns ∧ Forms file ms ts ∧ Forms file ns us := by
  induction ts generalizing ls with
  | nil => exact ⟨[], ls, rfl, .nil, h⟩
  | cons t ts ih =>
    rw [List.cons_append] at h
    cases h with
    | leaf ht hl he h =>
      obtain ⟨ms, ns, rfl, hts, hus⟩ := ih h
      exact ⟨_ :: ms, ns, rfl, .leaf ht hl he hts, hus⟩
    | group hd hc hin h =>
      obtain ⟨ms, ns, rfl, hts, hus⟩ := ih h
      exact ⟨_, ns, by simp, .group hd hc hin hts, hus⟩

/-- Trees that stand in others are made of lexemes that stand side by side. -/
theorem among (hu : Among us ts) (h : Forms file ls ts) : ∃ ms, ms <:+: ls ∧ Forms file ms us := by
  induction hu generalizing ls with
  | here hu =>
    obtain ⟨pre, post, rfl⟩ := hu
    obtain ⟨ls, after, rfl, h, -⟩ := h.append_inv
    obtain ⟨before, ms, rfl, -, h⟩ := h.append_inv
    exact ⟨ms, ⟨before, after, rfl⟩, h⟩
  | @inside d contents ts span hmem _ ih =>
    obtain ⟨pre, post, rfl⟩ := List.append_of_mem hmem
    obtain ⟨before, ls, rfl, -, h⟩ := h.append_inv
    cases h with
    | leaf _ _ he _ => exact absurd he.symm Reads.leaf_ne_group
    | @group _ p q mid ls ms _ _ _ _ hin _ =>
      obtain ⟨ns, hinfix, hforms⟩ := ih hin
      refine ⟨ns, hinfix.trans ?_, hforms⟩
      exact ⟨before ++ [⟨.opening d, d.opening, p, p.advance d.opening.toList⟩],
        ⟨.closing d, d.closing, q, q.advance d.closing.toList⟩ :: ms, by simp⟩

/-- The tokens of trees are the lexemes that they are made of. -/
theorem flattenAll_eq (h : Forms file ls ts) : flattenAll ts = ls.map (Lexeme.flat file) := by
  induction h with
  | nil => rfl
  | leaf _ hl he _ ih =>
    rw [flattenAll, he, Lexeme.flatten_leaf file hl, ih]
    rfl
  | @group d p q mid ls ms children ts hd _ _ _ ihin ih =>
    let o : Lexeme := ⟨.opening d, d.opening, p, p.advance d.opening.toList⟩
    let c : Lexeme := ⟨.closing d, d.closing, q, q.advance d.closing.toList⟩
    have hwide : o.IsChar ∧ c.IsChar := by
      cases d <;> first | exact absurd rfl hd | exact ⟨rfl, rfl⟩
    have hgroup : (Tree.group d children (Span.between file o.start c.stop)).flatten =
        o.flat file :: (flattenAll children ++ [c.flat file]) :=
      flatten_group file children rfl rfl hwide.1 hwide.2
    rw [flattenAll, hgroup, ihin, ih]
    simp [o, c]

end Forms

/-! ## The error type -/

theorem errorType?_eq_some {ts : List Tree} {result : String} {name : Name} :
    errorType? (some ts) result = some name ↔
      TypeExpr.isEnumName name.text = true ∧
        name.span = (lastSpanOf? name.text ts).getD Span.unknown ∧
        ∃ absolute front argument, TypeExpr.ofTrees ts =
          .ok (TypeExpr.resultPath absolute front result argument name.text) := by
  obtain ⟨text, span⟩ := name
  cases htype : TypeExpr.ofTrees ts with
  | error e => simp [errorType?, htype]
  | ok t =>
    simp only [errorType?, htype, Option.map_eq_some_iff, TypeExpr.errorName?_eq_some_iff]
    constructor
    · rintro ⟨_, ⟨hgood, absolute, front, argument, rfl⟩, ⟨⟩⟩
      exact ⟨hgood, rfl, absolute, front, argument, rfl⟩
    · rintro ⟨hgood, rfl, absolute, front, argument, ht⟩
      exact ⟨text, ⟨hgood, absolute, front, argument, Except.ok.inj ht⟩, rfl⟩

theorem TypeExpr.isEnumName_iff {name : String} :
    isEnumName name = true ↔ isKeyword name = false ∧ name.startsWith "r#" = false := by
  simp [isEnumName]

/-- The tokens behind `->`, wherever they stand in a text, name an error type exactly if they are a
path that is not qualified, with the last segment `result<argument, name>` and perhaps a comma behind
the name, and the name is neither a keyword nor raw. The place is that of the name in this segment,
which is the last identifier of all. -/
theorem errorType_resolved_iff {s : List Char} {file : Option String} {trees returned : List Tree}
    (h : tokenize s file = .ok trees) (hr : Among returned trees) :
    ∃ ls, ls <:+: (scan s).lexemes ∧ flattenAll returned = ls.map (Lexeme.flat file) ∧
      ∀ (result : String) (name : Name),
        (errorType? (some returned) result = some name ↔
          ∃ absolute front argument l, TypeExpr.NamesError result absolute front argument l ls ∧
            isKeyword l.text = false ∧ l.text.startsWith "r#" = false ∧
            name = ⟨l.text, l.span file⟩) ∧
        (errorType? (some returned) result = some name ↔
          (∃ absolute front argument, TypeExpr.ofTrees returned =
            .ok (TypeExpr.resultPath absolute front result argument name.text)) ∧
          isKeyword name.text = false ∧ name.text.startsWith "r#" = false ∧
          (identifiersOf returned).getLast? = some name) := by
  obtain ⟨ls, hinfix, hforms⟩ := (tokenize_forms h).among hr
  have hflat := hforms.flattenAll_eq
  refine ⟨ls, hinfix, hflat, fun result name => ?_⟩
  have htype (absolute front argument) :
      TypeExpr.ofTrees returned =
          .ok (TypeExpr.resultPath absolute front result argument name.text) ↔
        ∃ l, TypeExpr.NamesError result absolute front argument l ls ∧ l.text = name.text :=
    hforms.ofTrees_eq_ok_iff.trans TypeExpr.isType_resultPath_iff
  rw [errorType?_eq_some, TypeExpr.isEnumName_iff]
  refine ⟨⟨?_, ?_⟩, ?_, ?_⟩
  · rintro ⟨⟨hkeyword, hraw⟩, hspan, absolute, front, argument, ht⟩
    obtain ⟨l, hnames, htext⟩ := (htype absolute front argument).1 ht
    have hname := hnames.eq_of_span hflat htext hspan
    rw [← htext] at hkeyword hraw
    exact ⟨absolute, front, argument, l, hnames, hkeyword, hraw, hname⟩
  · rintro ⟨absolute, front, argument, l, hnames, hkeyword, hraw, rfl⟩
    have hlast := hnames.getLast?_identifiersOf hflat
    refine ⟨⟨hkeyword, hraw⟩, ?_, absolute, front, argument,
      (htype absolute front argument).2 ⟨l, hnames, rfl⟩⟩
    rw [lastSpanOf?_of_getLast? hlast]
    rfl
  · rintro ⟨⟨hkeyword, hraw⟩, hspan, absolute, front, argument, ht⟩
    obtain ⟨l, hnames, htext⟩ := (htype absolute front argument).1 ht
    refine ⟨⟨absolute, front, argument, ht⟩, hkeyword, hraw, ?_⟩
    rw [hnames.eq_of_span hflat htext hspan]
    exact hnames.getLast?_identifiersOf hflat
  · rintro ⟨ht, hkeyword, hraw, hlast⟩
    refine ⟨⟨hkeyword, hraw⟩, ?_, ht⟩
    rw [lastSpanOf?_of_getLast? hlast]
    rfl

/-- The name stands in a segment in front, in a group in the first argument, and in its place. -/
theorem errorType_resolved_thrice :
    let s := "(f->::n::R<[n],n,>)".toList
    let on (a b : Nat) : Span :=
      ⟨none, some 1, some (a + 1 : Nat), some 1, some (b + 1 : Nat), some a, some b⟩
    let returned : List Tree := [.punct "::" (on 4 6), .ident "n" (on 6 7), .punct "::" (on 7 9),
      .ident "R" (on 9 10), .punct "<" (on 10 11), .group .bracket [.ident "n" (on 12 13)] (on 11 14),
      .punct "," (on 14 15), .ident "n" (on 15 16), .punct "," (on 16 17), .punct ">" (on 17 18)]
    ∃ trees ls, tokenize s = .ok trees ∧ Among returned trees ∧ ls <:+: (scan s).lexemes ∧
      flattenAll returned = ls.map (Lexeme.flat none) ∧
      errorType? (some returned) "R" = some ⟨"n", on 15 16⟩ ∧
      (∃ absolute front argument l, TypeExpr.NamesError "R" absolute front argument l ls ∧
        isKeyword l.text = false ∧ l.text.startsWith "r#" = false ∧
        (⟨"n", on 15 16⟩ : Name) = ⟨l.text, l.span none⟩) ∧
      (identifiersOf returned).getLast? = some ⟨"n", on 15 16⟩ := by
  intro s on returned
  have htrees : tokenize "(f->::n::R<[n],n,>)".toList =
      .ok [.group .paren (.ident "f" (on 1 2) :: .punct "->" (on 2 4) :: returned) (on 0 19)] := by
    cbv
  have hr : Among returned
      [.group .paren (.ident "f" (on 1 2) :: .punct "->" (on 2 4) :: returned) (on 0 19)] :=
    .inside (.head _) (.here ⟨[.ident "f" (on 1 2), .punct "->" (on 2 4)], [], by simp⟩)
  have herror : errorType? (some returned) "R" = some ⟨"n", on 15 16⟩ := by
    decide +kernel
  obtain ⟨ls, hinfix, hflat, h⟩ := errorType_resolved_iff htrees hr
  obtain ⟨hnames, hplace⟩ := h "R" ⟨"n", on 15 16⟩
  obtain ⟨-, -, -, hlast⟩ := hplace.1 herror
  exact ⟨_, ls, htrees, hr, hinfix, hflat, herror, hnames.1 herror, hlast⟩

end InlineVariants
