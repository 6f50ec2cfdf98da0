import InlineVariants.Options
import InlineVariants.Proofs.Accounting

/-!
# The grammar of options

What the arguments of the attribute may be, apart from how they are read: options with commas between
them, each a word and parentheses, and between the parentheses paths, attributes or a visibility. A
`Setting` is an option together with what it says; `Setting.WrittenAs` tells which trees say it.

The reader keeps what has been given so far and refuses an option that is given already. What it has read
is told by the settings that it holds (`Options.Holds`), which is why their order does not matter.

Main statement: `Options.parse_settings_iff`.
-/

namespace InlineVariants

/-! ## The grammar -/

/-- Any number of steps `:: name`. -/
inductive PathSteps : List Tree → Prop
  | nil : PathSteps []
  | cons {name : String} {sep span : Span} {ts : List Tree} :
      PathSteps ts → PathSteps (.punct "::" sep :: .ident name span :: ts)

/-- A simple path: `a`, `a::b`, `::a::b`. -/
inductive SimplePath : List Tree → Prop
  | relative {name : String} {span : Span} {ts : List Tree} :
      PathSteps ts → SimplePath (.ident name span :: ts)
  | absolute {name : String} {sep span : Span} {ts : List Tree} :
      PathSteps ts → SimplePath (.punct "::" sep :: .ident name span :: ts)

/-- Attributes, each of them perhaps with one comma behind it. -/
inductive AttributeRun : List Attribute → List Tree → Prop
  | nil : AttributeRun [] []
  | bare {a : Attribute} {as : List Attribute} {ts : List Tree} :
      AttributeRun as ts → AttributeRun (a :: as) (a.trees ++ ts)
  | comma {a : Attribute} {as : List Attribute} {ts : List Tree} {span : Span} :
      AttributeRun as ts → AttributeRun (a :: as) (a.trees ++ .punct "," span :: ts)

/-- Nothing, `pub`, or `pub` with `crate`, `self`, `super` or `in path` in parentheses. -/
inductive EnumVisibility : List Tree → Prop
  | hidden : EnumVisibility []
  | everywhere {span : Span} : EnumVisibility [.ident "pub" span]
  | within {word : String} {span wordSpan parens : Span} : word ∈ ["crate", "self", "super"] →
      EnumVisibility [.ident "pub" span, .group .paren [.ident word wordSpan] parens]
  | inPath {span wordSpan parens : Span} {path : List Tree} : SimplePath path →
      EnumVisibility [.ident "pub" span, .group .paren (.ident "in" wordSpan :: path) parens]

/-- The name of an option and its aliases. -/
def OptionKey.words : OptionKey → List String
  | derive => ["derive"]
  | attributes => ["attributes", "attrs", "attr"]
  | visibility => ["visibility", "vis"]

/-- An option and what it says. -/
inductive Setting where
  | derive (paths : List (List Tree))
  | attributes (attributes : List Attribute)
  | visibility (trees : List Tree)

namespace Setting

/-- The option that is set. -/
def key : Setting → OptionKey
  | derive _ => .derive
  | attributes _ => .attributes
  | visibility _ => .visibility

/-- The trees between the parentheses of an option say what it is set to. -/
inductive SaidBy : Setting → List Tree → Prop
  | derive {paths : List (List Tree)} {inner : List Tree} : paths ≠ [] →
      Joined (fun path ts => ts = path ∧ SimplePath path) paths inner → SaidBy (.derive paths) inner
  | attributes {as : List Attribute} {inner : List Tree} : as ≠ [] →
      AttributeRun as inner → SaidBy (.attributes as) inner
  | visibility {inner : List Tree} : EnumVisibility inner → SaidBy (.visibility inner) inner

/-- The trees of an option: one of its words, and parentheses. -/
def WrittenAs (s : Setting) (ts : List Tree) : Prop :=
  ∃ word span inner parens, ts = [.ident word span, .group .paren inner parens] ∧
    word ∈ s.key.words ∧ s.SaidBy inner

end Setting

/-- The option is given, and set to this. -/
def Options.Holds (o : Options) : Setting → Prop
  | .derive paths => o.derives = some paths
  | .attributes as => o.attributes = some as
  | .visibility trees => o.visibility = some trees

/-! ## Words and paths -/

theorem Tree.isWord_iff {t : Tree} {text : String} :
    t.isWord text = true ↔ ∃ span, t = .ident text span := by
  cases t <;> simp [Tree.isWord]

theorem OptionKey.ofWord?_eq_some {word : String} {key : OptionKey} :
    ofWord? word = some key ↔ word ∈ key.words := by
  constructor
  · intro h
    rw [ofWord?.eq_def] at h
    split at h <;> cases h <;> decide
  · intro h
    cases key <;> simp [words] at h <;> rcases h with rfl | rfl | rfl <;> rfl

theorem isPathTail_iff {ts : List Tree} : isPathTail ts = true ↔ PathSteps ts := by
  constructor
  · intro h
    fun_induction isPathTail ts with
    | case1 => exact .nil
    | case2 sep name rest ih =>
      simp only [Bool.and_eq_true] at h
      obtain ⟨⟨hsep, hname⟩, hrest⟩ := h
      obtain ⟨span, rfl⟩ := Tree.eq_punct hsep
      cases name with
      | ident => exact .cons (ih hrest)
      | punct | literal | group => cases hname
    | case3 => cases h
  · intro h
    induction h with
    | nil => rfl
    | cons _ ih => simpa [isPathTail, Tree.isPunct, Tree.isIdent] using ih

theorem isPath_iff {ts : List Tree} : isPath ts = true ↔ SimplePath ts := by
  constructor
  · intro h
    cases ts with
    | nil => cases h
    | cons first rest =>
      rw [isPath] at h
      split_ifs at h with hsep
      · obtain ⟨sep, rfl⟩ := Tree.eq_punct hsep
        cases rest with
        | nil => cases h
        | cons name rest =>
          rw [isRelativePath, Bool.and_eq_true] at h
          cases name with
          | ident => exact .absolute (isPathTail_iff.1 h.2)
          | punct | literal | group => cases h.1
      · rw [isRelativePath, Bool.and_eq_true] at h
        cases first with
        | ident => exact .relative (isPathTail_iff.1 h.2)
        | punct | literal | group => cases h.1
  · intro h
    cases h with
    | relative hs | absolute hs =>
      simpa [isPath, isRelativePath, Tree.isPunct, Tree.isIdent] using isPathTail_iff.2 hs

/-! ## Lists with commas -/

theorem Except.map_eq_ok_iff {ε α β : Type} {f : α → β} {x : Except ε α} {b : β} :
    x.map f = .ok b ↔ ∃ a, x = .ok a ∧ f a = b := by
  cases x <;> simp [Except.map]

/-- No comma stands among the trees. -/
def CommaFree (ts : List Tree) : Prop := ∀ t ∈ ts, t.isPunct "," = false

theorem SimplePath.commaFree {ts : List Tree} (h : SimplePath ts) : CommaFree ts := by
  have hsteps : ∀ {us : List Tree}, PathSteps us → CommaFree us := by
    intro us hus
    induction hus with
    | nil => simp [CommaFree]
    | cons _ ih => simpa [CommaFree, Tree.isPunct] using ih
  cases h with
  | relative hs | absolute hs => simpa [CommaFree, Tree.isPunct] using hsteps hs

theorem SimplePath.ne_nil {ts : List Tree} (h : SimplePath ts) : ts ≠ [] := by
  cases h <;> simp

/-- A list has no comma, or it is cut at its first one. -/
theorem commaFree_or_cut (ts : List Tree) :
    CommaFree ts ∨ ∃ run span rest, ts = run ++ .punct "," span :: rest ∧ CommaFree run := by
  induction ts with
  | nil => exact .inl (by simp [CommaFree])
  | cons t ts ih =>
    cases ht : t.isPunct "," with
    | true =>
      obtain ⟨span, rfl⟩ := Tree.eq_punct ht
      exact .inr ⟨[], span, ts, rfl, by simp [CommaFree]⟩
    | false =>
      rcases ih with hfree | ⟨run, span, rest, rfl, hfree⟩
      · exact .inl (by simpa [CommaFree, ht] using hfree)
      · exact .inr ⟨t :: run, span, rest, rfl, by simpa [CommaFree, ht] using hfree⟩

namespace Options

theorem commaRuns_commaFree {run : List Tree} (h : CommaFree run) : commaRuns run = [run] := by
  induction run with
  | nil => rfl
  | cons t run ih =>
    rw [commaRuns, ih fun u hu => h u (List.mem_cons_of_mem _ hu), h t List.mem_cons_self]
    rfl

theorem commaRuns_cut {run : List Tree} (h : CommaFree run) (span : Span) (rest : List Tree) :
    commaRuns (run ++ .punct "," span :: rest) = run :: commaRuns rest := by
  induction run with
  | nil => rfl
  | cons t run ih =>
    rw [List.cons_append, commaRuns, ih fun u hu => h u (List.mem_cons_of_mem _ hu),
      h t List.mem_cons_self]
    rfl

theorem commaRuns_ne_nil (ts : List Tree) : commaRuns ts ≠ [] := by
  rcases commaFree_or_cut ts with hfree | ⟨run, span, rest, rfl, hfree⟩
  · simp [commaRuns_commaFree hfree]
  · simp [commaRuns_cut hfree]

theorem commaEntries_commaFree {run : List Tree} (h : CommaFree run) (hne : run ≠ []) :
    commaEntries run = [run] := by
  cases run with
  | nil => exact absurd rfl hne
  | cons t run => simp [commaEntries, commaRuns_commaFree h]

theorem commaEntries_cut {run : List Tree} (h : CommaFree run) (span : Span) (rest : List Tree) :
    commaEntries (run ++ .punct "," span :: rest) = run :: commaEntries rest := by
  simp only [commaEntries, commaRuns_cut h, List.getLast?_cons_of_ne_nil (commaRuns_ne_nil rest)]
  split <;> simp [*, List.dropLast_cons_of_ne_nil (commaRuns_ne_nil rest)]

/-- The entries with commas between them are the trees again. -/
theorem joined_commaEntries (ts : List Tree) :
    Joined (fun entry us => us = entry) (commaEntries ts) ts := by
  rcases commaFree_or_cut ts with hfree | ⟨run, span, rest, rfl, hfree⟩
  · rcases eq_or_ne ts [] with rfl | hne
    · exact .nil
    · rw [commaEntries_commaFree hfree hne]
      exact .last rfl
  · rw [commaEntries_cut hfree]
    exact (joined_commaEntries rest).prepend rfl
termination_by ts.length
decreasing_by subst_vars; simp; omega

/-- Entries without commas are found again. -/
theorem commaEntries_joined {entries : List (List Tree)} {ts : List Tree}
    (h : Joined (fun entry us => us = entry ∧ CommaFree entry ∧ entry ≠ []) entries ts) :
    commaEntries ts = entries := by
  induction h with
  | nil => rfl
  | last ha =>
    obtain ⟨rfl, hfree, hne⟩ := ha
    exact commaEntries_commaFree hfree hne
  | trailing ha =>
    obtain ⟨rfl, hfree, -⟩ := ha
    exact commaEntries_cut hfree _ []
  | cons ha _ ih =>
    obtain ⟨rfl, hfree, -⟩ := ha
    rw [commaEntries_cut hfree, ih]

/-! ## Single options -/

theorem parseDerive_eq_ok {inner : List Tree} {span : Span} {paths : List (List Tree)} :
    parseDerive inner span = .ok paths ↔ (Setting.derive paths).SaidBy inner := by
  constructor
  · intro h
    rw [parseDerive] at h
    split_ifs at h with hempty
    split at h
    next hall =>
      cases h
      refine .derive (by simpa using hempty)
        ((joined_commaEntries inner).imp_mem fun path hpath us hus => ?_)
      exact ⟨hus, isPath_iff.1 (by simpa using List.find?_eq_none.1 hall path hpath)⟩
    next => cases h
  · rintro (⟨hne, hpaths⟩ | _ | _)
    have hentries : commaEntries inner = paths :=
      commaEntries_joined (hpaths.imp_mem fun path _ us hus => ⟨hus.1, hus.2.commaFree, hus.2.ne_nil⟩)
    have hall : paths.find? (fun path => !isPath path) = none :=
      List.find?_eq_none.2 fun path hpath => by
        simpa using isPath_iff.2 (hpaths.forall_mem (fun _ _ hus => hus.2) path hpath)
    rw [parseDerive, hentries, if_neg (by simpa using hne), hall]

theorem attributeList_eq_ok {span : Span} {ts : List Tree} {as : List Attribute} :
    attributeList span ts = .ok as ↔ AttributeRun as ts := by
  constructor
  · intro h
    fun_induction attributeList span ts generalizing as with
    | case1 => cases h; exact .nil
    | case2 pound inner brackets _ rest ih =>
      obtain ⟨more, hmore, rfl⟩ := Except.map_eq_ok_iff.1 h
      exact .comma (a := ⟨pound, inner, brackets⟩) (ih hmore)
    | case3 pound inner brackets rest _ ih =>
      obtain ⟨more, hmore, rfl⟩ := Except.map_eq_ok_iff.1 h
      exact .bare (a := ⟨pound, inner, brackets⟩) (ih hmore)
    | case4 | case5 => cases h
  · intro h
    induction h with
    | nil => rfl
    | @bare a as ts hrun ih =>
      have hhead : ∀ span us, ts = .punct "," span :: us → False := by
        intro span us hts
        cases hrun <;> simp [Attribute.trees] at hts
      rw [Attribute.trees, List.cons_append, List.cons_append, List.nil_append, attributeList, ih]
      · rfl
      · exact hhead
    | comma _ ih =>
      rw [Attribute.trees, List.cons_append, List.cons_append, List.nil_append, attributeList, ih]
      rfl

theorem parseAttributes_eq_ok {inner : List Tree} {span : Span} {as : List Attribute} :
    parseAttributes inner span = .ok as ↔ (Setting.attributes as).SaidBy inner := by
  have hlist : parseAttributes inner span = .ok as ↔ attributeList span inner = .ok as ∧ as ≠ [] := by
    cases hfound : attributeList span inner with
    | error e => simp [parseAttributes, hfound, bind, Except.bind]
    | ok found => cases found <;> cases as <;> simp [parseAttributes, hfound, bind, Except.bind]
  rw [hlist, attributeList_eq_ok]
  exact ⟨fun ⟨hrun, hne⟩ => .attributes hne hrun, fun | .attributes hne hrun => ⟨hrun, hne⟩⟩

theorem isRestriction_iff {ts : List Tree} : isRestriction ts = true ↔
    (∃ word span, word ∈ ["crate", "self", "super"] ∧ ts = [.ident word span]) ∨
      ∃ span path, SimplePath path ∧ ts = .ident "in" span :: path := by
  match ts with
  | [] => simp [isRestriction]
  | [t] =>
    have hpath : ¬ SimplePath [] := fun h => h.ne_nil rfl
    cases t <;> simp [isRestriction, Tree.isWord, or_assoc]
    grind
  | t :: u :: path =>
    rw [isRestriction.eq_3 _ _ (by simp), Bool.and_eq_true, isPath_iff, Tree.isWord_iff]
    constructor
    · rintro ⟨⟨span, rfl⟩, hpath⟩
      exact .inr ⟨span, _, hpath, rfl⟩
    · rintro (⟨word, span, -, heq⟩ | ⟨span, path, hpath, heq⟩)
      · cases heq
      · cases heq
        exact ⟨⟨span, rfl⟩, hpath⟩

theorem parseVisibility_eq_ok {inner v : List Tree} :
    parseVisibility inner = .ok v ↔ (Setting.visibility v).SaidBy inner := by
  constructor
  · intro h
    fun_cases parseVisibility inner with
    | case1 => cases h; exact .visibility .hidden
    | case2 first hpub =>
      obtain ⟨span, rfl⟩ := Tree.isWord_iff.1 hpub
      cases h
      exact .visibility .everywhere
    | case3 first hpub inner span hres =>
      rw [parseVisibility, if_pos hpub, if_pos hres, Except.ok.injEq] at h
      obtain ⟨span, rfl⟩ := Tree.isWord_iff.1 hpub
      rcases isRestriction_iff.1 hres with ⟨word, wordSpan, hword, rfl⟩ | ⟨wordSpan, path, hpath, rfl⟩
      · cases h
        exact .visibility (.within hword)
      · cases h
        exact .visibility (.inPath hpath)
    | case4 | case5 | case6 | case7 => simp_all [parseVisibility]
  · rintro (_ | _ | hv)
    cases hv with
    | hidden | everywhere => rfl
    | within hword => exact if_pos (isRestriction_iff.2 (.inl ⟨_, _, hword, rfl⟩))
    | inPath hpath => exact if_pos (isRestriction_iff.2 (.inr ⟨_, _, hpath, rfl⟩))

/-! ## Options one after the other -/

/-- Sets an option. -/
def put (o : Options) : Setting → Options
  | .derive paths => { o with derives := some paths }
  | .attributes as => { o with attributes := some as }
  | .visibility trees => { o with visibility := some trees }

theorem set_eq_ok {o o' : Options} {key : OptionKey} {inner : List Tree} {span : Span} :
    o.set key inner span = .ok o' ↔ ∃ s : Setting, s.key = key ∧ s.SaidBy inner ∧ o.put s = o' := by
  constructor
  · intro h
    cases key with
    | derive =>
      obtain ⟨paths, hpaths, rfl⟩ := Except.map_eq_ok_iff.1 h
      exact ⟨_, rfl, parseDerive_eq_ok.1 hpaths, rfl⟩
    | attributes =>
      obtain ⟨as, has, rfl⟩ := Except.map_eq_ok_iff.1 h
      exact ⟨_, rfl, parseAttributes_eq_ok.1 has, rfl⟩
    | visibility =>
      obtain ⟨trees, htrees, rfl⟩ := Except.map_eq_ok_iff.1 h
      exact ⟨_, rfl, parseVisibility_eq_ok.1 htrees, rfl⟩
  · rintro ⟨s, rfl, hsaid, rfl⟩
    cases s with
    | derive paths => exact Except.map_eq_ok_iff.2 ⟨paths, parseDerive_eq_ok.2 hsaid, rfl⟩
    | attributes as => exact Except.map_eq_ok_iff.2 ⟨as, parseAttributes_eq_ok.2 hsaid, rfl⟩
    | visibility trees => exact Except.map_eq_ok_iff.2 ⟨trees, parseVisibility_eq_ok.2 hsaid, rfl⟩

/-- Options are what they hold. -/
theorem eq_of_holds {o o' : Options} (h : ∀ s, o.Holds s ↔ o'.Holds s) : o = o' := by
  have hderives : o.derives = o'.derives := Option.ext fun paths => h (.derive paths)
  have hattributes : o.attributes = o'.attributes := Option.ext fun as => h (.attributes as)
  have hvisibility : o.visibility = o'.visibility := Option.ext fun trees => h (.visibility trees)
  cases o
  cases o'
  simp_all

theorem has_put (o : Options) (s : Setting) (key : OptionKey) :
    (o.put s).has key = (o.has key || s.key == key) := by
  cases s <;> cases key <;> simp [put, has, Setting.key]

theorem holds_put {o : Options} {s : Setting} (hnew : o.has s.key = false) (s' : Setting) :
    (o.put s).Holds s' ↔ o.Holds s' ∨ s' = s := by
  cases s <;> cases s' <;> simp_all [put, has, Holds, Setting.key] <;> exact eq_comm

/-- The settings are about different options, none of which has been given. -/
def Fresh (o : Options) (settings : List Setting) : Prop :=
  (settings.map Setting.key).Nodup ∧ ∀ s ∈ settings, o.has s.key = false

theorem fresh_cons {o : Options} {s : Setting} {settings : List Setting} :
    o.Fresh (s :: settings) ↔ o.has s.key = false ∧ (o.put s).Fresh settings := by
  simp only [Fresh, List.map_cons, List.nodup_cons, List.mem_map, List.forall_mem_cons, has_put,
    Bool.or_eq_false_iff, beq_eq_false_iff_ne]
  grind

theorem holds_foldl_put {settings : List Setting} {o : Options} (h : o.Fresh settings) (s : Setting) :
    (settings.foldl put o).Holds s ↔ o.Holds s ∨ s ∈ settings := by
  induction settings generalizing o with
  | nil => simp
  | cons t settings ih =>
    obtain ⟨hnew, hrest⟩ := fresh_cons.1 h
    rw [List.foldl_cons, ih hrest, holds_put hnew, List.mem_cons, or_assoc]

/-- One option and a comma: it is set, unless it has been given. -/
theorem parseOnto_comma {region span : Span} {o o' : Options} {s : Setting} {ts us : List Tree}
    (hs : s.WrittenAs ts) : parseOnto region o (ts ++ .punct "," span :: us) = .ok o' ↔
      o.has s.key = false ∧ parseOnto region (o.put s) us = .ok o' := by
  obtain ⟨word, wordSpan, inner, parens, rfl, hword, hsaid⟩ := hs
  have hset : o.set s.key inner parens = .ok (o.put s) := set_eq_ok.2 ⟨s, rfl, hsaid, rfl⟩
  cases hhas : o.has s.key <;>
    simp [parseOnto, OptionKey.ofWord?_eq_some.2 hword, hhas, hset, Tree.isPunct]

/-- The last option, with a comma behind it or without. -/
theorem parseOnto_last {region : Span} {o o' : Options} {s : Setting} {ts : List Tree}
    (hs : s.WrittenAs ts) :
    parseOnto region o ts = .ok o' ↔ o.has s.key = false ∧ o.put s = o' := by
  obtain ⟨word, wordSpan, inner, parens, rfl, hword, hsaid⟩ := hs
  have hset : o.set s.key inner parens = .ok (o.put s) := set_eq_ok.2 ⟨s, rfl, hsaid, rfl⟩
  cases hhas : o.has s.key <;>
    simp [parseOnto, OptionKey.ofWord?_eq_some.2 hword, hhas, hset]

/-- Settings that are written down are read in order, if no option is given twice. -/
theorem parseOnto_joined {settings : List Setting} {trees : List Tree} {region : Span} {o o' : Options}
    (h : Joined Setting.WrittenAs settings trees) :
    parseOnto region o trees = .ok o' ↔ o.Fresh settings ∧ settings.foldl put o = o' := by
  induction h generalizing o with
  | nil => simp [parseOnto, Fresh]
  | last hs => simp [parseOnto_last hs, Fresh]
  | trailing hs => simp [parseOnto_comma hs, parseOnto, Fresh]
  | cons hs _ ih => rw [parseOnto_comma hs, ih, ← and_assoc, ← fresh_cons, ← List.foldl_cons]

/-- Whatever is accepted is settings that are written down. -/
theorem exists_joined {trees : List Tree} {region : Span} {o o' : Options}
    (h : parseOnto region o trees = .ok o') :
    ∃ settings, Joined Setting.WrittenAs settings trees := by
  -- An option that was set stands at the head of the trees.
  have hhead : ∀ (wordSpan : Span) {o o' : Options} {word : String} {key : OptionKey} {span : Span}
      {inner : List Tree}, OptionKey.ofWord? word = some key → o.set key inner span = .ok o' →
      ∃ s : Setting, s.WrittenAs [.ident word wordSpan, .group .paren inner span] := by
    intro wordSpan o o' word key span inner hword hset
    obtain ⟨s, rfl, hsaid, -⟩ := set_eq_ok.1 hset
    exact ⟨s, word, wordSpan, inner, span, rfl, OptionKey.ofWord?_eq_some.1 hword, hsaid⟩
  fun_induction parseOnto region o trees with
  | case1 => exact ⟨[], .nil⟩
  | case5 o word wordSpan key hword _ inner span put hset =>
    obtain ⟨s, hs⟩ := hhead wordSpan hword hset
    exact ⟨[s], .last hs⟩
  | case6 o word wordSpan key hword _ inner span put hset comma more hcomma ih =>
    obtain ⟨s, hs⟩ := hhead wordSpan hword hset
    obtain ⟨commaSpan, rfl⟩ := Tree.eq_punct hcomma
    obtain ⟨settings, hmore⟩ := ih h
    exact ⟨s :: settings, hmore.prepend hs⟩
  | case2 | case3 | case4 | case7 | case8 | case9 => simp_all

/-- Settings that are written down are accepted if they are about different options, and read as what
they say. -/
theorem parse_joined {settings : List Setting} {trees : List Tree} {region : Span} {o : Options}
    (h : Joined Setting.WrittenAs settings trees) : parse trees region = .ok o ↔
      (settings.map Setting.key).Nodup ∧ ∀ s, o.Holds s ↔ s ∈ settings := by
  have hfresh : ({} : Options).Fresh settings ↔ (settings.map Setting.key).Nodup :=
    and_iff_left fun s _ => by cases s <;> rfl
  have hholds : ({} : Options).Fresh settings →
      ∀ s, (settings.foldl put {}).Holds s ↔ s ∈ settings := by
    intro hnew s
    rw [holds_foldl_put hnew, or_iff_right]
    cases s <;> simp [Holds]
  rw [parse, parseOnto_joined h, ← hfresh]
  refine and_congr_right fun hnew => ⟨?_, fun h => eq_of_holds fun s => ?_⟩
  · rintro rfl
    exact hholds hnew
  · rw [hholds hnew, h]

/-- The arguments are accepted exactly if they are options with commas between them, none of them given
twice, and what is read is what the options say. The same settings in another order are read the same,
whatever words and commas they are written with. -/
theorem parse_settings_iff (trees : List Tree) (region : Span) :
    (∀ o, parse trees region = .ok o ↔ ∃ settings, Joined Setting.WrittenAs settings trees ∧
        (settings.map Setting.key).Nodup ∧ ∀ s, o.Holds s ↔ s ∈ settings) ∧
      ∀ o settings settings' trees' region', Joined Setting.WrittenAs settings trees →
        parse trees region = .ok o → settings'.Perm settings →
        Joined Setting.WrittenAs settings' trees' → parse trees' region' = .ok o := by
  constructor
  · refine fun o => ⟨fun h => ?_, fun ⟨settings, hjoined, hset⟩ => (parse_joined hjoined).2 hset⟩
    obtain ⟨settings, hjoined⟩ := exists_joined h
    exact ⟨settings, hjoined, (parse_joined hjoined).1 h⟩
  · intro o settings settings' trees' region' hjoined h hperm hjoined'
    obtain ⟨hkeys, hholds⟩ := (parse_joined hjoined).1 h
    refine (parse_joined hjoined').2 ⟨(hperm.map _).nodup_iff.2 hkeys, fun s => ?_⟩
    rw [hholds, hperm.mem_iff]

theorem parse_settings_iff_reordered :
    let restricted := [Tree.word "pub",
      .group .paren [.word "in", .word "a", .mark "::", .word "b"] .unknown]
    let a := [Tree.word "A"]
    let c := [Tree.mark "::", .word "b", .mark "::", .word "C"]
    let x : Attribute := ⟨.unknown, [.word "x"], .unknown⟩
    let y : Attribute := ⟨.unknown, [.word "y"], .unknown⟩
    let o : Options := ⟨some [a, c], some [x, y], some restricted⟩
    let option := fun word inner => [Tree.word word, .group .paren inner .unknown]
    let first := option "vis" restricted ++ .mark "," ::
      (option "derive" (a ++ .mark "," :: (c ++ [.mark ","])) ++ .mark "," ::
        (option "attr" (x.trees ++ .mark "," :: (y.trees ++ [.mark ","])) ++ [.mark ","]))
    let second := option "attributes" (x.trees ++ y.trees) ++ .mark "," ::
      (option "derive" (a ++ .mark "," :: c) ++ .mark "," :: option "visibility" restricted)
    parse first .unknown = .ok o ∧ parse second .unknown = .ok o := by
  intro restricted a c x y o option first second
  have hvisibility : ∀ word ∈ OptionKey.visibility.words,
      (Setting.visibility restricted).WrittenAs (option word restricted) := fun word hword =>
    ⟨word, _, _, _, rfl, hword, .visibility (.inPath (.relative (.cons .nil)))⟩
  have hc : SimplePath c := .absolute (.cons .nil)
  have hfirst : (Setting.derive [a, c]).WrittenAs
      (option "derive" (a ++ .mark "," :: (c ++ [.mark ","]))) :=
    ⟨"derive", _, _, _, rfl, by decide,
      .derive (by simp) (.cons ⟨rfl, .relative .nil⟩ (.trailing ⟨rfl, hc⟩))⟩
  have hsecond : (Setting.derive [a, c]).WrittenAs (option "derive" (a ++ .mark "," :: c)) :=
    ⟨"derive", _, _, _, rfl, by decide,
      .derive (by simp) (.cons ⟨rfl, .relative .nil⟩ (.last ⟨rfl, hc⟩))⟩
  have hcommas : (Setting.attributes [x, y]).WrittenAs
      (option "attr" (x.trees ++ .mark "," :: (y.trees ++ [.mark ","]))) :=
    ⟨"attr", _, _, _, rfl, by decide, .attributes (by simp) (.comma (.comma .nil))⟩
  have hbare : (Setting.attributes [x, y]).WrittenAs (option "attributes" (x.trees ++ y.trees)) :=
    ⟨"attributes", _, _, _, rfl, by decide, .attributes (by simp) (.bare (.bare .nil))⟩
  refine ⟨rfl, (parse_settings_iff first .unknown).2 o
    [.visibility restricted, .derive [a, c], .attributes [x, y]]
    [.attributes [x, y], .derive [a, c], .visibility restricted] second .unknown
    (.cons (hvisibility "vis" (by decide)) (.cons hfirst (.trailing hcommas))) rfl ?_
    (.cons hbare (.cons hsecond (.last (hvisibility "visibility" (by decide)))))⟩
  exact List.reverse_perm [_, _, _]

end Options

end InlineVariants
