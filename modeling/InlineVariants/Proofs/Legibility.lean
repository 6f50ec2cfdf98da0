import InlineVariants.Proofs.Firmness
import InlineVariants.Proofs.Folding
import InlineVariants.Proofs.OptionGrammar
import InlineVariants.Proofs.Resolving
import InlineVariants.Proofs.Rewalking

/-!
# What is put in can be read

The enum of a function is printed part by part: paths, attributes, the visibility and the variants. Every
part stands in the tag's attribute or in the function, or is drawn from a marker that stands there
(`Drawn`), so it is retold from the source. The new body is woven from the old one. If the source is
steady, what is printed is firm where nothing is misread and nothing fuses, and the lines of the enum are
firm one below the other.

Main statement: what is put in for a tidy function of a steady source can be read on its own, the enum as
an enum and the body as a group in braces (`Item.Expandable.printed`).
-/

namespace InlineVariants

open Text Lexeme Layout

/-! ## Lines -/

/-- The trees are printed on one line as a firm text. -/
def Prints (s : List Char) (ts : List Tree) : Prop :=
  ∃ words, Spells words ts ∧ Firm (EnumOutline.oneLine s ts) words []

/-- Every line is firm, and the words of the lines are these. -/
inductive Lined : List (List Char) → List Word → Prop
  | nil : Lined [] []
  | cons {line : List Char} {lines : List (List Char)} {words more : List Word} :
      Firm line words [] → Lined lines more → Lined (line :: lines) (words ++ more)

namespace Lined

variable {lines lines' : List (List Char)} {words words' : List Word}

theorem single {line : List Char} (h : Firm line words []) : Lined [line] words := by
  simpa using Lined.cons h .nil

theorem append (h : Lined lines words) (h' : Lined lines' words') :
    Lined (lines ++ lines') (words ++ words') := by
  induction h with
  | nil => exact h'
  | cons hline _ ih =>
    rw [List.cons_append, List.append_assoc]
    exact .cons hline ih

/-- Lines are firm one below the other. -/
theorem firm {indent : List Char} (hindent : Gap ('\n' :: indent)) (h : Lined lines words) :
    Firm (List.intercalate ('\n' :: indent) lines) words [] := by
  induction h with
  | nil => exact .nil
  | @cons line lines words more hline hlines ih =>
    cases lines with
    | nil =>
      cases hlines
      simpa using hline
    | cons next lines =>
      rw [List.intercalate_cons_cons, List.append_assoc]
      exact hline.join (.gap hindent ih) (.of_char (by decide) (by decide))

end Lined

/-- Lines that hold the words of trees. -/
def Tells (lines : List (List Char)) (ts : List Tree) : Prop :=
  ∃ words, Spells words ts ∧ Lined lines words

namespace Tells

theorem append {lines lines' : List (List Char)} {ts us : List Tree} (h : Tells lines ts)
    (h' : Tells lines' us) : Tells (lines ++ lines') (ts ++ us) := by
  obtain ⟨words, hspells, hlined⟩ := h
  obtain ⟨words', hspells', hlined'⟩ := h'
  exact ⟨_, hspells.append hspells', hlined.append hlined'⟩

theorem flatMap {α : Type} {xs : List α} {lines : α → List (List Char)} {trees : α → List Tree}
    (h : ∀ x ∈ xs, Tells (lines x) (trees x)) : Tells (xs.flatMap lines) (xs.flatMap trees) := by
  induction xs with
  | nil => exact ⟨[], .nil, .nil⟩
  | cons x xs ih =>
    obtain ⟨hx, hxs⟩ := List.forall_mem_cons.1 h
    exact hx.append (ih hxs)

end Tells

/-! ## The enum as trees -/

namespace EnumOutline

/-- The attribute that derives traits. -/
def deriveAttribute (paths : List (List Tree)) : Attribute :=
  ⟨.unknown, [.word "derive", .group .paren (separated "," paths) .unknown], .unknown⟩

/-- The attributes of the enum. -/
def attributes (e : EnumOutline) : List Attribute :=
  (match e.options.derives with
    | some (first :: rest) => [deriveAttribute (first :: rest)]
    | _ => []) ++ e.options.attributes.getD []

/-- The visibility of the enum. -/
def visibilityTrees (e : EnumOutline) : List Tree := e.options.visibility.getD e.visibility

/-- The trees of the variants, each with a comma behind it. -/
def variantTrees (e : EnumOutline) : List Tree :=
  e.declarations.flatMap fun d => d.allTrees ++ [.mark ","]

/-- The trees of the enum behind its visibility. -/
def keywordTrees (e : EnumOutline) : List Tree :=
  [.word "enum", .word e.name, .group .brace e.variantTrees .unknown]

/-- The trees of the enum. -/
def trees (e : EnumOutline) : List Tree :=
  attributeTrees e.attributes ++ (e.visibilityTrees ++ e.keywordTrees)

/-- The parts of the enum that are printed one by one: paths, attributes, the visibility and the variants. -/
def parts (e : EnumOutline) : List (List Tree) :=
  e.options.derives.getD [] ++ ((e.options.attributes.getD []).map Attribute.trees ++
    (e.visibilityTrees ::
      e.declarations.flatMap fun d => d.attributes.map Attribute.trees ++ [d.trees]))

variable {s : List Char}

theorem firm_paths {paths : List (List Tree)} (hne : paths ≠ []) (h : ∀ path ∈ paths, Prints s path) :
    ∃ words, Spells words (separated "," paths) ∧
      Firm (List.intercalate ", ".toList (paths.map (oneLine s))) words [] := by
  induction paths with
  | nil => exact absurd rfl hne
  | cons path paths ih =>
    obtain ⟨⟨words, hspells, hfirm⟩, hpaths⟩ := List.forall_mem_cons.1 h
    cases paths with
    | nil => exact ⟨words, hspells, by simpa using hfirm⟩
    | cons next paths =>
      obtain ⟨more, hspells', hfirm'⟩ := ih (by simp) hpaths
      have hspace : Gap [' '] := .blank (by decide) .nil
      have hcomma : Firm (',' :: ' ' :: List.intercalate ", ".toList ((next :: paths).map (oneLine s)))
          ((.punct, ",") :: more) [] :=
        .word (w := (.punct, ",")) (isToken_mark (by decide) (by simp) (by simp))
          (mayGrow_of_not_mem (by decide) _) (.gap hspace hfirm')
      refine ⟨words ++ (.punct, ",") :: more, hspells.append (.leaf rfl rfl hspells'), ?_⟩
      rw [List.map_cons, List.map_cons, List.intercalate_cons_cons, List.append_assoc]
      exact hfirm.join hcomma (.of_char (by decide) (by decide))

/-- The line that derives traits tells an attribute. -/
theorem tells_derive {first : List Tree} {rest : List (List Tree)}
    (h : ∀ path ∈ first :: rest, Prints s path) :
    Tells (deriveLine s (some (first :: rest))) (deriveAttribute (first :: rest)).trees := by
  obtain ⟨words, hspells, hfirm⟩ := firm_paths (by simp) h
  have hderive : Firm "derive".toList [(.name, "derive")] [] :=
    .single (w := (.name, "derive")) (by decide)
  have hinner := hderive.join (hfirm.group (d := .paren) (by decide)) (.opening (by decide))
  have hline := Firm.word (w := (.punct, "#"))
    (isToken_single [] (by decide) (by decide) (by decide) (by simp))
    (mayGrow_of_not_mem (by decide) _) (hinner.group (d := .bracket) (by decide))
  have hpath : Spells ((.name, "derive") :: (.opening .paren, "(") :: (words ++ [(.closing .paren, ")")]))
      [.word "derive", .group .paren (separated "," (first :: rest)) .unknown] :=
    .leaf rfl rfl (.group hspells .nil)
  refine ⟨_, .leaf (w := (.punct, "#")) rfl rfl (.group hpath .nil), .single ?_⟩
  simpa [Delimiter.opening, Delimiter.closing] using hline

theorem tells_attributes {indent : List Char} (hindent : Gap indent) {as : List Attribute}
    (h : ∀ a ∈ as, Prints s a.trees) :
    Tells (as.map fun a => indent ++ oneLine s a.trees) (attributeTrees as) := by
  rw [List.map_eq_flatMap]
  refine Tells.flatMap fun a ha => ?_
  obtain ⟨words, hspells, hfirm⟩ := h a ha
  exact ⟨words, hspells, .single (.gap hindent hfirm)⟩

/-- The lines of a variant tell its declaration with a comma behind it. -/
theorem tells_variant {d : Declaration} (hattributes : ∀ a ∈ d.attributes, Prints s a.trees)
    (htrees : Prints s d.trees) : Tells (variantLines s d) (d.allTrees ++ [.mark ","]) := by
  have hindent : Gap variantIndent :=
    .blank (by decide) (.blank (by decide) (.blank (by decide) (.blank (by decide) .nil)))
  obtain ⟨words, hspells, hfirm⟩ := htrees
  have hcomma : Firm [','] [(.punct, ",")] [] := .single (w := (.punct, ",")) (by decide)
  have hline := hfirm.join hcomma (.of_char (by decide) (by decide))
  have hlast : Tells [variantIndent ++ d.renderVariant (some s) ++ [',']] (d.trees ++ [.mark ","]) := by
    refine ⟨words ++ [(.punct, ",")], hspells.append (.leaf rfl rfl .nil), .single ?_⟩
    rw [List.append_assoc]
    exact .gap hindent hline
  have hall := (tells_attributes hindent hattributes).append hlast
  rw [← List.append_assoc] at hall
  exact hall

/-- The head of the enum, in front of its brace. -/
theorem firm_head {e : EnumOutline} (hvisibility : Prints s e.visibilityTrees)
    (hname : IsToken .name e.name.toList []) {tail : List Char} {words : List Word}
    (h : Firm tail words []) :
    ∃ front, Spells front e.visibilityTrees ∧
      Firm (e.visibilityText s ++ "enum ".toList ++ e.name.toList ++ ' ' :: tail)
        (front ++ (.name, "enum") :: (.name, e.name) :: words) [] := by
  have hspace : Gap [' '] := .blank (by decide) .nil
  have hkeyword : Firm "enum".toList [(.name, "enum")] [] := .single (w := (.name, "enum")) (by decide)
  have hword : Firm e.name.toList [(.name, e.name)] [] := .single (w := (.name, e.name)) hname
  have hhead := hkeyword.join
    (.gap hspace (hword.join (.gap hspace h) (.of_char (by decide) (by decide))))
    (.of_char (by decide) (by decide))
  unfold visibilityText
  unfold visibilityTrees at hvisibility ⊢
  split
  · next hnone => exact ⟨[], hnone ▸ .nil, by simpa using hhead⟩
  · obtain ⟨front, hspells, hfirm⟩ := hvisibility
    have hall := hfirm.join (.gap hspace hhead) (.of_char (by decide) (by decide))
    exact ⟨front, hspells, by simpa using hall⟩

/-- The lines from the head on tell the enum without its attributes. -/
theorem tells_body {e : EnumOutline} (hvisibility : Prints s e.visibilityTrees)
    (hname : IsToken .name e.name.toList [])
    (hvariants : ∀ d ∈ e.declarations, Tells (variantLines s d) (d.allTrees ++ [.mark ","])) :
    Tells (e.bodyLines s) (e.visibilityTrees ++ e.keywordTrees) := by
  obtain ⟨words, hspells, hlined⟩ := Tells.flatMap hvariants
  have hopen : Firm "\x7b".toList [(.opening .brace, "\x7b")] [] :=
    .single (w := (.opening .brace, "\x7b")) (by decide)
  have hclose : Firm "\x7d".toList [(.closing .brace, "\x7d")] [] :=
    .single (w := (.closing .brace, "\x7d")) (by decide)
  have hkeyword {words : List Word} (hspells : Spells words e.variantTrees) :
      Spells ((.name, "enum") :: (.name, e.name) :: (.opening .brace, "\x7b") ::
        (words ++ [(.closing .brace, "\x7d")])) e.keywordTrees :=
    .leaf rfl rfl (.leaf rfl rfl (.group hspells .nil))
  unfold bodyLines
  split
  · next hnone =>
    have hempty : Firm ['\x7b', '\x7d'] [(.opening .brace, "\x7b"), (.closing .brace, "\x7d")] [] :=
      Firm.group (d := .brace) (by decide) .nil
    obtain ⟨front, hfront, hhead⟩ := firm_head hvisibility hname hempty
    have hnil : Spells [] e.variantTrees := by
      rw [variantTrees, hnone]
      exact .nil
    refine ⟨_, hfront.append (hkeyword hnil), .single ?_⟩
    simpa using hhead
  · obtain ⟨front, hfront, hhead⟩ := firm_head hvisibility hname hopen
    refine ⟨_, hfront.append (hkeyword hspells), ?_⟩
    have hall := (Lined.single hhead).append (hlined.append (.single hclose))
    simpa using hall

/-- The text of an enum is firm if its parts are. -/
theorem text_firm {e : EnumOutline} (hparts : ∀ part ∈ e.parts, Prints s part)
    (hname : IsToken .name e.name.toList []) {indent : List Char} (hindent : Gap ('\n' :: indent)) :
    ∃ words, Spells words e.trees ∧ Firm (e.text s indent) words [] := by
  simp only [parts, List.mem_append, List.mem_cons, List.mem_flatMap, List.mem_map] at hparts
  have hderive : Tells (deriveLine s e.options.derives) (attributeTrees (match e.options.derives with
      | some (first :: rest) => [deriveAttribute (first :: rest)]
      | _ => [])) := by
    split
    · next first rest hsome =>
      rw [hsome] at hparts ⊢
      simpa [attributeTrees] using tells_derive fun path hpath => hparts path (.inl hpath)
    · next hnone =>
      have hempty : deriveLine s e.options.derives = [] := by
        unfold deriveLine
        split
        · next hsome => exact absurd hsome (hnone _ _)
        · rfl
      rw [hempty]
      exact ⟨[], .nil, .nil⟩
  have hattributes : Tells ((e.options.attributes.getD []).map fun a => oneLine s a.trees)
      (attributeTrees (e.options.attributes.getD [])) :=
    tells_attributes .nil fun a ha => hparts _ (.inr (.inl ⟨a, ha, rfl⟩))
  have hbody := tells_body (hparts _ (.inr (.inr (.inl rfl)))) hname fun d hd =>
    tells_variant (fun a ha => hparts _ (.inr (.inr (.inr ⟨d, hd, .inl ⟨a, ha, rfl⟩⟩))))
      (hparts _ (.inr (.inr (.inr ⟨d, hd, .inr (by simp)⟩))))
  obtain ⟨words, hspells, hlined⟩ := (hderive.append hattributes).append hbody
  refine ⟨words, ?_, hlined.firm hindent⟩
  rwa [trees, attributes, attributeTrees, List.flatMap_append]

/-- The text of an enum ends with a brace. -/
theorem text_getLast? (e : EnumOutline) (s indent : List Char) :
    (e.text s indent).getLast? = some '\x7d' := by
  have hend : ∀ (sep last : List Char) (lines : List (List Char)), last ≠ [] →
      (List.intercalate sep (lines ++ [last])).getLast? = last.getLast? := by
    intro sep last lines hne
    induction lines with
    | nil => simp
    | cons line lines ih =>
      obtain ⟨next, more, hnext⟩ := List.exists_cons_of_ne_nil (show lines ++ [last] ≠ [] by simp)
      rw [List.cons_append, hnext, List.intercalate_cons_cons, ← hnext, List.getLast?_append, ih]
      cases hlast : last.getLast? with
      | none => exact absurd (List.getLast?_eq_none_iff.1 hlast) hne
      | some c => rfl
  obtain ⟨lines, last, hlines, hlast⟩ : ∃ lines last, e.lines s = lines ++ [last] ∧
      last.getLast? = some '\x7d' := by
    unfold lines bodyLines
    simp only
    split
    · exact ⟨_, _, rfl, by rw [List.getLast?_append]; simp⟩
    · exact ⟨_, _, (List.append_assoc _ _ _).symm, by simp⟩
  rw [text, hlines, hend _ _ _ (by rintro rfl; cases hlast), hlast]

end EnumOutline

/-! ## Where the parts stand -/

namespace Among

variable {us ts ts' : List Tree}

theorem of_group_mem {d : Delimiter} {span : Span} (h : .group d us span ∈ ts) : Among us ts :=
  .inside h (.here (List.infix_refl _))

theorem of_part (h : Among us ts) (hp : ts <:+: ts') : Among us ts' := by
  cases h with
  | here hu => exact .here (hu.trans hp)
  | inside hmem hin => exact .inside (hp.subset hmem) hin

theorem trans {vs : List Tree} (h : Among us ts) (h' : Among ts vs) : Among us vs := by
  induction h' with
  | here hp => exact h.of_part hp
  | inside hmem _ ih => exact .inside hmem ih

/-- Trees that stand in a text are read there. -/
theorem reads {file : Option String} {s rest : List Char} {p q : Position} (h : Among us ts)
    (hr : Reads file p (s.drop p.offset) ts q rest) :
    ∃ p q rest, Reads file p (s.drop p.offset) us q rest := by
  induction h generalizing p q rest with
  | here hu =>
    obtain ⟨before, after, rfl⟩ := hu
    obtain ⟨_, _, hr, -⟩ := hr.append_inv
    obtain ⟨a, mid, hbefore, hr⟩ := hr.append_inv
    rw [← hbefore.drop_stop (s := s) rfl] at hr
    exact ⟨a, _, _, hr⟩
  | @inside d contents ts span hmem _ ih =>
    obtain ⟨before, after, rfl⟩ := List.append_of_mem hmem
    obtain ⟨a, mid, hbefore, hr⟩ := hr.append_inv
    obtain ⟨gap, opening, inner, b, gap', closing, more, hmid, -, -, hin, -⟩ := hr.group_inv
    have ha := hbefore.drop_stop (s := s) rfl
    rw [hmid] at ha
    rw [← Position.drop_advance (Position.drop_advance ha)] at hin
    exact ih hin

end Among

/-- What a marker holds stands in the trees in which it is visited. -/
theorem Visit.StandsIn.among {w : Walker} {x : Visit} {ts : List Tree} (h : x.StandsIn w ts) :
    Among x.contents ts := by
  induction h with
  | @here pre post opSpan d hd =>
    have hmem : .group d x.contents x.groupSpan ∈ pre ++ .ident w.marker x.nameSpan ::
        .punct "!" opSpan :: .group d x.contents x.groupSpan :: post := by simp
    exact .of_group_mem hmem
  | inside hmem _ ih => exact .inside hmem ih

/-- What the search comes to stands in the trees that it began with. -/
theorem Place.Comes.among {s : List Char} {tag : String} {p q : Place} (h : Comes s tag p q) :
    Among q.ahead p.ahead := by
  induction h with
  | here => exact .here (List.infix_refl _)
  | @past p q outcome width _ _ ih => exact ih.of_part (List.drop_suffix width p.ahead).isInfix
  | beyond _ _ ih => exact ih.of_part (List.suffix_cons _ _).isInfix
  | into _ ih => exact .inside List.mem_cons_self ih

/-- The second trees can be printed from trees that stand among the first ones. -/
def Drawn (s : List Char) (file : Option String) (trees us : List Tree) : Prop :=
  ∃ ts, Among ts trees ∧ Supplies s file ts us

theorem Among.drawn {s : List Char} {file : Option String} {trees us : List Tree} (h : Among us trees) :
    Drawn s file trees us := ⟨us, h, supplies_self us⟩

/-- What can be printed from trees of a steady text is printed as firm text, if nothing is misread. -/
theorem Drawn.prints {s : List Char} {file : Option String} {trees us : List Tree}
    (h : Drawn s file trees us) (htrees : tokenize s file = .ok trees) (hs : Steady s)
    (hm : misread (treesChunks (folding s) us {}) = false) : Prints s us := by
  obtain ⟨ts, hts, h⟩ := h
  obtain ⟨q, rest, hr, -⟩ := tokenize_reads htrees
  obtain ⟨p, q, rest, hr⟩ := hts.reads (s := s) (p := .first) hr
  obtain ⟨b, -, -, words, hspells, htold⟩ := h _ _ _ _ Spot.start hr rfl
    (.inr ⟨Spot.loose_start, Nat.zero_le _⟩)
  have hretold := htold [] [] .nil
  rw [List.append_nil, List.append_nil] at hretold
  have hfirm := Retold.firm hretold hs hm
  rw [show Spot.start.state = {} from rfl, textOf_treesChunks] at hfirm
  exact ⟨words, hspells, hfirm⟩

theorem AttributeRun.part {as : List Attribute} {ts : List Tree} (h : AttributeRun as ts)
    {a : Attribute} (ha : a ∈ as) : a.trees <:+: ts := by
  induction h with
  | nil => cases ha
  | bare _ ih =>
    rcases List.mem_cons.1 ha with rfl | ha
    · exact (List.prefix_append _ _).isInfix
    · exact (ih ha).trans (List.suffix_append _ _).isInfix
  | comma _ ih =>
    rcases List.mem_cons.1 ha with rfl | ha
    · exact (List.prefix_append _ _).isInfix
    · exact (ih ha).trans ((List.suffix_cons _ _).trans (List.suffix_append _ _)).isInfix

theorem EnumVisibility.isVisibility {ts : List Tree} (h : EnumVisibility ts) : IsVisibility ts := by
  cases h with
  | hidden => exact .inl rfl
  | everywhere => exact .inr (.inl ⟨_, rfl⟩)
  | within | inPath => exact .inr (.inr ⟨_, _, _, rfl⟩)

/-- What the options say stands in the arguments. -/
theorem Options.among_of_parse {arguments : List Tree} {region : Span} {o : Options}
    (h : Options.parse arguments region = .ok o) :
    (∀ paths ∈ o.derives, ∀ path ∈ paths, Among path arguments) ∧
    (∀ as ∈ o.attributes, ∀ a ∈ as, Among a.trees arguments) ∧
    ∀ visibility ∈ o.visibility, IsVisibility visibility ∧ Among visibility arguments := by
  obtain ⟨settings, hjoined⟩ := exists_joined h
  obtain ⟨-, hholds⟩ := (parse_joined hjoined).1 h
  have hsaid (setting : Setting) (hset : o.Holds setting) : ∃ inner, setting.SaidBy inner ∧
      ∀ {us : List Tree}, us <:+: inner → Among us arguments := by
    obtain ⟨us, ⟨word, span, inner, parens, rfl, -, hsaid⟩, hus⟩ :=
      hjoined.exists_part ((hholds setting).1 hset)
    have hmem : Tree.group .paren inner parens ∈ arguments := hus.subset (by simp)
    exact ⟨inner, hsaid, fun hus => .inside hmem (.here hus)⟩
  refine ⟨fun paths hpaths path hpath => ?_, fun as has a ha => ?_, fun visibility hvisibility => ?_⟩
  · obtain ⟨inner, hsaid, hinner⟩ := hsaid (.derive paths) hpaths
    cases hsaid with
    | derive _ hpaths =>
      obtain ⟨us, ⟨rfl, -⟩, hus⟩ := hpaths.exists_part hpath
      exact hinner hus
  · obtain ⟨inner, hsaid, hinner⟩ := hsaid (.attributes as) has
    cases hsaid with
    | attributes _ hrun => exact hinner (hrun.part ha)
  · obtain ⟨inner, hsaid, hinner⟩ := hsaid (.visibility visibility) hvisibility
    cases hsaid with
    | visibility hvisible => exact ⟨hvisible.isVisibility, hinner (List.infix_refl _)⟩

/-- The arguments of a tag stand in its brackets. -/
theorem TagMatch.among_arguments (tag : String) (inner : List Tree) :
    Among (TagMatch.ofBrackets tag inner).arguments.1 inner := by
  have hnil : Among [] inner := .here (List.nil_infix)
  unfold ofBrackets
  split
  · next d arguments span hlast =>
    split
    · exact hnil
    · split
      · exact .of_group_mem (List.mem_of_getLast? hlast)
      · exact hnil
  · split
    · exact hnil
    · exact hnil

namespace FunctionHeader

theorem visibilityRun_isVisibility (ts : List Tree) : IsVisibility (visibilityRun ts).1 := by
  unfold visibilityRun
  split
  · split
    · next hpub =>
      obtain ⟨span, rfl⟩ := Tree.isWord_iff.1 hpub
      split
      · next second more =>
        split
        · next hgroup =>
          cases second with
          | group d inner parens =>
            obtain rfl : d = .paren := by simpa [Tree.isGroup] using hgroup
            exact .inr (.inr ⟨span, inner, parens, rfl⟩)
          | ident | punct | literal => cases hgroup
        · exact .inr (.inl ⟨span, rfl⟩)
      · exact .inr (.inl ⟨span, rfl⟩)
    · exact .inl rfl
  · exact .inl rfl

theorem returnType_part {ts type : List Tree} (h : type ∈ (returnType ts).1) : type <:+: ts := by
  unfold returnType at h
  split at h
  · next arrow rest =>
    split at h
    · obtain rfl := Option.mem_some.1 h
      refine List.IsInfix.trans ⟨[], (returnRun 0 rest).2, ?_⟩ (List.suffix_cons arrow rest).isInfix
      exact returnRun_append 0 rest
    · cases h
  · cases h

theorem parseRest_parts {name : Name} {visibility ts : List Tree} {header : FunctionHeader}
    (h : parseRest name visibility ts = .ok header) :
    header.visibility = visibility ∧ ∀ type ∈ header.returned, type <:+: ts := by
  unfold parseRest at h
  split at h
  · next params paramsSpan afterParameters hgenerics =>
    simp only at h
    split at h
    · obtain rfl := Except.ok.inj h
      refine ⟨rfl, fun type htype => (returnType_part htype).trans ?_⟩
      exact ((List.suffix_cons _ _).trans (hgenerics ▸ afterGenerics_suffix ts)).isInfix
    · cases h
  · cases h

/-- The visibility and the return type of a function stand in front of its body. -/
theorem parse_parts {tag : String} {ts : List Tree} {header : FunctionHeader}
    (h : parse tag ts = .ok header) :
    IsVisibility header.visibility ∧ header.visibility <:+: ts ∧
      ∀ type ∈ header.returned, type <:+: ts := by
  have hattributes := afterAttributes_suffix ts
  have happend := visibilityRun_append (afterAttributes ts)
  have hqualifiers : afterQualifiers (visibilityRun (afterAttributes ts)).2 <:+ ts :=
    (afterQualifiers_suffix _).trans (List.IsSuffix.trans ⟨_, happend⟩ hattributes)
  have hvisibility : (visibilityRun (afterAttributes ts)).1 <:+: ts :=
    List.IsInfix.trans ⟨[], _, happend⟩ hattributes.isInfix
  unfold parse at h
  simp only at h
  split at h
  · next keyword afterKeyword heq =>
    rw [heq] at hqualifiers
    split at h
    · split at h
      · obtain ⟨hheader, hreturned⟩ := parseRest_parts h
        rw [hheader]
        refine ⟨visibilityRun_isVisibility _, hvisibility, fun type htype => ?_⟩
        exact (hreturned type htype).trans
          (((List.suffix_cons _ _).trans (List.suffix_cons _ _)).trans hqualifiers).isInfix
      · cases h
    · cases h
  · cases h

end FunctionHeader

/-! ## The declarations -/

/-- The declaration of a definition without markers in its discriminant is that of the marker. -/
theorem Variant.declaration_mapPayloads {f : List Tree → List Tree} {v : Variant}
    (h : ∀ value ∈ v.discriminant, f value = value) :
    (v.mapPayloads f).declaration = v.declaration := by
  have hdiscriminant : v.discriminant.map f = v.discriminant := by
    cases hd : v.discriminant with
    | none => rfl
    | some value => simpa using h value hd
  simp only [declaration, mapPayloads, declaredDiscriminant, Fields.mapValues_declared, hdiscriminant]

theorem attributeTrees_part {a : Attribute} {as : List Attribute} (h : a ∈ as) :
    a.trees <:+: attributeTrees as := by
  obtain ⟨before, after, rfl⟩ := List.append_of_mem h
  exact ⟨attributeTrees before, attributeTrees after, by simp [attributeTrees]⟩

/-- The attributes and the trees of a declaration are drawn from the marker. -/
theorem Variant.CutFrom.drawn {v : Variant} {contents : List Tree} (h : v.CutFrom contents)
    (s : List Char) (file : Option String) :
    (∀ a ∈ v.attributes, Among a.trees contents) ∧ Drawn s file contents v.declaration.trees := by
  obtain ⟨visibility, group, discriminant, rfl, hv, hk, hfields, hd⟩ := h
  refine ⟨fun a ha => .here ((attributeTrees_part ha).trans (List.prefix_append _ _).isInfix), _, ?_,
    (hd.supplies hfields.supplies).name hv hk⟩
  exact .here (List.suffix_append _ _).isInfix

theorem Drawn.of_among {s : List Char} {file : Option String} {trees ts us : List Tree}
    (h : Drawn s file ts us) (hts : Among ts trees) : Drawn s file trees us := by
  obtain ⟨vs, hvs, h⟩ := h
  exact ⟨vs, hvs.trans hts, h⟩

/-- No marker stands in the discriminant of a definition. -/
def Walker.PlainDiscriminants (w : Walker) (ts : List Tree) : Prop :=
  ∀ x ∈ w.visits none ts, ∀ v ∈ x.parsed?, ∀ value ∈ v.discriminant, w.visits none value = []

/-- What a walk declares is drawn from the trees, if no marker stands in a discriminant. -/
theorem Walker.PlainDiscriminants.drawn {w : Walker} {ts : List Tree} (h : w.PlainDiscriminants ts)
    {d : Declaration} (hd : d ∈ (w.walk {} ts).1.declarations) (s : List Char) (file : Option String) :
    (∀ a ∈ d.attributes, Among a.trees ts) ∧ Drawn s file ts d.trees := by
  rw [w.walk_declarations, List.mem_filterMap] at hd
  obtain ⟨x, hx, hd⟩ := hd
  obtain ⟨u, hu, rfl⟩ := Option.map_eq_some_iff.1 hd
  obtain ⟨v, hv, rfl⟩ := Option.map_eq_some_iff.1 hu
  have hplain : (v.mapPayloads fun value => (w.walk {} value).2).declaration = v.declaration := by
    refine Variant.declaration_mapPayloads fun value hvalue => ?_
    rw [w.walk_eq, walkLevel_of_visits (h x hx v hv value hvalue)]
  have hcontents := (w.visits_standsIn none ts x hx).among
  obtain ⟨hattributes, htrees⟩ :=
    (Variant.cutFrom_of_parse (Visit.parsed?_eq_some.1 hv)).drawn s file
  rw [hplain]
  exact ⟨fun a ha => (hattributes a ha).trans hcontents, htrees.of_among hcontents⟩

/-! ## The name of the enum -/

theorem Forms.exists_isToken {file : Option String} {ls : List Lexeme} {ts : List Tree}
    (h : Forms file ls ts) {l : Lexeme} (hl : l ∈ ls) : ∃ mid, IsToken l.cls l.text.toList mid := by
  induction h with
  | nil => cases hl
  | leaf ht _ _ _ ih =>
    rcases List.mem_cons.1 hl with rfl | hl
    · exact ⟨_, ht⟩
    · exact ih hl
  | group hd hc _ _ ihin ih =>
    rcases List.mem_cons.1 hl with rfl | hl
    · exact ⟨[], isToken_opening hd []⟩
    rcases List.mem_append.1 hl with hl | hl
    · exact ihin hl
    rcases List.mem_cons.1 hl with rfl | hl
    · exact ⟨_, hc⟩
    · exact ih hl

/-- The name of an error type is a name. -/
theorem isToken_of_errorType? {s : List Char} {file : Option String} {trees returned : List Tree}
    {result : String} {name : Name} (h : tokenize s file = .ok trees) (hr : Among returned trees)
    (hname : errorType? (some returned) result = some name) : IsToken .name name.text.toList [] := by
  obtain ⟨ls, -, hforms⟩ := (tokenize_forms h).among hr
  obtain ⟨-, -, absolute, front, argument, htype⟩ := errorType?_eq_some.1 hname
  obtain ⟨l, hnames, htext⟩ := TypeExpr.isType_resultPath_iff.1 (hforms.ofTrees_eq_ok_iff.1 htype)
  obtain ⟨before, behind, rfl, -⟩ := hnames.exists_append
  obtain ⟨mid, ht⟩ := hforms.exists_isToken (l := l) (by simp)
  rw [(TypeExpr.isFreeName_iff.1 hnames.isFreeName).1, htext] at ht
  exact ht.apart nofun

/-! ## The new body -/

namespace FunctionHeader

/-- The new body of a function, piece by piece. -/
def bodyChunks (header : FunctionHeader) (s : List Char) (enum : String) : List Chunk :=
  treesChunks (copying s) [.group .brace (Walker.walk { enum } {} header.body).2 header.bodySpan] {}

theorem bodyText_getLast? (header : FunctionHeader) (s : List Char) (enum : String) :
    (header.bodyText s enum).getLast? = some '\x7d' := by
  simp [bodyText, render, Layout.trees, Layout.tree, emit, Delimiter.closing, List.getLast?_append]

end FunctionHeader

theorem Splits.group_inv {vs ys : List Tree} {d : Delimiter} {span : Span}
    (h : Splits vs [.group d ys span]) : ∃ xs, vs = [.group d xs span] := by
  have hnil : ∀ {us : List Tree}, Splits us [] → us = [] := by
    intro us hus
    generalize hts : [] = ts at hus
    cases hus with
    | nil => rfl
    | pieces => simp at hts
    | keep | inside => cases hts
  generalize hus : [Tree.group d ys span] = us at h
  cases h with
  | nil => cases hus
  | keep hrest =>
    obtain ⟨rfl, rfl⟩ := List.cons.inj hus
    exact ⟨ys, by rw [hnil hrest]⟩
  | pieces hop _ => rcases gluedAngles?_cases hop with ⟨-, rfl⟩ | ⟨-, rfl⟩ <;> cases hus
  | inside _ hrest =>
    obtain ⟨hgroup, rfl⟩ := List.cons.inj hus
    obtain ⟨rfl, -, rfl⟩ := Tree.group.inj hgroup
    exact ⟨_, by rw [hnil hrest]⟩

theorem Tree.bare_eq_group {t : Tree} {d : Delimiter} {ts : List Tree} {span : Span}
    (h : t.bare = (Tree.group d ts span).bare) :
    ∃ us span', t = .group d us span' ∧ bareOf us = bareOf ts := by
  cases t with
  | group d' us span' =>
    simp only [Tree.bare, Tree.group.injEq, and_true] at h
    obtain ⟨rfl, h⟩ := h
    exact ⟨us, span', rfl, h⟩
  | ident | punct | literal => simp [Tree.bare] at h

/-- The new body of a function of a steady source can be read, if nothing in it fuses. -/
theorem FunctionHeader.body_legible {s : List Char} {file : Option String} {trees : List Tree}
    {header : FunctionHeader} {enum : String} (h : tokenize s file = .ok trees) (hs : Steady s)
    (hbody : Among [.group .brace header.body header.bodySpan] trees)
    (hname : IsToken .name enum.toList []) (hf : fuses (header.bodyChunks s enum) = false) :
    ∃ body span, Legible (header.bodyText s enum) [.group .brace body span] := by
  obtain ⟨q, rest, hr, -⟩ := tokenize_reads h
  obtain ⟨p, q, rest, hr⟩ := hbody.reads (s := s) (p := .first) hr
  have hweaves : Weaves s file [.group .brace header.body header.bodySpan] _ :=
    Walker.weaves_rewritten { enum } hname [.group .brace header.body header.bodySpan]
  rw [Walker.rewritten_group _ (by decide), Walker.rewritten_nil, ← Walker.walk_snd _ {}] at hweaves
  obtain ⟨ahead, mid, hahead, -, hplaced⟩ := hweaves _ _ _ _ hr rfl
  obtain ⟨words, vs, hsplits, hspells, hmirrors⟩ := (hplaced {} rfl).mirrors
  have hfirm := hmirrors.firm (hs.of_suffix (hahead.trans (List.drop_suffix _ _))) hf
  rw [textOf_treesChunks] at hfirm
  obtain ⟨us, hlegible, hbare⟩ := Firm.legible hfirm hspells (header.bodyText_getLast? s enum)
  -- what is read is a group in braces, as it was printed
  obtain ⟨xs, rfl⟩ := Splits.group_inv (by simpa [dissolvedOf, Tree.dissolved] using hsplits)
  rw [bareOf_eq_map, bareOf_eq_map, List.map_singleton] at hbare
  obtain ⟨t, rfl, ht⟩ := List.map_eq_singleton_iff.1 hbare
  obtain ⟨body, span, rfl, -⟩ := Tree.bare_eq_group ht
  exact ⟨body, span, hlegible⟩

/-! ## The enum and the body of a function -/

theorem Tree.bare_eq_ident {t : Tree} {text : String} {span : Span}
    (h : t.bare = (Tree.ident text span).bare) : ∃ span', t = .ident text span' := by
  cases t with
  | ident text' span' =>
    obtain rfl : text' = text := by simpa [Tree.bare] using h
    exact ⟨span', rfl⟩
  | punct | literal | group => simp [Tree.bare] at h

theorem Tree.bare_eq_punct {t : Tree} {op : String} {span : Span}
    (h : t.bare = (Tree.punct op span).bare) : ∃ span', t = .punct op span' := by
  cases t with
  | punct op' span' =>
    obtain rfl : op' = op := by simpa [Tree.bare] using h
    exact ⟨span', rfl⟩
  | ident | literal | group => simp [Tree.bare] at h

theorem exists_attributes_of_bare {as : List Attribute} {us : List Tree}
    (h : us.map Tree.bare = (attributeTrees as).map Tree.bare) : ∃ as', us = attributeTrees as' := by
  induction as generalizing us with
  | nil => exact ⟨[], List.map_eq_nil_iff.1 h⟩
  | cons a as ih =>
    obtain ⟨t, us, rfl, ht, hmore⟩ := List.map_eq_cons_iff.1 h
    obtain ⟨u, us, rfl, hu, hrest⟩ := List.map_eq_cons_iff.1 hmore
    obtain ⟨pound, rfl⟩ := Tree.bare_eq_punct ht
    obtain ⟨inner, brackets, rfl, -⟩ := Tree.bare_eq_group hu
    obtain ⟨as', rfl⟩ := ih hrest
    exact ⟨⟨pound, inner, brackets⟩ :: as', rfl⟩

theorem IsVisibility.of_bare {ts us : List Tree} (h : IsVisibility ts)
    (hbare : us.map Tree.bare = ts.map Tree.bare) : IsVisibility us := by
  rcases h with rfl | ⟨span, rfl⟩ | ⟨span, inner, parens, rfl⟩
  · exact .inl (List.map_eq_nil_iff.1 hbare)
  · obtain ⟨t, rfl, ht⟩ := List.map_eq_singleton_iff.1 hbare
    exact .inr (.inl (by simpa using Tree.bare_eq_ident ht))
  · obtain ⟨t, us, rfl, ht, hbare⟩ := List.map_eq_cons_iff.1 hbare
    obtain ⟨u, rfl, hu⟩ := List.map_eq_singleton_iff.1 hbare
    obtain ⟨span', rfl⟩ := Tree.bare_eq_ident ht
    obtain ⟨inner', parens', rfl, -⟩ := Tree.bare_eq_group hu
    exact .inr (.inr ⟨span', inner', parens', rfl⟩)

/-- Trees that differ from those of an enum only in their spans are those of an enum. -/
theorem IsEnum.of_bareOf {name : String} {ts us : List Tree} (h : IsEnum name ts)
    (hbare : bareOf us = bareOf ts) : IsEnum name us := by
  obtain ⟨as, visibility, variants, keyword, word, span, hv, rfl⟩ := h
  rw [bareOf_eq_map, bareOf_eq_map, List.map_append, List.map_append] at hbare
  obtain ⟨us₁, us, rfl, h₁, hbare⟩ := List.map_eq_append_iff.1 hbare
  obtain ⟨us₂, us₃, rfl, h₂, h₃⟩ := List.map_eq_append_iff.1 hbare
  obtain ⟨as', rfl⟩ := exists_attributes_of_bare h₁
  obtain ⟨t₁, us₃, rfl, ht₁, h₃⟩ := List.map_eq_cons_iff.1 h₃
  obtain ⟨t₂, us₃, rfl, ht₂, h₃⟩ := List.map_eq_cons_iff.1 h₃
  obtain ⟨t₃, us₃, rfl, ht₃, h₃⟩ := List.map_eq_cons_iff.1 h₃
  obtain rfl := List.map_eq_nil_iff.1 h₃
  obtain ⟨keyword', rfl⟩ := Tree.bare_eq_ident ht₁
  obtain ⟨word', rfl⟩ := Tree.bare_eq_ident ht₂
  obtain ⟨variants', span', rfl, -⟩ := Tree.bare_eq_group ht₃
  exact ⟨as', us₂, variants', keyword', word', span', hv.of_bare h₂, rfl⟩

/-- What is put in for a function is in good order: nothing in the parts of its enum is misread, no marker
stands in a discriminant, and nothing in its new body fuses. -/
structure FunctionHeader.Tidy (header : FunctionHeader) (s : List Char) (options : Options)
    (enum : String) : Prop where
  parts : ∀ part ∈ (header.outline options enum).parts,
    misread (treesChunks (folding s) part {}) = false
  discriminants : Walker.PlainDiscriminants { enum } header.body
  body : fuses (header.bodyChunks s enum) = false

namespace Item.Expandable

variable {s : List Char} {file : Option String} {tag : String} {trees inner rest front : List Tree}
  {pound brackets : Span} {header : FunctionHeader} {options : Options} {enum : Name}

theorem among_body {arguments : List Tree × Span}
    (h : Expandable tag arguments rest front header options enum) (hrest : Among rest trees) :
    Among header.body trees := by
  have hmem : .group .brace header.body header.bodySpan ∈ rest := by simp [h.rest]
  exact (Among.of_group_mem hmem).trans hrest

theorem among_arguments (tag : String)
    (hitem : Among (.punct "#" pound :: .group .bracket inner brackets :: rest) trees) :
    Among (TagMatch.ofBrackets tag inner).arguments.1 trees := by
  have hmem : Tree.group .bracket inner brackets ∈
      .punct "#" pound :: .group .bracket inner brackets :: rest := by simp
  exact ((TagMatch.among_arguments tag inner).trans (.of_group_mem hmem)).trans hitem

theorem among_rest (hitem : Among (.punct "#" pound :: .group .bracket inner brackets :: rest) trees) :
    Among rest trees := Among.trans (.here (List.suffix_append [_, _] rest).isInfix) hitem

/-- The visibility of the enum is that of an option, or that of the function. -/
theorem visibility {arguments : List Tree × Span}
    (h : Expandable tag arguments rest front header options enum)
    (harguments : Among arguments.1 trees) (hrest : Among rest trees) :
    IsVisibility (header.outline options enum.text).visibilityTrees ∧
      Among (header.outline options enum.text).visibilityTrees trees := by
  rw [EnumOutline.visibilityTrees, FunctionHeader.outline]
  cases hgiven : options.visibility with
  | none =>
    obtain ⟨hvisible, hown, -⟩ := FunctionHeader.parse_parts h.parse
    exact ⟨hvisible, .trans (.here hown) hrest⟩
  | some visibility =>
    obtain ⟨hvisible, hamong⟩ := (Options.among_of_parse h.options).2.2 visibility hgiven
    exact ⟨hvisible, hamong.trans harguments⟩

/-- The name of the enum is a name. -/
theorem isToken_enum {arguments : List Tree × Span}
    (h : Expandable tag arguments rest front header options enum) (htrees : tokenize s file = .ok trees)
    (hrest : Among rest trees) : IsToken .name enum.text.toList [] := by
  have herror := h.errorType
  cases hreturned : header.returned with
  | none =>
    rw [hreturned] at herror
    cases herror
  | some returned =>
    rw [hreturned] at herror
    have hpart := (FunctionHeader.parse_parts h.parse).2.2 returned hreturned
    exact isToken_of_errorType? htrees (.trans (.here hpart) hrest) herror

/-- The parts of the enum are drawn from the tag's attribute and from the function. -/
theorem drawn {arguments : List Tree × Span}
    (h : Expandable tag arguments rest front header options enum)
    (harguments : Among arguments.1 trees) (hrest : Among rest trees)
    (hplain : Walker.PlainDiscriminants { enum := enum.text } header.body) :
    ∀ part ∈ (header.outline options enum.text).parts, Drawn s file trees part := by
  have hgiven {α : Type} {o : Option (List α)} {x : α} (hx : x ∈ o.getD []) : ∃ xs ∈ o, x ∈ xs := by
    cases o with
    | none => cases hx
    | some xs => exact ⟨xs, rfl, hx⟩
  have hbody := h.among_body hrest
  obtain ⟨hderives, hattributes, -⟩ := Options.among_of_parse h.options
  intro part hpart
  simp only [EnumOutline.parts, List.mem_append, List.mem_cons, List.mem_map, List.mem_flatMap,
    List.not_mem_nil, or_false] at hpart
  rcases hpart with hpart | ⟨a, ha, rfl⟩ | rfl | ⟨d, hd, ⟨a, ha, rfl⟩ | rfl⟩
  · obtain ⟨paths, hpaths, hpart⟩ := hgiven hpart
    exact ((hderives paths hpaths part hpart).trans harguments).drawn
  · obtain ⟨as, has, ha⟩ := hgiven ha
    exact ((hattributes as has a ha).trans harguments).drawn
  · exact (h.visibility harguments hrest).2.drawn
  · exact (((hplain.drawn hd s file).1 a ha).trans hbody).drawn
  · exact (hplain.drawn hd s file).2.of_among hbody

/-- What is put in for a tidy function of a steady source can be read. -/
theorem printed (h : Expandable tag (TagMatch.ofBrackets tag inner).arguments rest front header options enum)
    (htrees : tokenize s file = .ok trees) (hs : Steady s)
    (hitem : Among (.punct "#" pound :: .group .bracket inner brackets :: rest) trees)
    (htidy : header.Tidy s options enum.text) (start : Nat) :
    ∃ declared body span, header.Printed s start options enum.text declared body span := by
  have harguments := among_arguments tag hitem
  have hrest := among_rest hitem
  have hname := h.isToken_enum htrees hrest
  have hparts : ∀ part ∈ (header.outline options enum.text).parts, Prints s part := fun part hpart =>
    (h.drawn harguments hrest htidy.discriminants part hpart).prints htrees hs (htidy.parts part hpart)
  obtain ⟨words, hspells, hfirm⟩ := EnumOutline.text_firm hparts hname (gap_lineIndent s start)
  obtain ⟨declared, hdeclared, hbare⟩ := hfirm.legible hspells (EnumOutline.text_getLast? _ _ _)
  have hisEnum : IsEnum enum.text (header.outline options enum.text).trees :=
    ⟨_, _, _, _, _, _, (h.visibility harguments hrest).1, rfl⟩
  obtain ⟨body, span, hbody⟩ := FunctionHeader.body_legible htrees hs
    (.trans (.here ⟨front, header.rest, by simp [h.rest]⟩) hrest) hname htidy.body
  exact ⟨declared, body, span, hdeclared, hisEnum.of_bareOf hbare, hbody⟩

end Item.Expandable

end InlineVariants
