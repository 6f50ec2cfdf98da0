import InlineVariants.Expansion.Basic
import InlineVariants.Proofs.Accounting
import InlineVariants.Proofs.TypeExtent
import Mathlib

/-!
# Function headers are taken apart

A header is written with attributes, a visibility, qualifiers, a name, generics, parameters and a
return type (`FunctionHeader.Front`). Then comes the body, or a where clause and the body. Generics,
return type and where clause are not read but passed over. What may stop each of them has to be
sheltered by angle brackets if it is to be passed over (`Sheltered`), and the grammar of types shelters
all that could stop a return type.

Main statements: a header without a where clause is taken apart into what it was written with
(`FunctionHeader.parse_outline`). A where clause is passed over without counting angle brackets, so the
body is found exactly if there is no brace and no `;` at all in front of it
(`FunctionHeader.parse_where_iff`).
-/

namespace InlineVariants

/-! ## Angle brackets -/

/-- How many angle brackets a tree opens. -/
def Tree.angle (t : Tree) : Int := if t.isPunct "<" then 1 else if t.isPunct ">" then -1 else 0

/-- Where `depth` angle brackets are open, the trees close them, and trees of a kind stand among them
only where angle brackets are open. -/
def Sheltered (kind : Tree → Bool) (depth : Int) : List Tree → Prop
  | [] => depth = 0
  | t :: ts => (kind t = true → depth ≠ 0) ∧ Sheltered kind (depth + t.angle) ts

/-- Where `depth` angle brackets are open, the last one is closed by the last tree and not before. -/
def ClosedByLast (depth : Int) : List Tree → Prop
  | [] => False
  | [t] => depth + t.angle = 0
  | t :: ts => depth + t.angle ≠ 0 ∧ ClosedByLast (depth + t.angle) ts

namespace FunctionHeader

theorem returnRun_cons {depth : Int} {t : Tree} (h : endsReturn t = true → depth ≠ 0)
    (rest : List Tree) :
    returnRun depth (t :: rest) =
      (t :: (returnRun (depth + t.angle) rest).1, (returnRun (depth + t.angle) rest).2) := by
  have hgo : (decide (depth = 0) && endsReturn t) = false := by
    cases he : endsReturn t <;> simp [he] at h ⊢
    exact h
  have hdepth : (if t.isPunct "<" then depth + 1 else if t.isPunct ">" then depth - 1 else depth) =
      depth + t.angle := by
    unfold Tree.angle
    split_ifs <;> omega
  rw [returnRun, hgo]
  simp only [Bool.false_eq_true, if_false, hdepth]

/-- A return type is passed over up to what stops it. -/
theorem returnRun_sheltered {depth : Int} {type : List Tree} (h : Sheltered endsReturn depth type)
    {t : Tree} (ht : endsReturn t = true) (rest : List Tree) :
    returnRun depth (type ++ t :: rest) = (type, t :: rest) := by
  induction type generalizing depth with
  | nil =>
    obtain rfl : depth = 0 := h
    simp [returnRun, ht]
  | cons u type ih => rw [List.cons_append, returnRun_cons h.1, ih h.2]

theorem afterAngles_cons {depth : Nat} (hd : 0 < depth) (t : Tree) (rest : List Tree) :
    afterAngles depth (t :: rest) =
      if depth + t.angle = 0 then rest else afterAngles (depth + t.angle).toNat rest := by
  rw [afterAngles, Tree.angle]
  by_cases hopen : t.isPunct "<" = true
  · rw [if_pos hopen, if_pos hopen, if_neg (by omega)]
    rfl
  rw [if_neg hopen, if_neg hopen]
  by_cases hclose : t.isPunct ">" = true
  · rw [if_pos hclose, if_pos hclose]
    by_cases hlast : depth ≤ 1
    · rw [if_pos hlast, if_pos (by omega)]
    · rw [if_neg hlast, if_neg (by omega)]
      congr 1
      omega
  · rw [if_neg hclose, if_neg hclose, if_neg (by omega), Int.add_zero, Int.toNat_natCast]

theorem afterAngles_closedByLast {depth : Nat} {ts : List Tree} (hd : 0 < depth)
    (h : ClosedByLast depth ts) (rest : List Tree) : afterAngles depth (ts ++ rest) = rest := by
  induction ts generalizing depth with
  | nil => exact h.elim
  | cons t ts ih =>
    rw [List.cons_append, afterAngles_cons hd]
    cases ts with
    | nil => exact if_pos h
    | cons u us =>
      obtain ⟨hne, hus⟩ := h
      have hangle : -1 ≤ t.angle := by
        unfold Tree.angle
        split_ifs <;> omega
      have hpos : 0 < (depth + t.angle).toNat := by omega
      rw [if_neg hne]
      exact ih hpos (by rwa [Int.toNat_of_nonneg (by omega)])

/-! ## The parts of a header -/

/-- The trees are qualifiers; `extern` may have a literal behind it. -/
inductive IsQualifiers : List Tree → Prop
  | nil : IsQualifiers []
  | word {text : String} {span : Span} {ts : List Tree} :
      text ∈ qualifiers → IsQualifiers ts → IsQualifiers (.ident text span :: ts)
  | foreign {span : Span} {ts : List Tree} : IsQualifiers ts → IsQualifiers (.ident "extern" span :: ts)
  | linkage {span literalSpan : Span} {kind : LiteralKind} {text : String} {ts : List Tree} :
      IsQualifiers ts → IsQualifiers (.ident "extern" span :: .literal kind text literalSpan :: ts)

/-- The trees are generics, or nothing: the first one opens an angle bracket and the last one closes
it. -/
def IsGenerics (ts : List Tree) : Prop :=
  ts = [] ∨ ∃ span more, ts = .punct "<" span :: more ∧ ClosedByLast 0 ts

/-- The trees are a return type of some kind behind `->`, or nothing. -/
def IsReturn (kind : List Tree → Prop) : Option (List Tree) → List Tree → Prop
  | none, ts => ts = []
  | some type, ts => kind type ∧ ∃ span, ts = .punct "->" span :: type

/-- The trees are those of a header in front of where clause and body. -/
def Front (kind : List Tree → Prop) (h : FunctionHeader) (ts : List Tree) : Prop :=
  ∃ attributes qualifiers keyword generics parameters parens arrow,
    ts = attributeTrees attributes ++ (h.visibility ++ (qualifiers ++ .ident "fn" keyword ::
      h.name.tree :: (generics ++ .group .paren parameters parens :: arrow))) ∧
    IsVisibility h.visibility ∧ IsQualifiers qualifiers ∧ IsGenerics generics ∧
    IsReturn kind h.returned arrow

theorem afterAttributes_append (as : List Attribute) {ts : List Tree}
    (h : ∃ text span more, ts = .ident text span :: more) :
    afterAttributes (attributeTrees as ++ ts) = ts := by
  induction as with
  | nil =>
    obtain ⟨text, span, more, rfl⟩ := h
    cases more <;> simp [attributeTrees, afterAttributes, Tree.isPunct]
  | cons a as ih =>
    rw [attributeTrees_cons_append, afterAttributes, if_pos (by simp [Tree.isPunct, Tree.isGroup]), ih]

/-- A visibility is told from qualifiers and from `fn` behind it. -/
theorem visibilityRun_append_ident {visibility : List Tree} (h : IsVisibility visibility)
    {text : String} (htext : text ≠ "pub") (span : Span) (more : List Tree) :
    visibilityRun (visibility ++ .ident text span :: more) = (visibility, .ident text span :: more) := by
  rcases h with rfl | ⟨pub, rfl⟩ | ⟨pub, inner, parens, rfl⟩
  · simp [visibilityRun, Tree.isWord, htext]
  · simp [visibilityRun, Tree.isWord, Tree.isGroup]
  · simp [visibilityRun, Tree.isWord, Tree.isGroup]

theorem IsQualifiers.head {qs : List Tree} (h : IsQualifiers qs) (span : Span) (rest : List Tree) :
    ∃ text s more, text ≠ "pub" ∧ qs ++ .ident "fn" span :: rest = .ident text s :: more := by
  cases h with
  | nil => exact ⟨"fn", span, rest, by decide, rfl⟩
  | word htext => exact ⟨_, _, _, fun he => absurd (he ▸ htext) (by decide), rfl⟩
  | foreign | linkage => exact ⟨_, _, _, by decide, rfl⟩

theorem IsQualifiers.afterQualifiers_eq {qs : List Tree} (h : IsQualifiers qs) (span : Span)
    (rest : List Tree) :
    afterQualifiers (qs ++ .ident "fn" span :: rest) = .ident "fn" span :: rest := by
  induction h with
  | nil =>
    rw [List.nil_append, afterQualifiers.eq_def]
    simp [isQualifier, qualifiers, Tree.isWord]
  | word htext _ ih =>
    rw [List.cons_append, afterQualifiers.eq_def]
    simp [isQualifier, htext, ih]
  | foreign hqs ih =>
    -- what follows begins with a word, so `extern` stands alone
    obtain ⟨text, s, more, -, he⟩ := hqs.head span rest
    rw [he] at ih
    rw [List.cons_append, he, afterQualifiers.eq_def]
    simp [isQualifier, qualifiers, Tree.isWord, isLiteral, ih]
  | linkage _ ih =>
    rw [List.cons_append, List.cons_append, afterQualifiers.eq_def]
    simp [isQualifier, qualifiers, Tree.isWord, isLiteral, ih]

theorem IsGenerics.afterGenerics_eq {generics : List Tree} (h : IsGenerics generics)
    (parameters : List Tree) (span : Span) (rest : List Tree) :
    afterGenerics (generics ++ .group .paren parameters span :: rest) =
      .group .paren parameters span :: rest := by
  rcases h with rfl | ⟨s, more, rfl, hclosed⟩
  · simp [afterGenerics, Tree.isPunct]
  · have hopen : (0 : Int) + (Tree.punct "<" s).angle = (1 : Nat) := by simp [Tree.angle, Tree.isPunct]
    cases more with
    | nil =>
      have : (0 : Int) + (Tree.punct "<" s).angle = 0 := hclosed
      omega
    | cons u us =>
      have hrest : ClosedByLast (1 : Nat) (u :: us) := hopen ▸ hclosed.2
      rw [afterGenerics, if_pos (by simp [Tree.isPunct]), List.cons_append, afterAngles,
        if_pos (by simp [Tree.isPunct])]
      exact afterAngles_closedByLast Nat.one_pos hrest _

theorem IsReturn.returnType_eq {returned : Option (List Tree)} {arrow : List Tree}
    (h : IsReturn (Sheltered endsReturn 0) returned arrow) {t : Tree} (ht : endsReturn t = true)
    (rest : List Tree) : returnType (arrow ++ t :: rest) = (returned, t :: rest) := by
  cases returned with
  | none =>
    obtain rfl : arrow = [] := h
    have hne : t.isPunct "->" = false := by
      cases t with
      | punct op span =>
        obtain rfl : op = ";" := by simpa [endsReturn, Tree.isGroup, Tree.isWord, Tree.isPunct] using ht
        rfl
      | _ => rfl
    simp [returnType, hne]
  | some type =>
    obtain ⟨htype, span, rfl⟩ := h
    rw [List.cons_append, returnType, if_pos (by simp [Tree.isPunct]), returnRun_sheltered htype ht]

/-- What a header comes to with the trees behind its where clause: the body has to come next. -/
def endedBy (h : FunctionHeader) : List Tree → Except ItemError FunctionHeader
  | .group .brace body bodySpan :: rest => .ok { h with body, bodySpan, rest }
  | _ => .error ⟨.missingBody h.name.text, h.name.span⟩

/-- A header is read up to what stops its return type. -/
theorem Front.parse_eq {h : FunctionHeader} {front : List Tree}
    (hfront : h.Front (Sheltered endsReturn 0) front) {t : Tree} (ht : endsReturn t = true)
    (more : List Tree) (tag : String) :
    parse tag (front ++ t :: more) = h.endedBy (afterWhere (t :: more)) := by
  obtain ⟨as, qs, keyword, generics, parameters, parens, arrow, rfl, hvis, hqs, hgen, hret⟩ := hfront
  simp only [List.append_assoc, List.cons_append]
  set signature := generics ++ .group .paren parameters parens :: (arrow ++ t :: more) with hsignature
  obtain ⟨text, s, others, htext, hhead⟩ := hqs.head keyword (h.name.tree :: signature)
  have hattributes : afterAttributes (attributeTrees as ++
      (h.visibility ++ (qs ++ .ident "fn" keyword :: h.name.tree :: signature))) =
      h.visibility ++ (qs ++ .ident "fn" keyword :: h.name.tree :: signature) := by
    refine afterAttributes_append as ?_
    rw [hhead]
    rcases hvis with hvis | ⟨pub, hvis⟩ | ⟨pub, inner, parens, hvis⟩ <;> exact hvis ▸ ⟨_, _, _, rfl⟩
  have hvisibility : visibilityRun
      (h.visibility ++ (qs ++ .ident "fn" keyword :: h.name.tree :: signature)) =
      (h.visibility, qs ++ .ident "fn" keyword :: h.name.tree :: signature) := by
    rw [hhead]
    exact visibilityRun_append_ident hvis htext s others
  unfold parse
  simp only [hattributes, hvisibility, hqs.afterQualifiers_eq]
  simp only [Name.tree]
  rw [if_pos (by simp [Tree.isWord]), parseRest, hsignature, hgen.afterGenerics_eq]
  simp only [hret.returnType_eq ht]
  rfl

end FunctionHeader

/-! ## Return types -/

open Depths FunctionHeader

/-- A mark that the count of a type passes changes the number of open angle brackets as it does there,
and stops a return type only where the type has angle brackets open. -/
theorem passMark_angle {a : Nat} {op : String} {d : Depths} (h : passMark ⟨0, a⟩ op = some d)
    (span : Span) : d.groups = 0 ∧ a + (Tree.punct op span).angle = d.angles ∧
      (endsReturn (.punct op span) = true → a ≠ 0) := by
  rcases passMark_cases h with ⟨rfl, rfl⟩ | ⟨rfl, hpos, rfl⟩ | ⟨hopen, hclose, -, hmark, rfl⟩
  · exact ⟨rfl, by simp [Tree.angle, Tree.isPunct],
      by simp [endsReturn, Tree.isGroup, Tree.isWord, Tree.isPunct]⟩
  · have hangle : (Tree.punct ">" span).angle = -1 := by simp [Tree.angle, Tree.isPunct]
    refine ⟨rfl, ?_, fun _ => hpos⟩
    rw [hangle]
    change (a : Int) + -1 = ((a - 1 : Nat) : Int)
    omega
  · refine ⟨rfl, by simp [Tree.angle, Tree.isPunct, hopen, hclose], fun hends hzero => ?_⟩
    obtain rfl : op = ";" := by
      simpa [endsReturn, Tree.isGroup, Tree.isWord, Tree.isPunct] using hends
    exact hmark hzero (by decide)

/-- Words that keep the count of a type spell trees whose braces and `;` are sheltered. -/
theorem Spells.sheltered {words : List Word} {ts : List Tree} (h : Spells words ts) {a : Nat}
    (hlead : Leads ⟨0, a⟩ ⟨0, 0⟩ words) (hwhere : ∀ t ∈ ts, t.isWord "where" = false) :
    Sheltered endsReturn a ts := by
  induction h generalizing a with
  | nil =>
    obtain rfl : a = 0 := by simpa [Leads] using hlead
    exact rfl
  | @leaf w t words ts hl ht _ ih =>
    obtain ⟨hword, hothers⟩ := List.forall_mem_cons.1 hwhere
    obtain ⟨⟨groups, angles⟩, hpass, hrest⟩ := hlead.cons_inv
    obtain ⟨cls, text⟩ := w
    cases cls with
    | opening | closing => simp [LexemeClass.isLeaf] at hl
    | punct =>
      cases t with
      | punct op span =>
        obtain rfl : op = text := by simpa [Tree.bare, Word.leaf, Lexeme.leaf] using ht
        obtain ⟨hgroups, hangle, hends⟩ := passMark_angle hpass span
        obtain rfl : groups = 0 := hgroups
        refine ⟨fun he => by simpa using hends he, ?_⟩
        rw [hangle]
        exact ih hrest hothers
      | _ => simp [Tree.bare, Word.leaf, Lexeme.leaf] at ht
    | _ =>
      obtain ⟨rfl, rfl⟩ : 0 = groups ∧ a = angles := by simpa [Depths.pass] using hpass
      cases t with
      | punct | group => simp [Tree.bare, Word.leaf, Lexeme.leaf] at ht
      | ident | literal =>
        refine ⟨by simp [endsReturn, hword, Tree.isGroup, Tree.isPunct], ?_⟩
        simpa [Tree.angle, Tree.isPunct] using ih hrest hothers
  | @group d span inner words children ts hin _ _ ih =>
    obtain ⟨-, hothers⟩ := List.forall_mem_cons.1 hwhere
    obtain ⟨hbrace, hrest⟩ := hin.leads_group_inv hlead
    refine ⟨fun he => ?_, ?_⟩
    · have hd : d = .brace := by simpa [endsReturn, Tree.isGroup, Tree.isWord, Tree.isPunct] using he
      exact Int.natCast_ne_zero.2 (hbrace hd)
    · simpa [Tree.angle, Tree.isPunct] using ih hrest hothers

/-- A type is passed over as a whole where a return type is expected. -/
theorem sheltered_of_ofTrees {type : List Tree} {t : TypeExpr} (h : TypeExpr.ofTrees type = .ok t)
    (hlex : Lexed type) (hwhere : ∀ t ∈ type, t.isWord "where" = false) :
    Sheltered endsReturn 0 type := by
  obtain ⟨ls, e, ht, hspells⟩ := TypeExpr.ofTrees_eq_ok h hlex
  exact hspells.sheltered (ht.keeps ⟨0, 0⟩) hwhere

namespace FunctionHeader

/-- The trees are a type that the grammar accepts, and none of them is `where`. -/
def IsPlainType (type : List Tree) : Prop :=
  (∃ t, TypeExpr.ofTrees type = .ok t) ∧ ∀ t ∈ type, t.isWord "where" = false

/-- Where lexed trees begin with the front of a header, its return type is passed over as a whole. -/
theorem Front.sheltered {h : FunctionHeader} {front more : List Tree} (hfront : h.Front IsPlainType front)
    (hlex : Lexed (front ++ more)) : h.Front (Sheltered endsReturn 0) front := by
  obtain ⟨as, qs, keyword, generics, parameters, parens, arrow, rfl, hvis, hqs, hgen, hret⟩ := hfront
  refine ⟨as, qs, keyword, generics, parameters, parens, arrow, rfl, hvis, hqs, hgen, ?_⟩
  cases hr : h.returned with
  | none => rwa [hr] at hret
  | some type =>
    rw [hr] at hret
    obtain ⟨⟨⟨t, ht⟩, hwhere⟩, span, rfl⟩ := hret
    have hpart : type <:+: attributeTrees as ++ (h.visibility ++ (qs ++ .ident "fn" keyword ::
        h.name.tree :: (generics ++ .group .paren parameters parens :: .punct "->" span :: type))) ++
        more := by
      refine ⟨attributeTrees as ++ (h.visibility ++ (qs ++ .ident "fn" keyword ::
        h.name.tree :: (generics ++ .group .paren parameters parens :: [.punct "->" span]))), more, ?_⟩
      simp
    exact ⟨sheltered_of_ofTrees ht (hlex.part hpart) hwhere, span, rfl⟩

/-- A header without a where clause is taken apart into what it was written with. -/
theorem parse_outline {h : FunctionHeader} {front : List Tree} (hfront : h.Front IsPlainType front)
    (hlex : Lexed (front ++ .group .brace h.body h.bodySpan :: h.rest)) (tag : String) :
    parse tag (front ++ .group .brace h.body h.bodySpan :: h.rest) = .ok h := by
  have hends : endsReturn (.group .brace h.body h.bodySpan) = true := rfl
  rw [(hfront.sheltered hlex).parse_eq hends, afterWhere, if_neg (by simp [Tree.isWord])]
  rfl

/-- A header with all parts: angle brackets inside of each other in the generics, and a constant in
braces in the return type. -/
theorem parse_outline_nested_angles :
    let generics : List Tree := [.mark "<", .word "V", .mark "<", .word "U", .mark ">", .mark ">"]
    let type : List Tree := [.word "W", .mark "<", .group .brace [.word "N"] .unknown, .mark ">"]
    let h : FunctionHeader :=
      { name := ⟨"f", .unknown⟩, visibility := [.word "pub", .group .paren [.word "b"] .unknown]
        returned := some type, body := [], bodySpan := .unknown
        rest := [.word "where", .group .brace [] .unknown] }
    let front : List Tree := [.mark "#", .group .bracket [.word "a"] .unknown] ++ (h.visibility ++
      ([.word "extern", .literal .string "\"C\"" .unknown] ++ .word "fn" :: h.name.tree ::
        (generics ++ .group .paren [] .unknown :: .mark "->" :: type)))
    let trees : List Tree := front ++ .group .brace h.body h.bodySpan :: h.rest
    h.Front IsPlainType front ∧ Lexed trees ∧ parse "tag" trees = .ok h := by
  intro generics type h front trees
  have htype : TypeExpr.ofTrees type =
      .ok (.path none false [.generic "W" [.const "\x7b N \x7d"]]) := by cbv
  have hreturn : IsPlainType type := ⟨⟨_, htype⟩, by simp [type, Tree.isWord, Tree.word, Tree.mark]⟩
  have hfront : h.Front IsPlainType front := by
    refine ⟨[⟨.unknown, [.word "a"], .unknown⟩], [.word "extern", .literal .string "\"C\"" .unknown],
      .unknown, generics, [], .unknown, .mark "->" :: type, rfl, .inr (.inr ⟨_, _, _, rfl⟩),
      .linkage .nil, .inr ⟨_, _, rfl, ?_⟩, hreturn, _, rfl⟩
    simp [generics, ClosedByLast, Tree.angle, Tree.isPunct, Tree.mark, Tree.word]
  have hlex : Lexed trees := by
    refine .of_text
      "#[a]pub(b)extern\"C\"fn f<V<U>>()->W<\x7bN\x7d>\x7b\x7dwhere\x7b\x7d".toList ?_
    set_option maxRecDepth 4000 in cbv
  exact ⟨hfront, hlex, parse_outline hfront hlex "tag"⟩

end FunctionHeader

/-! ## Where clauses -/

/-- How many more angle brackets the trees open than they close. -/
def angleBalance (ts : List Tree) : Int := (ts.map Tree.angle).sum

/-- What is sheltered has angle brackets open in front of it. -/
theorem Sheltered.angleBalance_ne {kind : Tree → Bool} {depth : Int} {before after : List Tree} {t : Tree}
    (h : Sheltered kind depth (before ++ t :: after)) (ht : kind t = true) :
    depth + angleBalance before ≠ 0 := by
  induction before generalizing depth with
  | nil => simpa [angleBalance] using h.1 ht
  | cons u before ih =>
    have hrest := ih h.2
    simp only [angleBalance, List.map_cons, List.sum_cons] at hrest ⊢
    omega

namespace FunctionHeader

/-- Whether a tree stops a where clause. -/
def endsClause (t : Tree) : Bool := t.isGroup .brace || t.isPunct ";"

/-- A where clause is passed over up to the first tree that stops it. -/
theorem afterWhere_clause {clause : List Tree} (h : ∀ t ∈ clause, endsClause t = false) {t : Tree}
    (ht : endsClause t = true) (keyword : Span) (more : List Tree) :
    afterWhere (.ident "where" keyword :: (clause ++ t :: more)) = t :: more := by
  have hdrop : (clause ++ t :: more).dropWhile (fun t => !endsClause t) = t :: more := by
    rw [List.dropWhile_append_of_pos (by simpa using h)]
    simp [ht]
  rw [afterWhere, if_pos (by simp [Tree.isWord]), List.dropWhile_cons_of_pos (by rfl)]
  exact hdrop

/-- The first tree that stops a where clause, if there is one. -/
theorem clause_cases (clause : List Tree) :
    (∀ t ∈ clause, endsClause t = false) ∨ ∃ before t after, clause = before ++ t :: after ∧
      (∀ u ∈ before, endsClause u = false) ∧ endsClause t = true := by
  cases hfind : clause.find? endsClause with
  | none => exact .inl (by simpa using hfind)
  | some t =>
    obtain ⟨ht, before, after, rfl, hbefore⟩ := List.find?_eq_some_iff_append.1 hfind
    exact .inr ⟨before, t, after, rfl, by simpa using hbefore, ht⟩

theorem endsClause_cases {t : Tree} (h : endsClause t = true) :
    (∃ inner span, t = .group .brace inner span) ∨ ∃ span, t = .punct ";" span := by
  cases t with
  | group d inner span =>
    obtain rfl : d = .brace := by simpa [endsClause, Tree.isGroup, Tree.isPunct] using h
    exact .inl ⟨inner, span, rfl⟩
  | punct op span =>
    obtain rfl : op = ";" := by simpa [endsClause, Tree.isGroup, Tree.isPunct] using h
    exact .inr ⟨span, rfl⟩
  | ident | literal => simp [endsClause, Tree.isGroup, Tree.isPunct] at h

section Where

variable {h : FunctionHeader} {front : List Tree}

/-- Behind a where clause, the header is decided by the first tree that stops the clause. -/
theorem Front.parse_where (hfront : h.Front (Sheltered endsReturn 0) front) {clause : List Tree}
    (hclause : ∀ t ∈ clause, endsClause t = false) {t : Tree} (ht : endsClause t = true) (keyword : Span)
    (more : List Tree) (tag : String) :
    parse tag (front ++ .ident "where" keyword :: (clause ++ t :: more)) = h.endedBy (t :: more) := by
  have hwhere : endsReturn (.ident "where" keyword) = true := by simp [endsReturn, Tree.isWord]
  rw [hfront.parse_eq hwhere, afterWhere_clause hclause ht]

/-- A where clause whose angle brackets are balanced and shelter all of its braces. The body behind it
is found exactly if there is no brace and no `;` in the clause at all. Else a constant inside of angle
brackets is taken for the body, or there is said to be none. -/
theorem parse_where_iff (hfront : h.Front (Sheltered endsReturn 0) front) {clause : List Tree}
    (hclause : Sheltered (Tree.isGroup .brace) 0 clause) (keyword : Span) (tag : String) :
    let found := parse tag
      (front ++ .ident "where" keyword :: (clause ++ .group .brace h.body h.bodySpan :: h.rest))
    (found = .ok h ↔ ∀ t ∈ clause, t.isGroup .brace = false ∧ t.isPunct ";" = false) ∧
    (∀ before inner span after, clause = before ++ .group .brace inner span :: after →
      (∀ t ∈ before, t.isGroup .brace = false ∧ t.isPunct ";" = false) →
      angleBalance before ≠ 0 ∧ found = .ok { h with
        body := inner, bodySpan := span
        rest := after ++ .group .brace h.body h.bodySpan :: h.rest }) ∧
    ∀ before span after, clause = before ++ .punct ";" span :: after →
      (∀ t ∈ before, t.isGroup .brace = false ∧ t.isPunct ";" = false) →
      found = .error ⟨.missingBody h.name.text, h.name.span⟩ := by
  intro found
  have hends (ts : List Tree) : (∀ t ∈ ts, t.isGroup .brace = false ∧ t.isPunct ";" = false) ↔
      ∀ t ∈ ts, endsClause t = false := by simp [endsClause]
  simp only [hends]
  have hfound {before after : List Tree} {t : Tree} (he : clause = before ++ t :: after)
      (hbefore : ∀ u ∈ before, endsClause u = false) (ht : endsClause t = true) :
      found = h.endedBy (t :: (after ++ .group .brace h.body h.bodySpan :: h.rest)) := by
    simp only [found, he, List.append_assoc, List.cons_append]
    exact hfront.parse_where hbefore ht keyword _ tag
  refine ⟨⟨fun hok => ?_, fun hnone => ?_⟩, ?_, ?_⟩
  · rcases clause_cases clause with hnone | ⟨before, t, after, he, hbefore, ht⟩
    · exact hnone
    -- more trees stand behind what was found than behind the body
    · rw [hfound he hbefore ht] at hok
      rcases endsClause_cases ht with ⟨inner, span, rfl⟩ | ⟨span, rfl⟩
      · have hrest := congrArg (List.length ∘ FunctionHeader.rest) (Except.ok.inj hok)
        simp at hrest
        omega
      · cases hok
  · exact hfront.parse_where hnone rfl keyword h.rest tag
  · intro before inner span after he hbefore
    have hne := (he ▸ hclause).angleBalance_ne rfl
    exact ⟨by simpa using hne, hfound he hbefore rfl⟩
  · intro before span after he hbefore
    exact hfound he hbefore rfl

end Where

/-- A constant in braces is taken for the body; without braces the body is found. -/
theorem parse_where_iff_constant :
    let h : FunctionHeader :=
      { name := ⟨"f", .unknown⟩, visibility := [], returned := none, body := [.word "x"]
        bodySpan := .unknown, rest := [] }
    let front : List Tree := [.word "fn", h.name.tree, .group .paren [] .unknown]
    let braced : List Tree := [.word "A", .mark "<", .group .brace [.word "N"] .unknown, .mark ">",
      .mark ":", .word "T"]
    let plain : List Tree := [.word "A", .mark "<", .word "N", .mark ">", .mark ":", .word "T"]
    let body : List Tree := .group .brace h.body h.bodySpan :: h.rest
    h.Front (Sheltered endsReturn 0) front ∧ Sheltered (Tree.isGroup .brace) 0 braced ∧
      Sheltered (Tree.isGroup .brace) 0 plain ∧
      parse "tag" (front ++ .word "where" :: (plain ++ body)) = .ok h ∧
      parse "tag" (front ++ .word "where" :: (braced ++ body)) =
        .ok { h with body := [.word "N"], rest := [.mark ">", .mark ":", .word "T"] ++ body } := by
  intro h front braced plain body
  have hfront : h.Front (Sheltered endsReturn 0) front :=
    ⟨[], [], .unknown, [], [], .unknown, [], rfl, .inl rfl, .nil, .inl rfl, rfl⟩
  have hbraced : Sheltered (Tree.isGroup .brace) 0 braced := by
    simp [braced, Sheltered, Tree.angle, Tree.isPunct, Tree.isGroup, Tree.mark, Tree.word]
  have hplain : Sheltered (Tree.isGroup .brace) 0 plain := by
    simp [plain, Sheltered, Tree.angle, Tree.isPunct, Tree.isGroup, Tree.mark, Tree.word]
  refine ⟨hfront, hbraced, hplain, (parse_where_iff hfront hplain .unknown "tag").1.2 ?_,
    ((parse_where_iff hfront hbraced .unknown "tag").2.1 [.word "A", .mark "<"] _ _ _ rfl ?_).2⟩
  · simp [plain, Tree.isGroup, Tree.isPunct, Tree.mark, Tree.word]
  · simp [Tree.isGroup, Tree.isPunct, Tree.mark, Tree.word]

/-- Angle brackets shelter the constant, and the body is not expanded. -/
theorem expandSource_where_constant :
    Sheltered (Tree.isGroup .brace) 0 [.word "Assert", .mark "<", .group .brace
      [.word "N", .mark ">", .literal .number "0" .unknown] .unknown, .mark ">", .mark ":",
      .word "IsTrue"] ∧
    (expandSource ("#[err_as_you_go]\nfn f<const N: usize>() -> Result<(), E> " ++
      "where Assert<\x7b N > 0 \x7d>: IsTrue \x7b Err(err!(A)) \x7d").toList).text =
      ("enum E \x7b\x7d\n\nfn f<const N: usize>() -> Result<(), E> " ++
        "where Assert<\x7b N > 0 \x7d>: IsTrue \x7b Err(err!(A)) \x7d").toList ∧
    (expandSource ("#[err_as_you_go]\nfn f<const N: usize>() -> Result<(), E> " ++
      "where Assert<N>: IsTrue \x7b Err(err!(A)) \x7d").toList).text =
      ("enum E \x7b\n    A,\n\x7d\n\nfn f<const N: usize>() -> Result<(), E> " ++
        "where Assert<N>: IsTrue \x7b Err(::core::convert::identity(E::A)) \x7d").toList := by
  refine ⟨?_, by decide +kernel, by decide +kernel⟩
  simp [Sheltered, Tree.angle, Tree.isPunct, Tree.isGroup, Tree.mark, Tree.word]

end FunctionHeader

end InlineVariants
