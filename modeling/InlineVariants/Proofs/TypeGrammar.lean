import InlineVariants.TypeExpr.Parser

/-!
# The grammar of types

What a list of lexemes says as a type, apart from how it is read: `IsType` and `IsPath` hold of the
lexemes of a type, of the type they stand for, and of how they end. A rule is written over two
relations for the paths and the types inside (`PathOver`, `TypeOver`), and the two relations are the
least that satisfy the rules.

The grammar is ambiguous. In `dyn Fn() -> dyn A + B` the `+` may go on with either list of bounds,
and in `Fn() -> a::B` the `::` may go on with either path. How a phrase ends (`Ends`) tells what it
could take if that stood behind it, and an innermost derivation leaves nothing to a chain around a
phrase that the phrase itself could take. Every other derivation is free to.

Derivations are compared through `Recast`: that the phrases of one kind are phrases of another over
the same lexemes. Each rule carries it over from the phrases inside.
-/

namespace InlineVariants

namespace TypeExpr

/-! ## How a phrase ends -/

/-- What a phrase would take if it stood behind it. -/
structure Ends where
  /-- `<` and `(`, behind a bare name. -/
  args : Bool := false
  /-- `->`, behind parameters in parentheses. -/
  arrow : Bool := false
  /-- `=`, behind a bare name that stands for an argument. -/
  binding : Bool := false
  /-- `::`, behind a path. -/
  path : Bool := false
  /-- `+`, behind a list of bounds. -/
  bounds : Bool := false
deriving DecidableEq

/-- What stands between the items of a chain: the segments of a path or the bounds of a list. -/
inductive Link where
  | path
  | bounds
deriving DecidableEq

/-- The separator of a chain. -/
def Link.isSep : Link → Lexeme → Bool
  | path => isMark "::"
  | bounds => isMark "+"

namespace Ends

/-- Whether a lexeme that stands behind a phrase would be taken into it. -/
def takes (e : Ends) (l : Lexeme) : Bool :=
  (e.args && (isMark "<" l || isOf (.opening .paren) l)) || (e.arrow && isMark "->" l) ||
    (e.binding && isMark "=" l) || (e.path && isMark "::" l) || (e.bounds && isMark "+" l)

/-- Whether a phrase ends in a chain that can go on. -/
def goesOn (e : Ends) : Link → Bool
  | .path => e.path
  | .bounds => e.bounds

/-- The end of a chain, by the end of its last item. -/
def opened (e : Ends) : Link → Ends
  | .path => { e with path := true }
  | .bounds => { e with bounds := true }

end Ends

/-- A kind of phrase: lexemes, what they stand for and how they end. -/
abbrev Phrase (α : Type) := List Lexeme → α → Ends → Prop

/-! ## Rules -/

/-- One lexeme that passes a test. -/
def One (test : Lexeme → Bool) (ls : List Lexeme) : Prop := ∃ l, ls = [l] ∧ test l = true

/-- Nothing, or something of the given kind. -/
def Maybe (kind : List Lexeme → Prop) (ls : List Lexeme) : Prop := ls = [] ∨ kind ls

section Lists

variable (close : Lexeme → Bool) (item : Phrase α)

/-- What stands behind an item of a list: further items, each behind a comma, perhaps one more
comma, and the closing lexeme. -/
inductive ListTail : Phrase (List α)
  | close {c : Lexeme} : close c = true → ListTail [c] [] {}
  | trailing {x c : Lexeme} : isMark "," x = true → close c = true → ListTail [x, c] [] {}
  | cons {x : Lexeme} {ls ms : List Lexeme} {a : α} {as : List α} {e e' : Ends} :
      isMark "," x = true → item ls a e → ListTail ms as e' → ListTail (x :: (ls ++ ms)) (a :: as) e'

/-- The items of a list that has some, through the closing lexeme. -/
inductive Items : Phrase (List α)
  | mk {ls ms : List Lexeme} {a : α} {as : List α} {e e' : Ends} :
      item ls a e → ListTail close item ms as e' → Items (ls ++ ms) (a :: as) e'

/-- The items of a list, through the closing lexeme. -/
inductive Listed : Phrase (List α)
  | nil {c : Lexeme} : close c = true → Listed [c] [] {}
  | some {ls : List Lexeme} {as : List α} {e : Ends} :
      Items close item ls as e → Listed ls as e

variable {close item} {ls : List Lexeme} {as : List α} {e : Ends}

/-- Nothing behind a closing lexeme is taken into the list. -/
theorem ListTail.ends_eq (h : ListTail close item ls as e) : e = {} := by
  induction h with
  | close => rfl
  | trailing => rfl
  | cons _ _ _ ih => exact ih

theorem Listed.ends_eq (h : Listed close item ls as e) : e = {} := by
  cases h with
  | nil => rfl
  | some hi =>
    obtain ⟨-, ht⟩ := hi
    exact ht.ends_eq

end Lists

section Chains

variable (innermost : Bool) (link : Link) (item : Phrase α)

/-- What stands behind an item with the given end: further items, each behind a separator. In an
innermost derivation the separator is none that the item in front would take. -/
inductive ChainTail : Ends → Phrase (List α)
  | nil {e : Ends} : ChainTail e [] [] (e.opened link)
  | cons {s : Lexeme} {ls ms : List Lexeme} {a : α} {as : List α} {e e' e'' : Ends} :
      link.isSep s = true → (innermost = true → e.takes s = false) → item ls a e' →
      ChainTail e' ms as e'' → ChainTail e (s :: (ls ++ ms)) (a :: as) e''

/-- One or more items with a separator between them. -/
inductive Chain : Phrase (List α)
  | mk {ls ms : List Lexeme} {a : α} {as : List α} {e e' : Ends} :
      item ls a e → ChainTail innermost link item e ms as e' → Chain (ls ++ ms) (a :: as) e'

variable {innermost link item}

theorem Chain.single {ls : List Lexeme} {a : α} {e : Ends} (h : item ls a e) :
    Chain innermost link item ls [a] (e.opened link) := by
  simpa using Chain.mk h .nil

theorem Chain.cons {s : Lexeme} {ls ms : List Lexeme} {a : α} {as : List α} {e e' : Ends}
    (ha : item ls a e) (hs : link.isSep s = true) (hcut : innermost = true → e.takes s = false)
    (h : Chain innermost link item ms as e') :
    Chain innermost link item (ls ++ s :: ms) (a :: as) e' := by
  obtain ⟨hb, ht⟩ := h
  exact .mk ha (.cons hs hcut hb ht)

end Chains

/-- Any lexemes with every bracket among them in its place. -/
inductive TokenRun : List Lexeme → Prop
  | nil : TokenRun []
  | leaf {l : Lexeme} {ls : List Lexeme} :
      (∀ d, l.cls ≠ .opening d ∧ l.cls ≠ .closing d) → TokenRun ls → TokenRun (l :: ls)
  | group {o c : Lexeme} {d : Delimiter} {ls ms : List Lexeme} :
      o.cls = .opening d → TokenRun ls → c.cls = .closing d → TokenRun ms →
      TokenRun (o :: (ls ++ c :: ms))

/-- A binder `for<'a, 'b>`. -/
def Binder (ls : List Lexeme) : Prop :=
  ∃ f o ms as e, ls = f :: o :: ms ∧ isReserved "for" f = true ∧ isMark "<" o = true ∧
    Items (isMark ">") (fun ls l e => ls = [l] ∧ isOf .lifetime l = true ∧ e = {}) ms as e

/-- The linkage of a function pointer: `extern`, perhaps with a name. -/
def Linkage (ls : List Lexeme) : Prop :=
  ∃ x ms, ls = x :: ms ∧ isReserved "extern" x = true ∧ Maybe (One (isOf .string)) ms

/-- A function pointer through the parenthesis that opens its parameters. -/
def FunctionHead (ls : List Lexeme) : Prop :=
  ∃ bs us xs f o, ls = bs ++ (us ++ (xs ++ [f, o])) ∧ Maybe Binder bs ∧
    Maybe (One (isReserved "unsafe")) us ∧ Maybe Linkage xs ∧ isReserved "fn" f = true ∧
    isOf (.opening .paren) o = true

/-- Whether lexemes are one bare name. -/
def isBareName : List Lexeme → Bool
  | [l] => isFreeName l
  | _ => false

section Rules

variable (innermost : Bool) (path ty : Phrase TypeExpr)

/-- The type behind `->`, if there is one. -/
inductive Returned : Phrase (List TypeExpr)
  | none : Returned [] [] { arrow := true }
  | some {m : Lexeme} {ls : List Lexeme} {t : TypeExpr} {e : Ends} :
      isMark "->" m = true → ty ls t e → Returned (m :: ls) [t] e

/-- An argument in angle brackets. -/
inductive IsArg : Phrase GenericArg
  | type {ls : List Lexeme} {t : TypeExpr} {e : Ends} :
      ty ls t e → IsArg ls (.type t) { e with binding := e.binding || isBareName ls }
  | lifetime {l : Lexeme} : isOf .lifetime l = true → IsArg [l] (.lifetime l.text) {}
  | binding {l m : Lexeme} {ls : List Lexeme} {t : TypeExpr} {e : Ends} :
      isFreeName l = true → isMark "=" m = true → ty ls t e →
      IsArg (l :: m :: ls) (.binding l.text t) e
  | literal {l : Lexeme} :
      (isOf .number l || isOf .string l || isOf .char l) = true → IsArg [l] (.const l.text) {}
  | negative {m l : Lexeme} :
      isMark "-" m = true → isOf .number l = true → IsArg [m, l] (.const (m.text ++ l.text)) {}
  | braced {o c : Lexeme} {ls : List Lexeme} :
      isOf (.opening .brace) o = true → TokenRun ls → isOf (.closing .brace) c = true →
      IsArg (o :: (ls ++ [c]))
        (.const (" ".intercalate (o.text :: (ls ++ [c]).map Lexeme.text))) {}

/-- A segment of a path. -/
inductive IsSegment : Phrase PathSegment
  | plain {l : Lexeme} : isFreeName l = true → IsSegment [l] (.plain l.text) { args := true }
  | generic {l o : Lexeme} {ls : List Lexeme} {args : List GenericArg} {e : Ends} :
      isFreeName l = true → isMark "<" o = true → Listed (isMark ">") (IsArg ty) ls args e →
      IsSegment (l :: o :: ls) (.generic l.text args) e
  | callable {l o : Lexeme} {ls ms : List Lexeme} {params result : List TypeExpr} {e e' : Ends} :
      isFreeName l = true → isOf (.opening .paren) o = true →
      Listed (isOf (.closing .paren)) ty ls params e → Returned ty ms result e' →
      IsSegment (l :: o :: (ls ++ ms)) (.callable l.text) e'

/-- The self type of a qualified path, behind its `<` and through its `>`. -/
inductive SelfType : Phrase TypeExpr
  | plain {c : Lexeme} {ls : List Lexeme} {t : TypeExpr} {e : Ends} :
      ty ls t e → isMark ">" c = true → SelfType (ls ++ [c]) t {}
  | ofTrait {m c : Lexeme} {ls ms : List Lexeme} {t trait : TypeExpr} {e e' : Ends} :
      ty ls t e → isReserved "as" m = true → path ms trait e' → isMark ">" c = true →
      SelfType (ls ++ m :: (ms ++ [c])) t {}

/-- A path type. -/
inductive PathOver : Phrase TypeExpr
  | relative {ls : List Lexeme} {segments : List PathSegment} {e : Ends} :
      Chain innermost .path (IsSegment ty) ls segments e → PathOver ls (.path none false segments) e
  | absolute {m : Lexeme} {ls : List Lexeme} {segments : List PathSegment} {e : Ends} :
      isMark "::" m = true → Chain innermost .path (IsSegment ty) ls segments e →
      PathOver (m :: ls) (.path none true segments) e
  | qualified {o m : Lexeme} {ss ls : List Lexeme} {self : TypeExpr} {segments : List PathSegment}
      {e e' : Ends} :
      isMark "<" o = true → SelfType path ty ss self e → isMark "::" m = true →
      Chain innermost .path (IsSegment ty) ls segments e' →
      PathOver (o :: (ss ++ m :: ls)) (.path (some self) false segments) e'

/-- A bound, and the type it holds if it holds one. -/
inductive IsBound : Phrase (List TypeExpr)
  | plain {ls : List Lexeme} {t : TypeExpr} {e : Ends} : path ls t e → IsBound ls [t] e
  | lifetime {l : Lexeme} : isOf .lifetime l = true → IsBound [l] [] {}
  | relaxed {m : Lexeme} {ls : List Lexeme} {t : TypeExpr} {e : Ends} :
      isMark "?" m = true → path ls t e → IsBound (m :: ls) [t] e
  | bound {bs ls : List Lexeme} {t : TypeExpr} {e : Ends} :
      Binder bs → path ls t e → IsBound (bs ++ ls) [t] e

/-- A type. -/
inductive TypeOver : Phrase TypeExpr
  | path {ls : List Lexeme} {t : TypeExpr} {e : Ends} :
      PathOver innermost path ty ls t e → TypeOver ls t e
  | reference {m : Lexeme} {as us ls : List Lexeme} {t : TypeExpr} {e : Ends} :
      (isMark "&" m || isMark "&&" m) = true → Maybe (One (isOf .lifetime)) as →
      Maybe (One (isReserved "mut")) us → ty ls t e →
      TypeOver (m :: (as ++ (us ++ ls))) (.compound .reference [t]) e
  | pointer {m k : Lexeme} {ls : List Lexeme} {t : TypeExpr} {e : Ends} :
      isMark "*" m = true → (isReserved "const" k || isReserved "mut" k) = true → ty ls t e →
      TypeOver (m :: k :: ls) (.compound .pointer [t]) e
  | tuple {o : Lexeme} {ls : List Lexeme} {parts : List TypeExpr} {e : Ends} :
      isOf (.opening .paren) o = true → Listed (isOf (.closing .paren)) ty ls parts e →
      TypeOver (o :: ls) (.compound .tuple parts) e
  | slice {o c : Lexeme} {ls : List Lexeme} {t : TypeExpr} {e : Ends} :
      isOf (.opening .bracket) o = true → ty ls t e → isOf (.closing .bracket) c = true →
      TypeOver (o :: (ls ++ [c])) (.compound .array [t]) {}
  | array {o m c : Lexeme} {ls ns : List Lexeme} {t : TypeExpr} {e : Ends} :
      isOf (.opening .bracket) o = true → ty ls t e → isMark ";" m = true → ns ≠ [] →
      (∀ l ∈ ns, isLengthPart l = true) → isOf (.closing .bracket) c = true →
      TypeOver (o :: (ls ++ m :: (ns ++ [c]))) (.compound .array [t]) {}
  | never {m : Lexeme} : isMark "!" m = true → TypeOver [m] (.compound .never []) {}
  | impl {w : Lexeme} {ls : List Lexeme} {bs : List (List TypeExpr)} {e : Ends} :
      isReserved "impl" w = true → Chain innermost .bounds (IsBound path) ls bs e →
      TypeOver (w :: ls) (.compound .impl bs.flatten) e
  | dyn {w : Lexeme} {ls : List Lexeme} {bs : List (List TypeExpr)} {e : Ends} :
      isReserved "dyn" w = true → Chain innermost .bounds (IsBound path) ls bs e →
      TypeOver (w :: ls) (.compound .dyn bs.flatten) e
  | function {hs ls ms : List Lexeme} {params result : List TypeExpr} {e e' : Ends} :
      FunctionHead hs → Listed (isOf (.closing .paren)) ty ls params e →
      Returned ty ms result e' →
      TypeOver (hs ++ (ls ++ ms)) (.compound .function (params ++ result)) e'

end Rules

mutual

/-- The lexemes of a path type. -/
inductive IsPath (innermost : Bool) : List Lexeme → TypeExpr → Ends → Prop
  | mk {ls : List Lexeme} {t : TypeExpr} {e : Ends} :
      PathOver innermost (IsPath innermost) (IsType innermost) ls t e → IsPath innermost ls t e

/-- The lexemes of a type. -/
inductive IsType (innermost : Bool) : List Lexeme → TypeExpr → Ends → Prop
  | mk {ls : List Lexeme} {t : TypeExpr} {e : Ends} :
      TypeOver innermost (IsPath innermost) (IsType innermost) ls t e → IsType innermost ls t e

end

/-! ## What the tests say -/

theorem isMark_iff {op : String} {l : Lexeme} :
    isMark op l = true ↔ l.cls = .punct ∧ l.text = op := by
  simp [isMark]

theorem isOf_iff {cls : LexemeClass} {l : Lexeme} : isOf cls l = true ↔ l.cls = cls := by
  simp [isOf]

theorem isReserved_iff {word : String} {l : Lexeme} :
    isReserved word l = true ↔ l.cls = .name ∧ l.text = word := by
  simp [isReserved]

theorem isFreeName_iff {l : Lexeme} :
    isFreeName l = true ↔ l.cls = .name ∧ l.text ∉ reserved := by
  simp [isFreeName]

namespace Ends

variable {e : Ends} {k : Link} {l : Lexeme}

theorem takes_of_isSep (h : k.isSep l = true) : e.takes l = e.goesOn k := by
  cases k with
  | path =>
    obtain ⟨hc, ht⟩ := isMark_iff.1 h
    simp [takes, goesOn, isMark, isOf, hc, ht]
  | bounds =>
    obtain ⟨hc, ht⟩ := isMark_iff.1 h
    simp [takes, goesOn, isMark, isOf, hc, ht]

theorem takes_opened : (e.opened k).takes l = (e.takes l || k.isSep l) := by
  cases k with
  | path => cases h : isMark "::" l <;> simp [takes, opened, Link.isSep, h]
  | bounds => cases h : isMark "+" l <;> simp [takes, opened, Link.isSep, h]

theorem goesOn_opened {k' : Link} :
    (e.opened k).goesOn k' = true ↔ k' = k ∨ e.goesOn k' = true := by
  cases k <;> cases k' <;> simp [opened, goesOn]

end Ends

/-! ## What a phrase begins with -/

section Heads

variable {innermost : Bool} {path ty : Phrase TypeExpr} {ls : List Lexeme} {e : Ends}

/-- Whether a lexeme begins a type. -/
def isTypeStart (l : Lexeme) : Bool :=
  isPathStart l || ["&", "&&", "*", "!"].any (isMark · l) || isOf (.opening .paren) l ||
    isOf (.opening .bracket) l ||
    ["impl", "dyn", "for", "unsafe", "extern", "fn"].any (isReserved · l)

theorem not_isPathStart_of_mark {op : String} {l : Lexeme} (hl : isMark op l = true)
    (hop : op ∉ ["::", "<"]) : isPathStart l = false := by
  obtain ⟨hc, ht⟩ := isMark_iff.1 hl
  simp only [List.mem_cons, List.not_mem_nil, or_false, not_or] at hop
  simp [isPathStart, isFreeName, isMark, hc, ht, hop]

theorem not_isPathStart_of_opening {d : Delimiter} {l : Lexeme} (hl : isOf (.opening d) l = true) :
    isPathStart l = false := by
  have hc := isOf_iff.1 hl
  simp [isPathStart, isFreeName, isMark, hc]

theorem not_isPathStart_of_reserved {word : String} {l : Lexeme} (hl : isReserved word l = true)
    (hw : word ∈ reserved) : isPathStart l = false := by
  obtain ⟨hc, ht⟩ := isReserved_iff.1 hl
  simp [isPathStart, isFreeName, isMark, hc, ht, hw]

theorem IsSegment.head {a : PathSegment} (h : IsSegment ty ls a e) :
    ∃ l ms, ls = l :: ms ∧ isFreeName l = true := by
  cases h with
  | plain hl => exact ⟨_, _, rfl, hl⟩
  | generic hl => exact ⟨_, _, rfl, hl⟩
  | callable hl => exact ⟨_, _, rfl, hl⟩

theorem Chain.head {k : Link} {item : Phrase α} {test : Lexeme → Bool} {as : List α}
    (hitem : ∀ ls a e, item ls a e → ∃ l ms, ls = l :: ms ∧ test l = true)
    (h : Chain innermost k item ls as e) : ∃ l ms, ls = l :: ms ∧ test l = true := by
  obtain ⟨ha, -⟩ := h
  obtain ⟨l, ms, rfl, hl⟩ := hitem _ _ _ ha
  exact ⟨l, _, rfl, hl⟩

theorem PathOver.head {t : TypeExpr} (h : PathOver innermost path ty ls t e) :
    ∃ l ms, ls = l :: ms ∧ isPathStart l = true := by
  cases h with
  | relative hs =>
    obtain ⟨l, ms, rfl, hl⟩ := hs.head fun _ _ _ => IsSegment.head
    exact ⟨l, ms, rfl, by simp [isPathStart, hl]⟩
  | absolute hm => exact ⟨_, _, rfl, by simp [isPathStart, hm]⟩
  | qualified ho => exact ⟨_, _, rfl, by simp [isPathStart, ho]⟩

theorem Binder.head (h : Binder ls) : ∃ l ms, ls = l :: ms ∧ isReserved "for" l = true := by
  obtain ⟨f, o, ms, as, e, rfl, hf, -⟩ := h
  exact ⟨f, _, rfl, hf⟩

theorem FunctionHead.head (h : FunctionHead ls) :
    ∃ l ms, ls = l :: ms ∧ ["for", "unsafe", "extern", "fn"].any (isReserved · l) = true := by
  obtain ⟨bs, us, xs, f, o, rfl, hb, hu, hx, hf, -⟩ := h
  rcases hb with rfl | hb
  · rcases hu with rfl | ⟨l, rfl, hl⟩
    · rcases hx with rfl | ⟨l, ms, rfl, hl, -⟩
      · exact ⟨f, _, rfl, by simp [hf]⟩
      · exact ⟨l, _, rfl, by simp [hl]⟩
    · exact ⟨l, _, rfl, by simp [hl]⟩
  · obtain ⟨l, ms, rfl, hl⟩ := hb.head
    exact ⟨l, _, rfl, by simp [hl]⟩

theorem FunctionHead.length_pos (h : FunctionHead ls) : 0 < ls.length := by
  obtain ⟨l, ms, rfl, -⟩ := h.head
  exact Nat.succ_pos _

/-- Only a path begins like a path. -/
theorem TypeOver.head {t : TypeExpr} (h : TypeOver innermost path ty ls t e) :
    ∃ l ms, ls = l :: ms ∧ isTypeStart l = true ∧
      (isPathStart l = true → PathOver innermost path ty ls t e) := by
  cases h with
  | path hp =>
    obtain ⟨l, ms, rfl, hl⟩ := hp.head
    exact ⟨l, ms, rfl, by simp [isTypeStart, hl], fun _ => hp⟩
  | reference hm =>
    refine ⟨_, _, rfl, ?_, ?_⟩
    · rcases Bool.or_eq_true_iff.1 hm with h | h <;> simp [isTypeStart, h]
    · rcases Bool.or_eq_true_iff.1 hm with h | h <;> simp [not_isPathStart_of_mark h (by decide)]
  | pointer hm =>
    exact ⟨_, _, rfl, by simp [isTypeStart, hm], by simp [not_isPathStart_of_mark hm (by decide)]⟩
  | tuple ho => exact ⟨_, _, rfl, by simp [isTypeStart, ho], by simp [not_isPathStart_of_opening ho]⟩
  | slice ho => exact ⟨_, _, rfl, by simp [isTypeStart, ho], by simp [not_isPathStart_of_opening ho]⟩
  | array ho => exact ⟨_, _, rfl, by simp [isTypeStart, ho], by simp [not_isPathStart_of_opening ho]⟩
  | never hm =>
    exact ⟨_, _, rfl, by simp [isTypeStart, hm], by simp [not_isPathStart_of_mark hm (by decide)]⟩
  | impl hw =>
    exact ⟨_, _, rfl, by simp [isTypeStart, hw], by simp [not_isPathStart_of_reserved hw (by decide)]⟩
  | dyn hw =>
    exact ⟨_, _, rfl, by simp [isTypeStart, hw], by simp [not_isPathStart_of_reserved hw (by decide)]⟩
  | function hh =>
    obtain ⟨l, ms, rfl, hl⟩ := hh.head
    simp only [List.any_cons, List.any_nil, Bool.or_false, Bool.or_eq_true] at hl
    refine ⟨l, _, rfl, ?_, ?_⟩
    · rcases hl with h | h | h | h <;> simp [isTypeStart, h]
    · rcases hl with h | h | h | h <;> simp [not_isPathStart_of_reserved h (by decide)]

/-- A type that begins with a name goes on as a path does. -/
theorem TypeOver.second {t : TypeExpr} {l : Lexeme} {ms : List Lexeme}
    (h : TypeOver innermost path ty (l :: ms) t e) (hl : isFreeName l = true) :
    ms.head?.any (isMark "=") = false := by
  obtain ⟨_, _, heq, -, hpath⟩ := h.head
  obtain ⟨rfl, rfl⟩ := List.cons.inj heq
  have hc := (isFreeName_iff.1 hl).1
  generalize hls : l :: ms = ls at hpath
  cases hpath (by simp [isPathStart, hl]) with
  | relative hs =>
    obtain ⟨hseg, htail⟩ := hs
    cases hseg with
    | plain =>
      obtain ⟨-, rfl⟩ := List.cons.inj hls
      cases htail with
      | nil => rfl
      | cons hsep => simp [isMark, (isMark_iff.1 hsep).2]
    | generic _ ho =>
      obtain ⟨-, rfl⟩ := List.cons.inj hls
      simp [isMark, (isMark_iff.1 ho).2]
    | callable _ ho =>
      obtain ⟨-, rfl⟩ := List.cons.inj hls
      simp [isMark, isOf_iff.1 ho]
  | absolute hm =>
    obtain ⟨rfl, -⟩ := List.cons.inj hls
    simp [isMark, hc] at hm
  | qualified ho =>
    obtain ⟨rfl, -⟩ := List.cons.inj hls
    simp [isMark, hc] at ho

end Heads

/-! ## Derivations over the same lexemes -/

/-- Shorter phrases of one kind are phrases of another, with the same value and end if `same`. -/
def Recast (same : Prop) (n : Nat) (p p' : Phrase α) : Prop :=
  ∀ ls a e, ls.length < n → p ls a e → ∃ a' e', p' ls a' e' ∧ (same → a' = a ∧ e' = e)

section Recasting

variable {same : Prop} {n : Nat} {p p' : Phrase α} {close : Lexeme → Bool}

theorem ListTail.recast (h : Recast same n p p') :
    Recast same n (ListTail close p) (ListTail close p') := by
  intro ls as e hn ht
  induction ht with
  | close hc => exact ⟨_, _, .close hc, fun _ => ⟨rfl, rfl⟩⟩
  | trailing hx hc => exact ⟨_, _, .trailing hx hc, fun _ => ⟨rfl, rfl⟩⟩
  | cons hx ha _ ih =>
    simp only [List.length_cons, List.length_append] at hn
    obtain ⟨a', ea, ha', hsame⟩ := h _ _ _ (by omega) ha
    obtain ⟨as', e', ht', hsame'⟩ := ih (by omega)
    exact ⟨_, _, .cons hx ha' ht', fun hs =>
      ⟨by rw [(hsame hs).1, (hsame' hs).1], (hsame' hs).2⟩⟩

theorem Listed.recast (h : Recast same n p p') :
    Recast same n (Listed close p) (Listed close p') := by
  intro ls as e hn hl
  cases hl with
  | nil hc => exact ⟨_, _, .nil hc, fun _ => ⟨rfl, rfl⟩⟩
  | some hi =>
    obtain ⟨ha, ht⟩ := hi
    simp only [List.length_append] at hn
    obtain ⟨a', ea, ha', hsame⟩ := h _ _ _ (by omega) ha
    obtain ⟨as', e', ht', hsame'⟩ := ListTail.recast h _ _ _ (by omega) ht
    exact ⟨_, _, .some (.mk ha' ht'), fun hs =>
      ⟨by rw [(hsame hs).1, (hsame' hs).1], (hsame' hs).2⟩⟩

/-- A chain is kept item by item; to stay innermost its items have to end as before. -/
theorem Chain.recast {g g' : Bool} {k : Link} (h : Recast same n p p')
    (hg : g' = true → g = true ∧ same) :
    Recast same n (Chain g k p) (Chain g' k p') := by
  have htail {e₁ e₁' : Ends} {ls : List Lexeme} {as : List α} {e : Ends} (he : same → e₁' = e₁)
      (hn : ls.length < n) (ht : ChainTail g k p e₁ ls as e) :
      ∃ as' e', ChainTail g' k p' e₁' ls as' e' ∧ (same → as' = as ∧ e' = e) := by
    induction ht generalizing e₁' with
    | nil => exact ⟨_, _, .nil, fun hs => ⟨rfl, by rw [he hs]⟩⟩
    | cons hsep hcut ha _ ih =>
      simp only [List.length_cons, List.length_append] at hn
      obtain ⟨a', ea, ha', hsame⟩ := h _ _ _ (by omega) ha
      obtain ⟨as', e', ht', hsame'⟩ := ih (fun hs => (hsame hs).2) (by omega)
      refine ⟨_, _, .cons hsep ?_ ha' ht', fun hs =>
        ⟨by rw [(hsame hs).1, (hsame' hs).1], (hsame' hs).2⟩⟩
      intro hg'
      rw [he (hg hg').2]
      exact hcut (hg hg').1
  rintro _ _ e hn ⟨ha, ht⟩
  simp only [List.length_append] at hn
  obtain ⟨a', ea, ha', hsame⟩ := h _ _ _ (by omega) ha
  obtain ⟨as', e', ht', hsame'⟩ := htail (fun hs => (hsame hs).2) (by omega) ht
  exact ⟨_, _, .mk ha' ht', fun hs => ⟨by rw [(hsame hs).1, (hsame' hs).1], (hsame' hs).2⟩⟩

variable {g g' : Bool} {path path' ty ty' : Phrase TypeExpr}

theorem Returned.recast (h : Recast same n ty ty') :
    Recast same n (Returned ty) (Returned ty') := by
  intro ls ts e hn hr
  cases hr with
  | none => exact ⟨_, _, .none, fun _ => ⟨rfl, rfl⟩⟩
  | some hm ht =>
    rw [List.length_cons] at hn
    obtain ⟨t', e', ht', hsame⟩ := h _ _ _ (by omega) ht
    exact ⟨_, _, .some hm ht', fun hs => ⟨by rw [(hsame hs).1], (hsame hs).2⟩⟩

theorem IsArg.recast (h : Recast same n ty ty') : Recast same n (IsArg ty) (IsArg ty') := by
  intro ls a e hn ha
  cases ha with
  | type ht =>
    obtain ⟨t', e', ht', hsame⟩ := h _ _ _ hn ht
    exact ⟨_, _, .type ht', fun hs => by rw [(hsame hs).1, (hsame hs).2]; exact ⟨rfl, rfl⟩⟩
  | lifetime hl => exact ⟨_, _, .lifetime hl, fun _ => ⟨rfl, rfl⟩⟩
  | binding hl hm ht =>
    simp only [List.length_cons] at hn
    obtain ⟨t', e', ht', hsame⟩ := h _ _ _ (by omega) ht
    exact ⟨_, _, .binding hl hm ht', fun hs => ⟨by rw [(hsame hs).1], (hsame hs).2⟩⟩
  | literal hl => exact ⟨_, _, .literal hl, fun _ => ⟨rfl, rfl⟩⟩
  | negative hm hl => exact ⟨_, _, .negative hm hl, fun _ => ⟨rfl, rfl⟩⟩
  | braced ho hr hc => exact ⟨_, _, .braced ho hr hc, fun _ => ⟨rfl, rfl⟩⟩

theorem IsSegment.recast (h : Recast same n ty ty') :
    Recast same (n + 1) (IsSegment ty) (IsSegment ty') := by
  intro ls a e hn hseg
  cases hseg with
  | plain hl => exact ⟨_, _, .plain hl, fun _ => ⟨rfl, rfl⟩⟩
  | generic hl ho hargs =>
    simp only [List.length_cons] at hn
    obtain ⟨args', e', hargs', hsame⟩ := Listed.recast (IsArg.recast h) _ _ _ (by omega) hargs
    exact ⟨_, _, .generic hl ho hargs', fun hs => ⟨by rw [(hsame hs).1], (hsame hs).2⟩⟩
  | callable hl ho hparams hresult =>
    simp only [List.length_cons, List.length_append] at hn
    obtain ⟨params', _, hparams', -⟩ := Listed.recast h _ _ _ (by omega) hparams
    obtain ⟨result', e', hresult', hsame⟩ := Returned.recast h _ _ _ (by omega) hresult
    exact ⟨_, _, .callable hl ho hparams' hresult', fun hs => ⟨rfl, (hsame hs).2⟩⟩

theorem SelfType.recast (hpath : Recast same n path path') (hty : Recast same n ty ty') :
    Recast same n (SelfType path ty) (SelfType path' ty') := by
  intro ls t e hn hself
  cases hself with
  | plain ht hc =>
    simp only [List.length_append] at hn
    obtain ⟨t', _, ht', hsame⟩ := hty _ _ _ (by omega) ht
    exact ⟨_, _, .plain ht' hc, fun hs => ⟨(hsame hs).1, rfl⟩⟩
  | ofTrait ht hm htrait hc =>
    simp only [List.length_append, List.length_cons] at hn
    obtain ⟨t', _, ht', hsame⟩ := hty _ _ _ (by omega) ht
    obtain ⟨trait', _, htrait', -⟩ := hpath _ _ _ (by omega) htrait
    exact ⟨_, _, .ofTrait ht' hm htrait' hc, fun hs => ⟨(hsame hs).1, rfl⟩⟩

theorem PathOver.recast (hpath : Recast same n path path') (hty : Recast same n ty ty')
    (hsegs : Recast same (n + 1) (Chain g .path (IsSegment ty)) (Chain g' .path (IsSegment ty'))) :
    Recast same (n + 1) (PathOver g path ty) (PathOver g' path' ty') := by
  intro ls t e hn hp
  cases hp with
  | relative hs =>
    obtain ⟨segments', e', hs', hsame⟩ := hsegs _ _ _ hn hs
    exact ⟨_, _, .relative hs', fun hs => ⟨by rw [(hsame hs).1], (hsame hs).2⟩⟩
  | absolute hm hs =>
    rw [List.length_cons] at hn
    obtain ⟨segments', e', hs', hsame⟩ := hsegs _ _ _ (by omega) hs
    exact ⟨_, _, .absolute hm hs', fun hs => ⟨by rw [(hsame hs).1], (hsame hs).2⟩⟩
  | qualified ho hself hm hs =>
    simp only [List.length_cons, List.length_append] at hn
    obtain ⟨self', _, hself', hsame⟩ := SelfType.recast hpath hty _ _ _ (by omega) hself
    obtain ⟨segments', e', hs', hsame'⟩ := hsegs _ _ _ (by omega) hs
    exact ⟨_, _, .qualified ho hself' hm hs', fun hs =>
      ⟨by rw [(hsame hs).1, (hsame' hs).1], (hsame' hs).2⟩⟩

theorem IsBound.recast (h : Recast same n path path') :
    Recast same n (IsBound path) (IsBound path') := by
  intro ls ts e hn hb
  cases hb with
  | plain hp =>
    obtain ⟨t', e', hp', hsame⟩ := h _ _ _ hn hp
    exact ⟨_, _, .plain hp', fun hs => ⟨by rw [(hsame hs).1], (hsame hs).2⟩⟩
  | lifetime hl => exact ⟨_, _, .lifetime hl, fun _ => ⟨rfl, rfl⟩⟩
  | relaxed hm hp =>
    rw [List.length_cons] at hn
    obtain ⟨t', e', hp', hsame⟩ := h _ _ _ (by omega) hp
    exact ⟨_, _, .relaxed hm hp', fun hs => ⟨by rw [(hsame hs).1], (hsame hs).2⟩⟩
  | bound hbs hp =>
    rw [List.length_append] at hn
    obtain ⟨t', e', hp', hsame⟩ := h _ _ _ (by omega) hp
    exact ⟨_, _, .bound hbs hp', fun hs => ⟨by rw [(hsame hs).1], (hsame hs).2⟩⟩

theorem TypeOver.recast (hpath : Recast same n path path') (hty : Recast same n ty ty')
    (hsegs : Recast same (n + 1) (Chain g .path (IsSegment ty)) (Chain g' .path (IsSegment ty')))
    (hbounds : Recast same n (Chain g .bounds (IsBound path)) (Chain g' .bounds (IsBound path'))) :
    Recast same (n + 1) (TypeOver g path ty) (TypeOver g' path' ty') := by
  intro ls t e hn h
  cases h with
  | path hp =>
    obtain ⟨t', e', hp', hsame⟩ := PathOver.recast hpath hty hsegs _ _ _ hn hp
    exact ⟨_, _, .path hp', hsame⟩
  | reference hm ha hu ht =>
    simp only [List.length_cons, List.length_append] at hn
    obtain ⟨t', e', ht', hsame⟩ := hty _ _ _ (by omega) ht
    exact ⟨_, _, .reference hm ha hu ht', fun hs => ⟨by rw [(hsame hs).1], (hsame hs).2⟩⟩
  | pointer hm hk ht =>
    simp only [List.length_cons] at hn
    obtain ⟨t', e', ht', hsame⟩ := hty _ _ _ (by omega) ht
    exact ⟨_, _, .pointer hm hk ht', fun hs => ⟨by rw [(hsame hs).1], (hsame hs).2⟩⟩
  | tuple ho hparts =>
    rw [List.length_cons] at hn
    obtain ⟨parts', e', hparts', hsame⟩ := Listed.recast hty _ _ _ (by omega) hparts
    exact ⟨_, _, .tuple ho hparts', fun hs => ⟨by rw [(hsame hs).1], (hsame hs).2⟩⟩
  | slice ho ht hc =>
    simp only [List.length_cons, List.length_append] at hn
    obtain ⟨t', _, ht', hsame⟩ := hty _ _ _ (by omega) ht
    exact ⟨_, _, .slice ho ht' hc, fun hs => ⟨by rw [(hsame hs).1], rfl⟩⟩
  | array ho ht hm hne hlen hc =>
    simp only [List.length_cons, List.length_append] at hn
    obtain ⟨t', _, ht', hsame⟩ := hty _ _ _ (by omega) ht
    exact ⟨_, _, .array ho ht' hm hne hlen hc, fun hs => ⟨by rw [(hsame hs).1], rfl⟩⟩
  | never hm => exact ⟨_, _, .never hm, fun _ => ⟨rfl, rfl⟩⟩
  | impl hw hbs =>
    rw [List.length_cons] at hn
    obtain ⟨bs', e', hbs', hsame⟩ := hbounds _ _ _ (by omega) hbs
    exact ⟨_, _, .impl hw hbs', fun hs => ⟨by rw [(hsame hs).1], (hsame hs).2⟩⟩
  | dyn hw hbs =>
    rw [List.length_cons] at hn
    obtain ⟨bs', e', hbs', hsame⟩ := hbounds _ _ _ (by omega) hbs
    exact ⟨_, _, .dyn hw hbs', fun hs => ⟨by rw [(hsame hs).1], (hsame hs).2⟩⟩
  | function hh hparams hresult =>
    have hpos := hh.length_pos
    simp only [List.length_append] at hn
    obtain ⟨params', _, hparams', hsame⟩ := Listed.recast hty _ _ _ (by omega) hparams
    obtain ⟨result', e', hresult', hsame'⟩ := Returned.recast hty _ _ _ (by omega) hresult
    exact ⟨_, _, .function hh hparams' hresult', fun hs =>
      ⟨by rw [(hsame hs).1, (hsame' hs).1], (hsame' hs).2⟩⟩

/-- Innermost derivations stay innermost if the phrases inside keep their values and ends. -/
theorem recast_over (hpath : Recast True n path path') (hty : Recast True n ty ty') :
    Recast True (n + 1) (PathOver true path ty) (PathOver true path' ty') ∧
      Recast True (n + 1) (TypeOver true path ty) (TypeOver true path' ty') := by
  have hsegs : Recast True (n + 1) (Chain true .path (IsSegment ty))
      (Chain true .path (IsSegment ty')) :=
    Chain.recast (IsSegment.recast hty) fun h => ⟨h, trivial⟩
  have hbounds : Recast True n (Chain true .bounds (IsBound path))
      (Chain true .bounds (IsBound path')) :=
    Chain.recast (IsBound.recast hpath) fun h => ⟨h, trivial⟩
  exact ⟨PathOver.recast hpath hty hsegs, TypeOver.recast hpath hty hsegs hbounds⟩

end Recasting

end TypeExpr

end InlineVariants
