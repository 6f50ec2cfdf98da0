import InlineVariants.Proofs.TypeGrammar

/-!
# Readers that take exactly a phrase

A reader is exact for a kind of phrase (`Exact`) if it takes from the front of the lexemes exactly a
phrase of that kind which would not take the lexeme behind it as well. The readers of lists, of chains
and of runs of tokens are exact for their rules if the readers of their items are.

In a list an item is followed by a comma or by the closing lexeme, and no phrase takes those
(`Inert`). In a chain an item may be followed by a separator that it would take itself; the reader of
the item has then taken it already, which is what makes the derivation of a chain innermost.
-/

namespace InlineVariants

namespace TypeExpr

/-! ## Readers step by step -/

section Steps

variable {test : Lexeme → Bool} {ls rest : List Lexeme}

theorem pure_eq_ok {a b : α} : (pure a : Reader α) ls = .ok (b, rest) ↔ a = b ∧ ls = rest := by
  change Except.ok (a, ls) = _ ↔ _
  simp

theorem bind_eq_ok {r : Reader α} {f : α → Reader β} {b : β} :
    (r >>= f) ls = .ok (b, rest) ↔ ∃ a mid, r ls = .ok (a, mid) ∧ f a mid = .ok (b, rest) := by
  change (r ls).bind (fun p => f p.1 p.2) = _ ↔ _
  cases r ls with
  | error e => simp [Except.bind]
  | ok p =>
    constructor
    · intro h
      exact ⟨p.1, p.2, rfl, h⟩
    · rintro ⟨a, mid, heq, h⟩
      obtain rfl := Except.ok.inj heq
      exact h

theorem expect_eq_ok {l : Lexeme} :
    expect test ls = .ok (l, rest) ↔ test l = true ∧ ls = l :: rest := by
  cases ls with
  | nil => simp [expect]
  | cons x xs =>
    by_cases hx : test x = true
    · simp only [expect, hx, if_true, Except.ok.injEq, Prod.mk.injEq, List.cons.injEq]
      constructor
      · rintro ⟨rfl, rfl⟩
        exact ⟨hx, rfl, rfl⟩
      · rintro ⟨-, rfl, rfl⟩
        exact ⟨rfl, rfl⟩
    · simp only [expect, hx, if_false, reduceCtorEq, false_iff, not_and]
      rintro hl h
      obtain ⟨rfl, -⟩ := List.cons.inj h
      exact hx hl

/-- Either the next lexeme is taken, or it is not there or fails the test and all stays. -/
theorem accept?_bind_eq_ok {f : Option Lexeme → Reader α} {a : α} :
    (accept? test >>= f) ls = .ok (a, rest) ↔
      (∃ l ms, ls = l :: ms ∧ test l = true ∧ f (some l) ms = .ok (a, rest)) ∨
        (ls.head?.any test = false ∧ f none ls = .ok (a, rest)) := by
  change (accept? test ls).bind (fun p => f p.1 p.2) = _ ↔ _
  cases ls with
  | nil => simp [accept?, Except.bind]
  | cons x xs =>
    by_cases hx : test x = true
    · simp only [accept?, hx, if_true, Except.bind, List.head?_cons, Option.any_some,
        Bool.true_eq_false, false_and, or_false]
      constructor
      · intro h
        exact ⟨x, xs, rfl, hx, h⟩
      · rintro ⟨l, ms, heq, -, h⟩
        obtain ⟨rfl, rfl⟩ := List.cons.inj heq
        exact h
    · simp only [accept?, hx, Except.bind, List.head?_cons, Option.any_some]
      constructor
      · intro h
        exact .inr ⟨trivial, h⟩
      · rintro (⟨l, ms, heq, hl, -⟩ | ⟨-, h⟩)
        · obtain ⟨rfl, rfl⟩ := List.cons.inj heq
          exact absurd hl hx
        · exact h

theorem accept_bind_eq_ok {f : Bool → Reader α} {a : α} :
    (accept test >>= f) ls = .ok (a, rest) ↔
      (∃ l ms, ls = l :: ms ∧ test l = true ∧ f true ms = .ok (a, rest)) ∨
        (ls.head?.any test = false ∧ f false ls = .ok (a, rest)) := by
  rw [accept, bind_assoc, accept?_bind_eq_ok]
  simp

theorem ite_accept_eq_ok {r r' : Reader α} {a : α} :
    (do if ← accept test then r else r' : Reader α) ls = .ok (a, rest) ↔
      (∃ l ms, ls = l :: ms ∧ test l = true ∧ r ms = .ok (a, rest)) ∨
        (ls.head?.any test = false ∧ r' ls = .ok (a, rest)) :=
  accept_bind_eq_ok

theorem ite_nextIs_cons {r r' : Reader α} {l : Lexeme} :
    (do if ← nextIs test then r else r' : Reader α) (l :: ls) =
      if test l then r (l :: ls) else r' (l :: ls) := by
  change (if test l = true then r else r') (l :: ls) = _
  split <;> rfl

theorem ite_accept_cons {r r' : Reader α} {l : Lexeme} :
    (do if ← accept test then r else r' : Reader α) (l :: ls) =
      if test l then r ls else r' (l :: ls) := by
  have haccept : accept test (l :: ls) = .ok (test l, if test l then ls else l :: ls) := by
    change (accept? test (l :: ls)).bind (fun p => .ok (p.1.isSome, p.2)) = _
    by_cases hl : test l = true <;> simp [accept?, hl, Except.bind]
  change (accept test (l :: ls)).bind (fun p => (if p.1 = true then r else r') p.2) = _
  rw [haccept]
  by_cases hl : test l = true <;> simp [hl, Except.bind]

/-- A lexeme that may be there is taken if it is. -/
theorem accept_then_eq_ok {r : Reader α} {a : α} :
    (accept test >>= fun _ => r) ls = .ok (a, rest) ↔
      ∃ ms ns, ls = ms ++ ns ∧ Maybe (One test) ms ∧ (ms = [] → ns.head?.any test = false) ∧
        r ns = .ok (a, rest) := by
  rw [accept_bind_eq_ok]
  constructor
  · rintro (⟨l, ms, rfl, hl, h⟩ | ⟨hno, h⟩)
    · exact ⟨[l], ms, rfl, .inr ⟨l, rfl, hl⟩, by simp, h⟩
    · exact ⟨[], ls, rfl, .inl rfl, fun _ => hno, h⟩
  · rintro ⟨ms, ns, rfl, rfl | ⟨l, rfl, hl⟩, hno, h⟩
    · exact .inr ⟨hno rfl, h⟩
    · exact .inl ⟨l, ns, rfl, hl, h⟩

theorem ite_binding_eq_ok {r r' : Reader α} {a : α} :
    (do if ← nextIsBinding then r else r' : Reader α) ls = .ok (a, rest) ↔
      (∃ l m ms, ls = l :: m :: ms ∧ isFreeName l = true ∧ isMark "=" m = true ∧
        r ls = .ok (a, rest)) ∨
        ((∀ l m ms, ls = l :: m :: ms → isFreeName l = true → isMark "=" m = false) ∧
          r' ls = .ok (a, rest)) := by
  match ls with
  | [] =>
    change r' [] = _ ↔ _
    simp
  | [l] =>
    change r' [l] = _ ↔ _
    simp
  | l :: m :: ms =>
    change (if (isFreeName l && isMark "=" m) = true then r else r') _ = _ ↔ _
    by_cases hb : (isFreeName l && isMark "=" m) = true
    · obtain ⟨hl, hm⟩ := Bool.and_eq_true_iff.1 hb
      rw [if_pos hb]
      constructor
      · intro h
        exact .inl ⟨l, m, ms, rfl, hl, hm, h⟩
      · rintro (⟨_, _, _, -, -, -, h⟩ | ⟨hno, -⟩)
        · exact h
        · simp [hno l m ms rfl hl] at hm
    · have hno : isFreeName l = true → isMark "=" m = false := by simpa using hb
      rw [if_neg hb]
      constructor
      · intro h
        refine .inr ⟨fun l' m' ms' heq => ?_, h⟩
        obtain ⟨rfl, rfl, rfl⟩ : l = l' ∧ m = m' ∧ ms = ms' := by simpa using heq
        exact hno
      · rintro (⟨l', m', ms', heq, hl, hm, -⟩ | ⟨-, h⟩)
        · obtain ⟨rfl, rfl, rfl⟩ : l = l' ∧ m = m' ∧ ms = ms' := by simpa using heq
          simp [hno hl] at hm
        · exact h

end Steps

/-! ## Exact readers -/

/-- The lexeme behind a phrase, if there is one, is none that the phrase would take. -/
def Ends.Closed (e : Ends) (rest : List Lexeme) : Prop := rest.head?.any e.takes = false

/-- A reader takes exactly the phrases of a kind that could not go on. -/
def Exact (r : Reader α) (p : Phrase α) : Prop :=
  ∀ ls a rest, r ls = .ok (a, rest) ↔ ∃ ms e, ls = ms ++ rest ∧ p ms a e ∧ e.Closed rest

theorem Exact.ok {r : Reader α} {p : Phrase α} (h : Exact r p) {ms rest : List Lexeme} {a : α}
    {e : Ends} (hp : p ms a e) (hc : e.Closed rest) : r (ms ++ rest) = .ok (a, rest) :=
  (h _ _ _).2 ⟨ms, e, rfl, hp, hc⟩

/-- No phrase would take the lexeme. -/
def Inert (l : Lexeme) : Prop := ∀ e : Ends, e.takes l = false

section Ends

variable {e : Ends} {l : Lexeme} {rest : List Lexeme}

theorem Inert.of_mark {op : String} (h : isMark op l = true)
    (hop : op ∉ ["<", "->", "=", "::", "+"]) : Inert l := by
  obtain ⟨hc, ht⟩ := isMark_iff.1 h
  simp only [List.mem_cons, List.not_mem_nil, or_false, not_or] at hop
  intro e
  simp [Ends.takes, isMark, isOf, hc, ht, hop]

theorem Inert.of_closing {d : Delimiter} (h : isOf (.closing d) l = true) : Inert l := by
  have hc := isOf_iff.1 h
  intro e
  simp [Ends.takes, isMark, isOf, hc]

theorem Inert.of_reserved {word : String} (h : isReserved word l = true) : Inert l := by
  obtain ⟨hc, -⟩ := isReserved_iff.1 h
  intro e
  simp [Ends.takes, isMark, isOf, hc]

theorem Inert.closed (h : Inert l) : e.Closed (l :: rest) := h e

theorem closed_default : Ends.Closed {} rest := by
  cases rest <;> simp [Ends.Closed, Ends.takes]

theorem closed_arrow :
    Ends.Closed { arrow := true } rest ↔ rest.head?.any (isMark "->") = false := by
  cases rest <;> simp [Ends.Closed, Ends.takes]

theorem closed_args :
    Ends.Closed { args := true } rest ↔
      rest.head?.any (isMark "<") = false ∧
        rest.head?.any (isOf (.opening .paren)) = false := by
  cases rest <;> simp [Ends.Closed, Ends.takes]

theorem closed_bare {ls : List Lexeme} :
    Ends.Closed { e with binding := e.binding || isBareName ls } rest ↔
      e.Closed rest ∧ (isBareName ls = true → rest.head?.any (isMark "=") = false) := by
  cases rest with
  | nil => simp [Ends.Closed]
  | cons l rest =>
    cases hb : isBareName ls <;> cases hm : isMark "=" l <;> simp [Ends.Closed, Ends.takes, hm]

theorem closed_opened {k : Link} :
    (e.opened k).Closed rest ↔ e.Closed rest ∧ rest.head?.any k.isSep = false := by
  cases rest <;> simp [Ends.Closed, Ends.takes_opened]

end Ends

theorem expect_exact {test : Lexeme → Bool} :
    Exact (expect test) fun ls l e => ls = [l] ∧ test l = true ∧ e = {} := by
  intro ls l rest
  rw [expect_eq_ok]
  constructor
  · rintro ⟨hl, rfl⟩
    exact ⟨[l], {}, rfl, ⟨rfl, hl, rfl⟩, closed_default⟩
  · rintro ⟨ms, e, rfl, ⟨rfl, hl, -⟩, -⟩
    exact ⟨hl, rfl⟩

/-! ## Lists -/

section Lists

variable {close : Lexeme → Bool} {item : Reader α} {p : Phrase α}

/-- The closing lexeme of a list is told apart from the comma and from what begins an item, and no
item would take it. -/
structure Closes (close : Lexeme → Bool) (p : Phrase α) : Prop where
  inert : ∀ c, close c = true → Inert c
  comma : ∀ x, isMark "," x = true → close x = false
  head : ∀ ls a e, p ls a e → ∃ l ms, ls = l :: ms ∧ close l = false

theorem Inert.comma {x : Lexeme} (hx : isMark "," x = true) : Inert x := .of_mark hx (by decide)

theorem ListTail.head (h : Closes close p) {ls : List Lexeme} {as : List α} {e : Ends}
    (ht : ListTail close p ls as e) : ∃ l ms, ls = l :: ms ∧ Inert l := by
  cases ht with
  | close hc => exact ⟨_, _, rfl, h.inert _ hc⟩
  | trailing hx => exact ⟨_, _, rfl, .comma hx⟩
  | cons hx => exact ⟨_, _, rfl, .comma hx⟩

theorem ListTail.closed (h : Closes close p) {ls rest : List Lexeme} {as : List α} {e e' : Ends}
    (ht : ListTail close p ls as e) : e'.Closed (ls ++ rest) := by
  obtain ⟨l, ms, rfl, hl⟩ := ht.head h
  exact hl.closed

theorem listTail_sound (hitem : Exact item p) {n : Nat} {ls rest : List Lexeme} {as : List α}
    (h : listTail close item n ls = .ok (as, rest)) :
    ∃ ms, ls = ms ++ rest ∧ ListTail close p ms as {} := by
  induction n generalizing ls as with
  | zero => cases h
  | succ n ih =>
    rw [listTail, ite_accept_eq_ok] at h
    rcases h with ⟨c, ms, rfl, hc, h⟩ | ⟨-, h⟩
    · obtain ⟨rfl, rfl⟩ := pure_eq_ok.1 h
      exact ⟨[c], rfl, .close hc⟩
    · obtain ⟨x, ms, hcomma, h₁⟩ := bind_eq_ok.1 h
      obtain ⟨hx, rfl⟩ := expect_eq_ok.1 hcomma
      rcases ite_accept_eq_ok.1 h₁ with ⟨c, ms, rfl, hc, h₂⟩ | ⟨-, h₂⟩
      · obtain ⟨rfl, rfl⟩ := pure_eq_ok.1 h₂
        exact ⟨[x, c], rfl, .trailing hx hc⟩
      · obtain ⟨a, mid, ha, h₃⟩ := bind_eq_ok.1 h₂
        obtain ⟨as', mid', htail, h₄⟩ := bind_eq_ok.1 h₃
        obtain ⟨rfl, rfl⟩ := pure_eq_ok.1 h₄
        obtain ⟨ms₁, e, rfl, ha', -⟩ := (hitem _ _ _).1 ha
        obtain ⟨ms₂, rfl, ht⟩ := ih htail
        exact ⟨x :: (ms₁ ++ ms₂), by simp, .cons hx ha' ht⟩

theorem listTail_complete (hitem : Exact item p) (hclose : Closes close p) {n : Nat}
    {ms rest : List Lexeme} {as : List α} {e : Ends} (h : ListTail close p ms as e)
    (hn : ms.length ≤ n) : listTail close item n (ms ++ rest) = .ok (as, rest) := by
  induction h generalizing n with
  | close hc =>
    obtain ⟨n, rfl⟩ : ∃ m, n = m + 1 := ⟨n - 1, by simp at hn; omega⟩
    rw [listTail, ite_accept_eq_ok]
    exact .inl ⟨_, _, rfl, hc, rfl⟩
  | trailing hx hc =>
    obtain ⟨n, rfl⟩ : ∃ m, n = m + 1 := ⟨n - 1, by simp at hn; omega⟩
    rw [listTail, ite_accept_eq_ok]
    refine .inr ⟨hclose.comma _ hx, ?_⟩
    refine bind_eq_ok.2 ⟨_, _, expect_eq_ok.2 ⟨hx, rfl⟩, ?_⟩
    exact ite_accept_eq_ok.2 (.inl ⟨_, _, rfl, hc, rfl⟩)
  | cons hx ha ht ih =>
    simp only [List.length_cons, List.length_append] at hn
    obtain ⟨n, rfl⟩ : ∃ m, n = m + 1 := ⟨n - 1, by omega⟩
    rw [listTail, ite_accept_eq_ok]
    refine .inr ⟨hclose.comma _ hx, ?_⟩
    refine bind_eq_ok.2 ⟨_, _, expect_eq_ok.2 ⟨hx, rfl⟩, ?_⟩
    have hhead := hclose.head _ _ _ ha
    obtain ⟨l, ls', hls, hl⟩ := hhead
    refine ite_accept_eq_ok.2 (.inr ⟨by rw [hls]; exact hl, ?_⟩)
    rw [List.append_eq, List.append_assoc]
    refine bind_eq_ok.2 ⟨_, _, hitem.ok ha (ht.closed hclose), ?_⟩
    exact bind_eq_ok.2 ⟨_, _, ih (by omega), rfl⟩

theorem nonemptyList_exact (hitem : Exact item p) (hclose : Closes close p) :
    Exact (nonemptyList close item) (Items close p) := by
  intro ls as rest
  constructor
  · intro h
    obtain ⟨a, mid, ha, h⟩ := bind_eq_ok.1 h
    obtain ⟨as', mid', htail, h⟩ := bind_eq_ok.1 h
    obtain ⟨rfl, rfl⟩ := pure_eq_ok.1 h
    obtain ⟨ms₁, e, rfl, ha', -⟩ := (hitem _ _ _).1 ha
    obtain ⟨ms₂, rfl, ht⟩ := listTail_sound hitem htail
    exact ⟨ms₁ ++ ms₂, {}, by simp, .mk ha' ht, closed_default⟩
  · rintro ⟨ms, e, rfl, ⟨ha, ht⟩, -⟩
    rw [List.append_assoc]
    refine bind_eq_ok.2 ⟨_, _, hitem.ok ha (ht.closed hclose), ?_⟩
    refine bind_eq_ok.2 ⟨_, _, ?_, rfl⟩
    exact listTail_complete hitem hclose ht (by simp)

theorem Items.closed {ls rest : List Lexeme} {as : List α} {e : Ends}
    (h : Items close p ls as e) : e.Closed rest := by
  obtain ⟨-, ht⟩ := h
  rw [ht.ends_eq]
  exact closed_default

theorem Listed.closed {ls rest : List Lexeme} {as : List α} {e : Ends}
    (h : Listed close p ls as e) : e.Closed rest := by
  rw [h.ends_eq]
  exact closed_default

theorem list_exact (hitem : Exact item p) (hclose : Closes close p) :
    Exact (list close item) (Listed close p) := by
  intro ls as rest
  rw [list, ite_accept_eq_ok]
  constructor
  · rintro (⟨c, ms, rfl, hc, h⟩ | ⟨-, h⟩)
    · obtain ⟨rfl, rfl⟩ := pure_eq_ok.1 h
      exact ⟨[c], {}, rfl, .nil hc, closed_default⟩
    · obtain ⟨ms, e, rfl, hi, hend⟩ := (nonemptyList_exact hitem hclose _ _ _).1 h
      exact ⟨ms, e, rfl, .some hi, hend⟩
  · rintro ⟨ms, e, rfl, hl, hend⟩
    cases hl with
    | nil hc => exact .inl ⟨_, _, rfl, hc, rfl⟩
    | some hi =>
      refine .inr ⟨?_, (nonemptyList_exact hitem hclose).ok hi hend⟩
      obtain ⟨ha, -⟩ := hi
      obtain ⟨l, ms, rfl, hl⟩ := hclose.head _ _ _ ha
      exact hl

end Lists

/-! ## Chains -/

section Chains

variable {k : Link} {item : Reader α} {p : Phrase α}

/-- Read with enough rounds behind an item that took all it could. -/
theorem chainTail_sound (hitem : Exact item p) {n : Nat} {ls rest : List Lexeme} {as : List α}
    {e : Ends} (hn : ls.length ≤ n) (hend : e.Closed ls)
    (h : chainTail k.isSep item n ls = .ok (as, rest)) :
    ∃ ms e', ls = ms ++ rest ∧ ChainTail true k p e ms as e' ∧ e'.Closed rest := by
  induction n generalizing ls as e with
  | zero =>
    obtain rfl := List.length_eq_zero_iff.1 (Nat.le_zero.1 hn)
    obtain ⟨rfl, rfl⟩ := pure_eq_ok.1 h
    exact ⟨[], _, rfl, .nil, closed_opened.2 ⟨hend, rfl⟩⟩
  | succ n ih =>
    rw [chainTail, ite_accept_eq_ok] at h
    rcases h with ⟨s, ms, rfl, hs, h⟩ | ⟨hno, h⟩
    · obtain ⟨a, mid, ha, h⟩ := bind_eq_ok.1 h
      obtain ⟨as', mid', htail, h⟩ := bind_eq_ok.1 h
      obtain ⟨rfl, rfl⟩ := pure_eq_ok.1 h
      obtain ⟨ms₁, e₁, rfl, ha', hend₁⟩ := (hitem _ _ _).1 ha
      simp only [List.length_cons, List.length_append] at hn
      obtain ⟨ms₂, e₂, rfl, ht, hend₂⟩ := ih (by omega) hend₁ htail
      exact ⟨s :: (ms₁ ++ ms₂), e₂, by simp, .cons hs (fun _ => hend) ha' ht, hend₂⟩
    · obtain ⟨rfl, rfl⟩ := pure_eq_ok.1 h
      exact ⟨[], _, rfl, .nil, closed_opened.2 ⟨hend, hno⟩⟩

/-- In an innermost derivation what stands behind an item is nothing that it would take. -/
theorem ChainTail.closed {ms rest : List Lexeme} {as : List α} {e e' : Ends}
    (h : ChainTail true k p e ms as e') (hend : e'.Closed rest) : e.Closed (ms ++ rest) := by
  cases h with
  | nil => exact (closed_opened.1 hend).1
  | cons _ hcut => exact hcut rfl

theorem chainTail_complete (hitem : Exact item p) {n : Nat} {ms rest : List Lexeme} {as : List α}
    {e e' : Ends} (h : ChainTail true k p e ms as e') (hend : e'.Closed rest)
    (hn : ms.length ≤ n) : chainTail k.isSep item n (ms ++ rest) = .ok (as, rest) := by
  induction h generalizing n with
  | nil =>
    cases n with
    | zero => rfl
    | succ n =>
      rw [chainTail, ite_accept_eq_ok]
      exact .inr ⟨(closed_opened.1 hend).2, rfl⟩
  | cons hs _ ha ht ih =>
    simp only [List.length_cons, List.length_append] at hn
    obtain ⟨n, rfl⟩ : ∃ m, n = m + 1 := ⟨n - 1, by omega⟩
    rw [chainTail, ite_accept_eq_ok]
    refine .inl ⟨_, _, rfl, hs, ?_⟩
    rw [List.append_eq, List.append_assoc]
    refine bind_eq_ok.2 ⟨_, _, hitem.ok ha (ht.closed hend), ?_⟩
    exact bind_eq_ok.2 ⟨_, _, ih hend (by omega), rfl⟩

theorem chain_exact (hitem : Exact item p) : Exact (chain k.isSep item) (Chain true k p) := by
  intro ls as rest
  constructor
  · intro h
    obtain ⟨a, mid, ha, h⟩ := bind_eq_ok.1 h
    obtain ⟨as', mid', htail, h⟩ := bind_eq_ok.1 h
    obtain ⟨rfl, rfl⟩ := pure_eq_ok.1 h
    obtain ⟨ms₁, e₁, rfl, ha', hend₁⟩ := (hitem _ _ _).1 ha
    obtain ⟨ms₂, e₂, rfl, ht, hend₂⟩ := chainTail_sound hitem (Nat.le_refl _) hend₁ htail
    exact ⟨ms₁ ++ ms₂, e₂, by simp, .mk ha' ht, hend₂⟩
  · rintro ⟨ms, e, rfl, ⟨ha, ht⟩, hend⟩
    rw [List.append_assoc]
    refine bind_eq_ok.2 ⟨_, _, hitem.ok ha (ht.closed hend), ?_⟩
    refine bind_eq_ok.2 ⟨_, _, ?_, rfl⟩
    exact chainTail_complete hitem ht hend (by simp)

end Chains

/-! ## Runs of tokens between braces -/

section Braces

variable {d : Delimiter} {outer : List Delimiter} {ls rest : List Lexeme} {texts : List String}

/-- Lexemes that close a stack of open brackets, the innermost first. -/
inductive Unwinds : List Delimiter → List Lexeme → Prop
  | nil : Unwinds [] []
  | cons {d : Delimiter} {outer : List Delimiter} {run more : List Lexeme} {c : Lexeme} :
      TokenRun run → c.cls = .closing d → Unwinds outer more →
      Unwinds (d :: outer) (run ++ c :: more)

theorem Unwinds.leaf {l : Lexeme} {ms : List Lexeme}
    (hl : ∀ d, l.cls ≠ .opening d ∧ l.cls ≠ .closing d) (h : Unwinds (d :: outer) ms) :
    Unwinds (d :: outer) (l :: ms) := by
  obtain _ | ⟨hrun, hc, hmore⟩ := h
  exact .cons (.leaf hl hrun) hc hmore

theorem Unwinds.group {l : Lexeme} {d' : Delimiter} {ms : List Lexeme} (hl : l.cls = .opening d')
    (h : Unwinds (d' :: d :: outer) ms) : Unwinds (d :: outer) (l :: ms) := by
  obtain _ | @⟨_, _, run, _, c, hrun, hc, hmore⟩ := h
  obtain _ | @⟨_, _, run', more, c', hrun', hc', hmore'⟩ := hmore
  simpa using Unwinds.cons (.group hl hrun hc hrun') hc' hmore'

section Lexemes

variable {l : Lexeme} {stack : List Delimiter}

theorem balanced_opening (hl : l.cls = .opening d) :
    balanced stack (l :: ls) = (balanced (d :: stack) ls).map fun r => (l.text :: r.1, r.2) := by
  rw [balanced.eq_def]
  simp [hl]

theorem balanced_closing (hl : l.cls = .closing d) :
    balanced (d :: outer) (l :: ls) =
      if outer.isEmpty then .ok ([l.text], ls)
      else (balanced outer ls).map fun r => (l.text :: r.1, r.2) := by
  rw [balanced.eq_def]
  simp [hl]

theorem balanced_leaf (hl : ∀ d, l.cls ≠ .opening d ∧ l.cls ≠ .closing d) :
    balanced stack (l :: ls) = (balanced stack ls).map fun r => (l.text :: r.1, r.2) := by
  rw [balanced.eq_def]
  cases hc : l.cls with
  | opening d => exact absurd hc (hl d).1
  | closing d => exact absurd hc (hl d).2
  | _ => simp [hc]

end Lexemes

theorem map_eq_ok {x : Except (List Lexeme) (List String × List Lexeme)} {t : String}
    (h : (x.map fun r => (t :: r.1, r.2)) = .ok (texts, rest)) :
    ∃ more, x = .ok (more, rest) ∧ texts = t :: more := by
  cases x with
  | error e => cases h
  | ok r =>
    obtain ⟨rfl, rfl⟩ := Prod.mk.inj (Except.ok.inj h)
    exact ⟨r.1, rfl, rfl⟩

theorem balanced_sound (h : balanced (d :: outer) ls = .ok (texts, rest)) :
    ∃ ms, ls = ms ++ rest ∧ Unwinds (d :: outer) ms ∧ texts = ms.map Lexeme.text := by
  induction ls generalizing d outer texts with
  | nil => cases h
  | cons l ls ih =>
    by_cases hleaf : ∀ d, l.cls ≠ .opening d ∧ l.cls ≠ .closing d
    · rw [balanced_leaf hleaf] at h
      obtain ⟨more, hmore, rfl⟩ := map_eq_ok h
      obtain ⟨ms, rfl, hms, rfl⟩ := ih hmore
      exact ⟨l :: ms, rfl, hms.leaf hleaf, rfl⟩
    cases hl : l.cls with
    | opening d' =>
      rw [balanced_opening hl] at h
      obtain ⟨more, hmore, rfl⟩ := map_eq_ok h
      obtain ⟨ms, rfl, hms, rfl⟩ := ih hmore
      exact ⟨l :: ms, rfl, hms.group hl, rfl⟩
    | closing d' =>
      by_cases hd : d' = d
      · subst hd
        rw [balanced_closing hl] at h
        cases outer with
        | nil =>
          obtain ⟨rfl, rfl⟩ := Prod.mk.inj (Except.ok.inj h)
          exact ⟨[l], rfl, .cons .nil hl .nil, rfl⟩
        | cons e outer =>
          obtain ⟨more, hmore, rfl⟩ := map_eq_ok h
          obtain ⟨ms, rfl, hms, rfl⟩ := ih hmore
          exact ⟨l :: ms, rfl, .cons .nil hl hms, rfl⟩
      · rw [balanced.eq_def] at h
        simp [hl, hd] at h
    | _ => simp [hl] at hleaf

/-- A run leaves the open brackets as they are. -/
theorem TokenRun.balanced_append {run tail : List Lexeme} (h : TokenRun run) :
    balanced (d :: outer) (run ++ tail) =
      (balanced (d :: outer) tail).map fun r => (run.map Lexeme.text ++ r.1, r.2) := by
  have hmap (x : Except (List Lexeme) (List String × List Lexeme)) (t : String)
      (ts : List String) :
      (x.map fun r => (ts ++ r.1, r.2)).map (fun r => (t :: r.1, r.2)) =
        x.map fun r => (t :: ts ++ r.1, r.2) := by
    cases x <;> simp [Except.map]
  induction h generalizing d outer tail with
  | nil =>
    rw [List.nil_append]
    cases balanced (d :: outer) tail <;> rfl
  | leaf hl _ ih =>
    rw [List.cons_append, balanced_leaf hl, ih, hmap]
    rfl
  | @group o c d' ls ms ho _ hc _ ihin ihout =>
    rw [List.cons_append, List.append_assoc, List.cons_append, balanced_opening ho, ihin,
      balanced_closing hc, List.isEmpty_cons, if_neg Bool.false_ne_true, ihout, hmap]
    cases balanced (d :: outer) tail <;> simp [Except.map]

/-- Behind an opening brace, a run and the closing brace are read. -/
theorem balanced_brace :
    balanced [.brace] ls = .ok (texts, rest) ↔
      ∃ run c, ls = run ++ c :: rest ∧ TokenRun run ∧ isOf (.closing .brace) c = true ∧
        texts = (run ++ [c]).map Lexeme.text := by
  constructor
  · intro h
    obtain ⟨ms, rfl, hms, rfl⟩ := balanced_sound h
    obtain _ | @⟨_, _, run, _, c, hrun, hc, hmore⟩ := hms
    cases hmore
    exact ⟨run, c, by simp, hrun, isOf_iff.2 hc, rfl⟩
  · rintro ⟨run, c, rfl, hrun, hc, rfl⟩
    rw [hrun.balanced_append, balanced_closing (isOf_iff.1 hc)]
    simp [Except.map]

end Braces

end TypeExpr

end InlineVariants
