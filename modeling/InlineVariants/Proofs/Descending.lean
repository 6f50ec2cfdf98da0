import InlineVariants.Proofs.ExactReaders
import InlineVariants.Proofs.Innermost
import InlineVariants.Proofs.Nesting
import Mathlib

/-!
# Types are read by their grammar

Every reader of a part of a type is exact for the rule of that part, given a reader that is exact for
the paths and types inside (`ReadsInside`). By induction on the bound, `typeWithin` is then exact for
innermost derivations of bounded depth (`TypeWithin`), and no derivation is deeper than its lexemes
are many.

Main statement: `parse_exact`.
-/

namespace InlineVariants

namespace TypeExpr

open Lexeme

/-! ## The parts of a type -/

/-- A reader for the types inside is exact for types, and for paths where only a path may stand. -/
structure ReadsInside (r : Reader TypeExpr) (path ty : Phrase TypeExpr) : Prop where
  exact_path : Exact (pathOnly r) path
  exact_type : Exact r ty
  path_head : ∀ ls t e, path ls t e → ∃ l ms, ls = l :: ms ∧ isPathStart l = true
  /-- A type begins in its own way, and one that begins with a name does not go on with `=`. -/
  type_head : ∀ ls t e, ty ls t e → ∃ l ms, ls = l :: ms ∧ isTypeStart l = true ∧
    (isFreeName l = true → ms.head?.any (isMark "=") = false)

section Parts

variable {r : Reader TypeExpr} {path ty : Phrase TypeExpr}

theorem returned_exact (hr : ReadsInside r path ty) : Exact (returned r) (Returned ty) := by
  intro ls ts rest
  rw [returned, ite_accept_eq_ok]
  constructor
  · rintro (⟨m, ms, rfl, hm, h⟩ | ⟨hno, h⟩)
    · obtain ⟨t, mid, ht, h'⟩ := bind_eq_ok.1 h
      obtain ⟨rfl, rfl⟩ := pure_eq_ok.1 h'
      obtain ⟨ms, e, rfl, ht', hend⟩ := (hr.exact_type _ _ _).1 ht
      exact ⟨m :: ms, e, rfl, .some hm ht', hend⟩
    · obtain ⟨rfl, rfl⟩ := pure_eq_ok.1 h
      refine ⟨[], _, rfl, .none, ?_⟩
      exact closed_arrow.2 hno
  · rintro ⟨ms, e, rfl, hret, hend⟩
    cases hret with
    | none => exact .inr ⟨closed_arrow.1 hend, rfl⟩
    | some hm ht =>
      exact .inl ⟨_, _, rfl, hm, bind_eq_ok.2 ⟨_, _, hr.exact_type.ok ht hend, rfl⟩⟩

/-- What begins a type is told from all that may stand in its place or in front of it. -/
theorem isTypeStart_apart {l : Lexeme} (h : isTypeStart l = true) :
    isMark ">" l = false ∧ isMark "-" l = false ∧ isOf (.closing .paren) l = false ∧
      isOf (.opening .brace) l = false ∧ isOf .lifetime l = false ∧
      (isOf .number l || isOf .string l || isOf .char l) = false ∧ isReserved "mut" l = false := by
  simp only [isTypeStart, isPathStart, List.any_cons, List.any_nil, Bool.or_false, Bool.or_eq_true,
    isFreeName_iff, isMark_iff, isOf_iff, isReserved_iff] at h
  have hmut : "mut" ∈ reserved := by decide
  refine ⟨?_, ?_, ?_, ?_, ?_, ?_, ?_⟩ <;> grind [isMark, isOf, isReserved]

theorem closes_types (hr : ReadsInside r path ty) : Closes (isOf (.closing .paren)) ty where
  inert _ := Inert.of_closing
  comma x hx := by simp [isOf, (isMark_iff.1 hx).1]
  head ls t e ht := by
    obtain ⟨l, ms, rfl, hl, -⟩ := hr.type_head ls t e ht
    exact ⟨l, ms, rfl, (isTypeStart_apart hl).2.2.1⟩

theorem typeList_exact (hr : ReadsInside r path ty) :
    Exact (typeList r) (Listed (isOf (.closing .paren)) ty) :=
  list_exact hr.exact_type (closes_types hr)

/-- A type argument is told from a binding by the two lexemes in front. -/
theorem not_binding_iff (hr : ReadsInside r path ty) {ms rest : List Lexeme} {t : TypeExpr}
    {e : Ends} (ht : ty ms t e) :
    (∀ l m ns, ms ++ rest = l :: m :: ns → isFreeName l = true → isMark "=" m = false) ↔
      (isBareName ms = true → rest.head?.any (isMark "=") = false) := by
  obtain ⟨l, ms, rfl, -, hnext⟩ := hr.type_head _ _ _ ht
  cases ms with
  | nil => cases rest <;> simp [isBareName]
  | cons m ms =>
    simp only [isBareName, Bool.false_eq_true, false_implies, iff_true]
    intro l' m' ns heq hl'
    obtain ⟨rfl, heq'⟩ := List.cons.inj heq
    obtain ⟨rfl, -⟩ := List.cons.inj heq'
    exact hnext hl'

theorem genericArg_exact (hr : ReadsInside r path ty) : Exact (genericArg r) (IsArg ty) := by
  intro ls a rest
  rw [genericArg]
  constructor
  · intro h
    rcases accept?_bind_eq_ok.1 h with ⟨l, ms, rfl, hl, h₁⟩ | ⟨-, h₁⟩
    · obtain ⟨rfl, rfl⟩ := pure_eq_ok.1 h₁
      exact ⟨[l], {}, rfl, .lifetime hl, closed_default⟩
    rcases accept?_bind_eq_ok.1 h₁ with ⟨l, ms, rfl, hl, h₂⟩ | ⟨-, h₂⟩
    · obtain ⟨rfl, rfl⟩ := pure_eq_ok.1 h₂
      exact ⟨[l], {}, rfl, .literal hl, closed_default⟩
    rcases accept?_bind_eq_ok.1 h₂ with ⟨m, ms, rfl, hm, h₃⟩ | ⟨-, h₃⟩
    · obtain ⟨l, mid, hl, h₄⟩ := bind_eq_ok.1 h₃
      obtain ⟨rfl, rfl⟩ := pure_eq_ok.1 h₄
      obtain ⟨hl', rfl⟩ := expect_eq_ok.1 hl
      exact ⟨[m, l], {}, rfl, .negative hm hl', closed_default⟩
    rcases accept?_bind_eq_ok.1 h₃ with ⟨o, ms, rfl, ho, h₄⟩ | ⟨-, h₄⟩
    · obtain ⟨texts, mid, hrun, h₅⟩ := bind_eq_ok.1 h₄
      obtain ⟨rfl, rfl⟩ := pure_eq_ok.1 h₅
      obtain ⟨run, c, rfl, hrun', hc, rfl⟩ := balanced_brace.1 hrun
      exact ⟨o :: (run ++ [c]), {}, by simp, .braced ho hrun' hc, closed_default⟩
    rcases ite_binding_eq_ok.1 h₄ with ⟨l, m, ms, rfl, hl, hm, h₅⟩ | ⟨hno, h₅⟩
    · obtain ⟨l', mid, hname, h₆⟩ := bind_eq_ok.1 h₅
      obtain ⟨-, heq⟩ := expect_eq_ok.1 hname
      obtain ⟨rfl, rfl⟩ := List.cons.inj heq
      obtain ⟨m', mid', hmark, h₇⟩ := bind_eq_ok.1 h₆
      obtain ⟨-, heq'⟩ := expect_eq_ok.1 hmark
      obtain ⟨rfl, rfl⟩ := List.cons.inj heq'
      obtain ⟨t, mid'', ht, h₈⟩ := bind_eq_ok.1 h₇
      obtain ⟨rfl, rfl⟩ := pure_eq_ok.1 h₈
      obtain ⟨ms, e, rfl, ht', hend⟩ := (hr.exact_type _ _ _).1 ht
      exact ⟨l :: m :: ms, e, rfl, .binding hl hm ht', hend⟩
    · obtain ⟨t, mid, ht, h₆⟩ := bind_eq_ok.1 h₅
      obtain ⟨rfl, rfl⟩ := pure_eq_ok.1 h₆
      obtain ⟨ms, e, rfl, ht', hend⟩ := (hr.exact_type _ _ _).1 ht
      exact ⟨ms, _, rfl, .type ht', closed_bare.2 ⟨hend, (not_binding_iff hr ht').1 hno⟩⟩
  · rintro ⟨ms, e, rfl, ha, hend⟩
    cases ha with
    | lifetime hl => exact accept?_bind_eq_ok.2 (.inl ⟨_, _, rfl, hl, rfl⟩)
    | literal hl =>
      refine accept?_bind_eq_ok.2 (.inr ⟨?_, accept?_bind_eq_ok.2 (.inl ⟨_, _, rfl, hl, rfl⟩)⟩)
      simp only [Bool.or_eq_true, isOf_iff] at hl
      rcases hl with (hl | hl) | hl <;> simp [isOf, hl]
    | negative hm hl =>
      obtain ⟨hc, -⟩ := isMark_iff.1 hm
      refine accept?_bind_eq_ok.2 (.inr ⟨by simp [isOf, hc], ?_⟩)
      refine accept?_bind_eq_ok.2 (.inr ⟨by simp [isOf, hc], ?_⟩)
      refine accept?_bind_eq_ok.2 (.inl ⟨_, _, rfl, hm, ?_⟩)
      exact bind_eq_ok.2 ⟨_, _, expect_eq_ok.2 ⟨hl, rfl⟩, rfl⟩
    | braced ho hrun hc =>
      have hcls := isOf_iff.1 ho
      refine accept?_bind_eq_ok.2 (.inr ⟨by simp [isOf, hcls], ?_⟩)
      refine accept?_bind_eq_ok.2 (.inr ⟨by simp [isOf, hcls], ?_⟩)
      refine accept?_bind_eq_ok.2 (.inr ⟨by simp [isMark, hcls], ?_⟩)
      refine accept?_bind_eq_ok.2 (.inl ⟨_, _, rfl, ho, ?_⟩)
      refine bind_eq_ok.2 ⟨_, _, balanced_brace.2 ⟨_, _, ?_, hrun, hc, rfl⟩, rfl⟩
      simp
    | binding hl hm ht =>
      obtain ⟨hc, -⟩ := isFreeName_iff.1 hl
      refine accept?_bind_eq_ok.2 (.inr ⟨by simp [isOf, hc], ?_⟩)
      refine accept?_bind_eq_ok.2 (.inr ⟨by simp [isOf, hc], ?_⟩)
      refine accept?_bind_eq_ok.2 (.inr ⟨by simp [isMark, hc], ?_⟩)
      refine accept?_bind_eq_ok.2 (.inr ⟨by simp [isOf, hc], ?_⟩)
      refine ite_binding_eq_ok.2 (.inl ⟨_, _, _, rfl, hl, hm, ?_⟩)
      refine bind_eq_ok.2 ⟨_, _, expect_eq_ok.2 ⟨hl, rfl⟩, ?_⟩
      refine bind_eq_ok.2 ⟨_, _, expect_eq_ok.2 ⟨hm, rfl⟩, ?_⟩
      exact bind_eq_ok.2 ⟨_, _, hr.exact_type.ok ht hend, rfl⟩
    | type ht =>
      obtain ⟨hend', hbare⟩ := closed_bare.1 hend
      have hread := hr.exact_type.ok ht hend'
      have hno := (not_binding_iff hr ht).2 hbare
      obtain ⟨l, ms, rfl, hl, -⟩ := hr.type_head _ _ _ ht
      obtain ⟨-, hminus, -, hbrace, hlife, hlit, -⟩ := isTypeStart_apart hl
      refine accept?_bind_eq_ok.2 (.inr ⟨hlife, ?_⟩)
      refine accept?_bind_eq_ok.2 (.inr ⟨hlit, ?_⟩)
      refine accept?_bind_eq_ok.2 (.inr ⟨hminus, ?_⟩)
      refine accept?_bind_eq_ok.2 (.inr ⟨hbrace, ?_⟩)
      refine ite_binding_eq_ok.2 (.inr ⟨hno, ?_⟩)
      exact bind_eq_ok.2 ⟨_, _, hread, rfl⟩

theorem closes_args (hr : ReadsInside r path ty) : Closes (isMark ">") (IsArg ty) where
  inert _ hc := .of_mark hc (by decide)
  comma x hx := by simp [isMark, (isMark_iff.1 hx).2]
  head ls a e ha := by
    cases ha with
    | type ht =>
      obtain ⟨l, ms, rfl, hl, -⟩ := hr.type_head _ _ _ ht
      exact ⟨l, ms, rfl, (isTypeStart_apart hl).1⟩
    | lifetime hl => exact ⟨_, _, rfl, by simp [isMark, isOf_iff.1 hl]⟩
    | binding hl => exact ⟨_, _, rfl, by simp [isMark, (isFreeName_iff.1 hl).1]⟩
    | literal hl =>
      simp only [Bool.or_eq_true, isOf_iff] at hl
      exact ⟨_, _, rfl, by rcases hl with (hl | hl) | hl <;> simp [isMark, hl]⟩
    | negative hm => exact ⟨_, _, rfl, by simp [isMark, (isMark_iff.1 hm).2]⟩
    | braced ho => exact ⟨_, _, rfl, by simp [isMark, isOf_iff.1 ho]⟩

theorem segment_exact (hr : ReadsInside r path ty) : Exact (segment r) (IsSegment ty) := by
  have hargs := list_exact (genericArg_exact hr) (closes_args hr)
  intro ls a rest
  rw [segment]
  constructor
  · intro h
    obtain ⟨l, mid, hname, h₁⟩ := bind_eq_ok.1 h
    obtain ⟨hl, rfl⟩ := expect_eq_ok.1 hname
    rcases ite_accept_eq_ok.1 h₁ with ⟨o, ms, rfl, ho, h₂⟩ | ⟨hno, h₂⟩
    · obtain ⟨args, mid, hlist, h₃⟩ := bind_eq_ok.1 h₂
      obtain ⟨rfl, rfl⟩ := pure_eq_ok.1 h₃
      obtain ⟨ms, e, rfl, hlist', hend⟩ := (hargs _ _ _).1 hlist
      exact ⟨l :: o :: ms, e, rfl, .generic hl ho hlist', hend⟩
    rcases ite_accept_eq_ok.1 h₂ with ⟨o, ms, rfl, ho, h₃⟩ | ⟨hno', h₃⟩
    · obtain ⟨params, mid, hparams, h₄⟩ := bind_eq_ok.1 h₃
      obtain ⟨result, mid', hresult, h₅⟩ := bind_eq_ok.1 h₄
      obtain ⟨rfl, rfl⟩ := pure_eq_ok.1 h₅
      obtain ⟨ms, e, rfl, hparams', -⟩ := (typeList_exact hr _ _ _).1 hparams
      obtain ⟨ns, e', rfl, hresult', hend⟩ := (returned_exact hr _ _ _).1 hresult
      exact ⟨l :: o :: (ms ++ ns), e', by simp, .callable hl ho hparams' hresult', hend⟩
    · obtain ⟨rfl, rfl⟩ := pure_eq_ok.1 h₃
      exact ⟨[l], _, rfl, .plain hl, closed_args.2 ⟨hno, hno'⟩⟩
  · rintro ⟨ms, e, rfl, hseg, hend⟩
    cases hseg with
    | plain hl =>
      obtain ⟨hno, hno'⟩ := closed_args.1 hend
      refine bind_eq_ok.2 ⟨_, _, expect_eq_ok.2 ⟨hl, rfl⟩, ?_⟩
      exact ite_accept_eq_ok.2 (.inr ⟨hno, ite_accept_eq_ok.2 (.inr ⟨hno', rfl⟩)⟩)
    | generic hl ho hlist =>
      refine bind_eq_ok.2 ⟨_, _, expect_eq_ok.2 ⟨hl, rfl⟩, ?_⟩
      refine ite_accept_eq_ok.2 (.inl ⟨_, _, rfl, ho, ?_⟩)
      exact bind_eq_ok.2 ⟨_, _, hargs.ok hlist hend, rfl⟩
    | callable hl ho hparams hresult =>
      refine bind_eq_ok.2 ⟨_, _, expect_eq_ok.2 ⟨hl, rfl⟩, ?_⟩
      refine ite_accept_eq_ok.2 (.inr ⟨by simp [isMark, isOf_iff.1 ho], ?_⟩)
      refine ite_accept_eq_ok.2 (.inl ⟨_, _, rfl, ho, ?_⟩)
      rw [List.append_eq, List.append_assoc]
      refine bind_eq_ok.2 ⟨_, _, (typeList_exact hr).ok hparams hparams.closed, ?_⟩
      exact bind_eq_ok.2 ⟨_, _, (returned_exact hr).ok hresult hend, rfl⟩

theorem selfType_exact (hr : ReadsInside r path ty) : Exact (selfType r) (SelfType path ty) := by
  intro ls t rest
  rw [selfType]
  constructor
  · intro h
    obtain ⟨t', mid, ht, h₁⟩ := bind_eq_ok.1 h
    obtain ⟨ms, e, rfl, ht', -⟩ := (hr.exact_type _ _ _).1 ht
    rcases ite_accept_eq_ok.1 h₁ with ⟨m, ns, rfl, hm, h₂⟩ | ⟨-, h₂⟩
    · obtain ⟨trait, mid, htrait, h₃⟩ := bind_eq_ok.1 h₂
      obtain ⟨c, mid', hc, h₄⟩ := bind_eq_ok.1 h₃
      obtain ⟨rfl, rfl⟩ := pure_eq_ok.1 h₄
      obtain ⟨hc', rfl⟩ := expect_eq_ok.1 hc
      obtain ⟨ns, e', rfl, htrait', -⟩ := (hr.exact_path _ _ _).1 htrait
      exact ⟨ms ++ m :: (ns ++ [c]), {}, by simp, .ofTrait ht' hm htrait' hc', closed_default⟩
    · obtain ⟨c, mid', hc, h₃⟩ := bind_eq_ok.1 h₂
      obtain ⟨rfl, rfl⟩ := pure_eq_ok.1 h₃
      obtain ⟨hc', rfl⟩ := expect_eq_ok.1 hc
      exact ⟨ms ++ [c], {}, by simp, .plain ht' hc', closed_default⟩
  · rintro ⟨ms, e, rfl, hself, -⟩
    cases hself with
    | plain ht hc =>
      have hgt := Inert.of_mark hc (by decide)
      rw [List.append_assoc]
      refine bind_eq_ok.2 ⟨_, _, hr.exact_type.ok ht hgt.closed, ?_⟩
      refine ite_accept_eq_ok.2 (.inr ⟨by simp [isReserved, (isMark_iff.1 hc).1], ?_⟩)
      exact bind_eq_ok.2 ⟨_, _, expect_eq_ok.2 ⟨hc, rfl⟩, rfl⟩
    | ofTrait ht hm htrait hc =>
      have hgt := Inert.of_mark hc (by decide)
      rw [List.append_assoc, List.cons_append, List.append_assoc]
      refine bind_eq_ok.2 ⟨_, _, hr.exact_type.ok ht (Inert.of_reserved hm).closed, ?_⟩
      refine ite_accept_eq_ok.2 (.inl ⟨_, _, rfl, hm, ?_⟩)
      refine bind_eq_ok.2 ⟨_, _, hr.exact_path.ok htrait hgt.closed, ?_⟩
      exact bind_eq_ok.2 ⟨_, _, expect_eq_ok.2 ⟨hc, rfl⟩, rfl⟩

theorem SelfType.closed {ls rest : List Lexeme} {t : TypeExpr} {e : Ends}
    (h : SelfType path ty ls t e) : e.Closed rest := by
  cases h <;> exact closed_default

theorem pathType_exact (hr : ReadsInside r path ty) :
    Exact (pathType r) (PathOver true path ty) := by
  have hsegs := chain_exact (k := .path) (segment_exact hr)
  intro ls t rest
  rw [pathType]
  constructor
  · intro h
    rcases ite_accept_eq_ok.1 h with ⟨o, ms, rfl, ho, h₁⟩ | ⟨-, h₁⟩
    · obtain ⟨self, mid, hself, h₂⟩ := bind_eq_ok.1 h₁
      obtain ⟨m, mid', hm, h₃⟩ := bind_eq_ok.1 h₂
      obtain ⟨segments, mid'', hchain, h₄⟩ := bind_eq_ok.1 h₃
      obtain ⟨rfl, rfl⟩ := pure_eq_ok.1 h₄
      obtain ⟨hm', rfl⟩ := expect_eq_ok.1 hm
      obtain ⟨ms, e, rfl, hself', -⟩ := (selfType_exact hr _ _ _).1 hself
      obtain ⟨ns, e', rfl, hchain', hend⟩ := (hsegs _ _ _).1 hchain
      exact ⟨o :: (ms ++ m :: ns), e', by simp, .qualified ho hself' hm' hchain', hend⟩
    rcases accept_bind_eq_ok.1 h₁ with ⟨m, ms, rfl, hm, h₂⟩ | ⟨-, h₂⟩
    · obtain ⟨segments, mid, hchain, h₃⟩ := bind_eq_ok.1 h₂
      obtain ⟨rfl, rfl⟩ := pure_eq_ok.1 h₃
      obtain ⟨ns, e, rfl, hchain', hend⟩ := (hsegs _ _ _).1 hchain
      exact ⟨m :: ns, e, rfl, .absolute hm hchain', hend⟩
    · obtain ⟨segments, mid, hchain, h₃⟩ := bind_eq_ok.1 h₂
      obtain ⟨rfl, rfl⟩ := pure_eq_ok.1 h₃
      obtain ⟨ns, e, rfl, hchain', hend⟩ := (hsegs _ _ _).1 hchain
      exact ⟨ns, e, rfl, .relative hchain', hend⟩
  · rintro ⟨ms, e, rfl, hp, hend⟩
    cases hp with
    | relative hchain =>
      have hread := hsegs.ok hchain hend
      obtain ⟨l, ms, rfl, hl⟩ := hchain.head fun _ _ _ => IsSegment.head
      have hc := (isFreeName_iff.1 hl).1
      refine ite_accept_eq_ok.2 (.inr ⟨by simp [isMark, hc], ?_⟩)
      refine accept_bind_eq_ok.2 (.inr ⟨by simp [isMark, hc], ?_⟩)
      exact bind_eq_ok.2 ⟨_, _, hread, rfl⟩
    | absolute hm hchain =>
      have ht := (isMark_iff.1 hm).2
      refine ite_accept_eq_ok.2 (.inr ⟨by simp [isMark, ht], ?_⟩)
      refine accept_bind_eq_ok.2 (.inl ⟨_, _, rfl, hm, ?_⟩)
      exact bind_eq_ok.2 ⟨_, _, hsegs.ok hchain hend, rfl⟩
    | qualified ho hself hm hchain =>
      refine ite_accept_eq_ok.2 (.inl ⟨_, _, rfl, ho, ?_⟩)
      rw [List.append_eq, List.append_assoc]
      refine bind_eq_ok.2 ⟨_, _, (selfType_exact hr).ok hself hself.closed, ?_⟩
      refine bind_eq_ok.2 ⟨_, _, expect_eq_ok.2 ⟨hm, rfl⟩, ?_⟩
      exact bind_eq_ok.2 ⟨_, _, hsegs.ok hchain hend, rfl⟩

theorem closes_lifetimes :
    Closes (isMark ">") fun ls l e => ls = [l] ∧ isOf .lifetime l = true ∧ e = ({} : Ends) where
  inert _ hc := .of_mark hc (by decide)
  comma x hx := by simp [isMark, (isMark_iff.1 hx).2]
  head _ l _ := by
    rintro ⟨rfl, hl, -⟩
    exact ⟨l, [], rfl, by simp [isMark, isOf_iff.1 hl]⟩

/-- A binder, its `for` included. -/
theorem binder_eq_ok {f : Lexeme} {ls rest : List Lexeme} (hf : isReserved "for" f = true) :
    binder ls = .ok ((), rest) ↔ ∃ bs, f :: ls = bs ++ rest ∧ Binder bs := by
  have hitems := nonemptyList_exact (@expect_exact (isOf .lifetime)) closes_lifetimes
  rw [binder]
  constructor
  · intro h
    obtain ⟨o, mid, ho, h₁⟩ := bind_eq_ok.1 h
    obtain ⟨as, mid', has, h₂⟩ := bind_eq_ok.1 h₁
    obtain ⟨-, rfl⟩ := pure_eq_ok.1 h₂
    obtain ⟨ho', rfl⟩ := expect_eq_ok.1 ho
    obtain ⟨ms, e, rfl, has', -⟩ := (hitems _ _ _).1 has
    exact ⟨f :: o :: ms, rfl, f, o, ms, as, e, rfl, hf, ho', has'⟩
  · rintro ⟨_, heq, f', o, ms, as, e, rfl, -, ho, has⟩
    obtain ⟨-, rfl⟩ := List.cons.inj heq
    refine bind_eq_ok.2 ⟨_, _, expect_eq_ok.2 ⟨ho, rfl⟩, ?_⟩
    exact bind_eq_ok.2 ⟨_, _, hitems.ok has has.closed, rfl⟩

theorem isPathStart_bound {l : Lexeme} (h : isPathStart l = true) :
    isOf .lifetime l = false ∧ isMark "?" l = false ∧ isReserved "for" l = false := by
  refine ⟨?_, Bool.eq_false_iff.2 fun hm => ?_, Bool.eq_false_iff.2 fun hf => ?_⟩
  · simp only [isPathStart, Bool.or_eq_true, isFreeName_iff, isMark_iff] at h
    rcases h with (⟨hc, -⟩ | ⟨hc, -⟩) | ⟨hc, -⟩ <;> simp [isOf, hc]
  · simp [not_isPathStart_of_mark hm (by decide)] at h
  · simp [not_isPathStart_of_reserved hf (by decide)] at h

theorem bound_exact (hr : ReadsInside r path ty) : Exact (bound r) (IsBound path) := by
  intro ls ts rest
  rw [bound]
  constructor
  · intro h
    rcases ite_accept_eq_ok.1 h with ⟨l, ms, rfl, hl, h₁⟩ | ⟨-, h₁⟩
    · obtain ⟨rfl, rfl⟩ := pure_eq_ok.1 h₁
      exact ⟨[l], {}, rfl, .lifetime hl, closed_default⟩
    rcases ite_accept_eq_ok.1 h₁ with ⟨m, ms, rfl, hm, h₂⟩ | ⟨-, h₂⟩
    · obtain ⟨t, mid, ht, h₃⟩ := bind_eq_ok.1 h₂
      obtain ⟨rfl, rfl⟩ := pure_eq_ok.1 h₃
      obtain ⟨ms, e, rfl, ht', hend⟩ := (hr.exact_path _ _ _).1 ht
      exact ⟨m :: ms, e, rfl, .relaxed hm ht', hend⟩
    rcases ite_accept_eq_ok.1 h₂ with ⟨f, ms, rfl, hf, h₃⟩ | ⟨-, h₃⟩
    · obtain ⟨_, mid, hbinder, h₄⟩ := bind_eq_ok.1 h₃
      obtain ⟨t, mid', ht, h₅⟩ := bind_eq_ok.1 h₄
      obtain ⟨rfl, rfl⟩ := pure_eq_ok.1 h₅
      obtain ⟨ms, e, rfl, ht', hend⟩ := (hr.exact_path _ _ _).1 ht
      obtain ⟨bs, heq, hbs⟩ := (binder_eq_ok hf).1 hbinder
      exact ⟨bs ++ ms, e, by simpa using heq, .bound hbs ht', hend⟩
    · obtain ⟨t, mid', ht, h₄⟩ := bind_eq_ok.1 h₃
      obtain ⟨rfl, rfl⟩ := pure_eq_ok.1 h₄
      obtain ⟨ms, e, rfl, ht', hend⟩ := (hr.exact_path _ _ _).1 ht
      exact ⟨ms, e, rfl, .plain ht', hend⟩
  · rintro ⟨ms, e, rfl, hb, hend⟩
    cases hb with
    | plain hp =>
      have hread := hr.exact_path.ok hp hend
      obtain ⟨l, ms, rfl, hl⟩ := hr.path_head _ _ _ hp
      obtain ⟨hlife, hquest, hfor⟩ := isPathStart_bound hl
      refine ite_accept_eq_ok.2 (.inr ⟨hlife, ?_⟩)
      refine ite_accept_eq_ok.2 (.inr ⟨hquest, ?_⟩)
      refine ite_accept_eq_ok.2 (.inr ⟨hfor, ?_⟩)
      exact bind_eq_ok.2 ⟨_, _, hread, rfl⟩
    | lifetime hl => exact ite_accept_eq_ok.2 (.inl ⟨_, _, rfl, hl, rfl⟩)
    | relaxed hm hp =>
      refine ite_accept_eq_ok.2 (.inr ⟨by simp [isOf, (isMark_iff.1 hm).1], ?_⟩)
      refine ite_accept_eq_ok.2 (.inl ⟨_, _, rfl, hm, ?_⟩)
      exact bind_eq_ok.2 ⟨_, _, hr.exact_path.ok hp hend, rfl⟩
    | @bound bs ns _ _ hbs hp =>
      obtain ⟨f, ls, rfl, hf⟩ := hbs.head
      have hc := (isReserved_iff.1 hf).1
      rw [List.append_assoc]
      refine ite_accept_eq_ok.2 (.inr ⟨by simp [isOf, hc], ?_⟩)
      refine ite_accept_eq_ok.2 (.inr ⟨by simp [isMark, hc], ?_⟩)
      refine ite_accept_eq_ok.2 (.inl ⟨_, _, rfl, hf, ?_⟩)
      refine bind_eq_ok.2 ⟨_, _, (binder_eq_ok hf).2 ⟨_, rfl, hbs⟩, ?_⟩
      exact bind_eq_ok.2 ⟨_, _, hr.exact_path.ok hp hend, rfl⟩

theorem arrayLength_eq_ok {ls rest : List Lexeme} :
    arrayLength ls = .ok ((), rest) ↔
      ∃ ns, ls = ns ++ rest ∧ ns ≠ [] ∧ (∀ l ∈ ns, isLengthPart l = true) ∧
        rest.head?.any isLengthPart = false := by
  rw [arrayLength]
  constructor
  · intro h
    obtain ⟨l, mid, hl, h₁⟩ := bind_eq_ok.1 h
    obtain ⟨hl', rfl⟩ := expect_eq_ok.1 hl
    obtain ⟨-, rfl⟩ := Prod.mk.inj (Except.ok.inj h₁)
    refine ⟨l :: mid.takeWhile isLengthPart, ?_, by simp, ?_, ?_⟩
    · rw [List.cons_append, List.takeWhile_append_dropWhile]
    · rintro x (_ | ⟨_, hx⟩)
      · exact hl'
      · exact List.mem_takeWhile_imp hx
    · have := List.head?_dropWhile_not isLengthPart mid
      cases hh : (mid.dropWhile isLengthPart).head? <;> simp_all
  · rintro ⟨ns, rfl, hne, hall, hstop⟩
    obtain ⟨l, ns, rfl⟩ := List.exists_cons_of_ne_nil hne
    refine bind_eq_ok.2 ⟨_, _, expect_eq_ok.2 ⟨hall l (by simp), rfl⟩, ?_⟩
    have hdrop : (ns ++ rest).dropWhile isLengthPart = rest := by
      rw [List.dropWhile_append_of_pos fun x hx => hall x (by simp [hx])]
      cases rest with
      | nil => rfl
      | cons x xs => exact List.dropWhile_cons_of_neg (by simpa using hstop)
    exact congrArg (fun ls => Except.ok ((), ls)) hdrop

end Parts

/-! ## Function pointers -/

section Functions

variable {r : Reader TypeExpr} {path ty : Phrase TypeExpr} {ls ms rest : List Lexeme}

theorem isReserved_of_ne {word other : String} {l : Lexeme} (h : isReserved word l = true)
    (hne : word ≠ other) : isReserved other l = false := by
  obtain ⟨-, ht⟩ := isReserved_iff.1 h
  simp [isReserved, ht, hne]

theorem binder_then_sound {k : Reader α} {a : α}
    (h : (do
      if ← accept (isReserved "for") then
        binder
      k : Reader α) ls = .ok (a, rest)) :
    ∃ bs ms, ls = bs ++ ms ∧ Maybe Binder bs ∧ k ms = .ok (a, rest) := by
  rcases ite_accept_eq_ok.1 h with ⟨f, ms, rfl, hf, h₁⟩ | ⟨-, h₁⟩
  · obtain ⟨_, mid, hbinder, h₂⟩ := bind_eq_ok.1 h₁
    obtain ⟨bs, heq, hbs⟩ := (binder_eq_ok hf).1 hbinder
    exact ⟨bs, mid, heq, .inr hbs, h₂⟩
  · exact ⟨[], ls, rfl, .inl rfl, h₁⟩

theorem binder_then_complete {k : Reader α} {a : α} {bs : List Lexeme} (hbs : Maybe Binder bs)
    (hno : ms.head?.any (isReserved "for") = false) (h : k ms = .ok (a, rest)) :
    (do
      if ← accept (isReserved "for") then
        binder
      k : Reader α) (bs ++ ms) = .ok (a, rest) := by
  rcases hbs with rfl | hbs
  · exact ite_accept_eq_ok.2 (.inr ⟨hno, h⟩)
  · obtain ⟨f, bs, rfl, hf⟩ := hbs.head
    refine ite_accept_eq_ok.2 (.inl ⟨_, _, rfl, hf, ?_⟩)
    exact bind_eq_ok.2 ⟨_, _, (binder_eq_ok hf).2 ⟨_, rfl, hbs⟩, h⟩

theorem linkage_then_sound {k : Reader α} {a : α}
    (h : (do
      if ← accept (isReserved "extern") then
        let _ ← accept (isOf .string)
      k : Reader α) ls = .ok (a, rest)) :
    ∃ xs ms, ls = xs ++ ms ∧ Maybe Linkage xs ∧ k ms = .ok (a, rest) := by
  rcases ite_accept_eq_ok.1 h with ⟨x, ms, rfl, hx, h₁⟩ | ⟨-, h₁⟩
  · obtain ⟨ns, ms, rfl, hns, -, h₂⟩ := accept_then_eq_ok.1 h₁
    exact ⟨x :: ns, ms, rfl, .inr ⟨x, ns, rfl, hx, hns⟩, h₂⟩
  · exact ⟨[], ls, rfl, .inl rfl, h₁⟩

theorem linkage_then_complete {k : Reader α} {a : α} {xs : List Lexeme} (hxs : Maybe Linkage xs)
    (hno : ms.head?.any (isReserved "extern") = false)
    (hno' : ms.head?.any (isOf .string) = false) (h : k ms = .ok (a, rest)) :
    (do
      if ← accept (isReserved "extern") then
        let _ ← accept (isOf .string)
      k : Reader α) (xs ++ ms) = .ok (a, rest) := by
  rcases hxs with rfl | ⟨x, ns, rfl, hx, hns⟩
  · exact ite_accept_eq_ok.2 (.inr ⟨hno, h⟩)
  · refine ite_accept_eq_ok.2 (.inl ⟨_, _, rfl, hx, ?_⟩)
    exact accept_then_eq_ok.2 ⟨ns, ms, rfl, hns, fun _ => hno', h⟩

theorem functionType_sound (hr : ReadsInside r path ty) {t : TypeExpr}
    (h : functionType r ls = .ok (t, rest)) :
    ∃ ms e, ls = ms ++ rest ∧ TypeOver true path ty ms t e ∧ e.Closed rest := by
  obtain ⟨bs, ms, rfl, hbs, h₁⟩ := binder_then_sound h
  obtain ⟨us, ns, rfl, hus, -, h₂⟩ := accept_then_eq_ok.1 h₁
  obtain ⟨xs, ks, rfl, hxs, h₃⟩ := linkage_then_sound h₂
  obtain ⟨f, mid, hf, h₄⟩ := bind_eq_ok.1 h₃
  obtain ⟨hf', rfl⟩ := expect_eq_ok.1 hf
  obtain ⟨o, mid', ho, h₅⟩ := bind_eq_ok.1 h₄
  obtain ⟨ho', rfl⟩ := expect_eq_ok.1 ho
  obtain ⟨params, mid'', hparams, h₆⟩ := bind_eq_ok.1 h₅
  obtain ⟨result, last, hresult, h₇⟩ := bind_eq_ok.1 h₆
  obtain ⟨rfl, rfl⟩ := pure_eq_ok.1 h₇
  obtain ⟨ps, e, rfl, hparams', -⟩ := (typeList_exact hr _ _ _).1 hparams
  obtain ⟨qs, e', rfl, hresult', hend⟩ := (returned_exact hr _ _ _).1 hresult
  have hhead : FunctionHead (bs ++ (us ++ (xs ++ [f, o]))) :=
    ⟨bs, us, xs, f, o, rfl, hbs, hus, hxs, hf', ho'⟩
  exact ⟨_, e', by simp, .function hhead hparams' hresult', hend⟩

theorem functionType_complete (hr : ReadsInside r path ty) {hs ps qs : List Lexeme}
    {params result : List TypeExpr} {e e' : Ends} (hhead : FunctionHead hs)
    (hparams : Listed (isOf (.closing .paren)) ty ps params e) (hresult : Returned ty qs result e')
    (hend : e'.Closed rest) :
    functionType r (hs ++ (ps ++ qs) ++ rest) =
      .ok (.compound .function (params ++ result), rest) := by
  obtain ⟨bs, us, xs, f, o, rfl, hbs, hus, hxs, hf, ho⟩ := hhead
  -- what comes behind a missing `for`, `unsafe` or `extern` is not that word
  have hxs' {word : String} (h₁ : "extern" ≠ word) (h₂ : "fn" ≠ word) {ns : List Lexeme} :
      (xs ++ f :: ns).head?.any (isReserved word) = false := by
    rcases hxs with rfl | ⟨x, ks, rfl, hx, -⟩
    · exact isReserved_of_ne hf h₂
    · exact isReserved_of_ne hx h₁
  have hus' {ns : List Lexeme} :
      (us ++ (xs ++ f :: ns)).head?.any (isReserved "for") = false := by
    rcases hus with rfl | ⟨u, rfl, hu⟩
    · exact hxs' (by decide) (by decide)
    · exact isReserved_of_ne hu (by decide)
  have hstring : isOf .string f = false := by simp [isOf, (isReserved_iff.1 hf).1]
  simp only [List.append_assoc, List.cons_append, List.nil_append]
  refine binder_then_complete hbs hus' ?_
  refine accept_then_eq_ok.2 ⟨us, _, rfl, hus, fun _ => hxs' (by decide) (by decide), ?_⟩
  refine linkage_then_complete hxs (isReserved_of_ne hf (by decide)) hstring ?_
  refine bind_eq_ok.2 ⟨_, _, expect_eq_ok.2 ⟨hf, rfl⟩, ?_⟩
  refine bind_eq_ok.2 ⟨_, _, expect_eq_ok.2 ⟨ho, rfl⟩, ?_⟩
  refine bind_eq_ok.2 ⟨_, _, (typeList_exact hr).ok hparams hparams.closed, ?_⟩
  exact bind_eq_ok.2 ⟨_, _, (returned_exact hr).ok hresult hend, rfl⟩

end Functions

/-! ## Types -/

section Types

variable {r : Reader TypeExpr} {path ty : Phrase TypeExpr}

/-- The first lexeme of a type decides its form. -/
theorem typeOver_cons {l : Lexeme} {ls : List Lexeme} :
    typeOver r (l :: ls) =
      if isPathStart l then pathType r (l :: ls)
      else if isMark "&" l || isMark "&&" l then
        (do
          let _ ← accept (isOf .lifetime)
          let _ ← accept (isReserved "mut")
          return .compound .reference [← r] : Reader TypeExpr) ls
      else if isMark "*" l then
        (do
          let _ ← expect (fun l => isReserved "const" l || isReserved "mut" l)
          return .compound .pointer [← r] : Reader TypeExpr) ls
      else if isOf (.opening .paren) l then
        (do return .compound .tuple (← typeList r) : Reader TypeExpr) ls
      else if isOf (.opening .bracket) l then
        (do
          let element ← r
          if ← accept (isMark ";") then
            arrayLength
          let _ ← expect (isOf (.closing .bracket))
          return .compound .array [element] : Reader TypeExpr) ls
      else if isMark "!" l then .ok (.compound .never [], ls)
      else if isReserved "impl" l then
        (do return .compound .impl (← bounds r) : Reader TypeExpr) ls
      else if isReserved "dyn" l then
        (do return .compound .dyn (← bounds r) : Reader TypeExpr) ls
      else functionType r (l :: ls) := by
  rw [typeOver]
  simp only [ite_nextIs_cons, ite_accept_cons]
  rfl

theorem bounds_eq_ok (hr : ReadsInside r path ty) {ls rest : List Lexeme} {ts : List TypeExpr} :
    bounds r ls = .ok (ts, rest) ↔
      ∃ ms bs e, ls = ms ++ rest ∧ Chain true .bounds (IsBound path) ms bs e ∧ e.Closed rest ∧
        ts = bs.flatten := by
  have hchain := chain_exact (k := .bounds) (bound_exact hr)
  constructor
  · intro h
    obtain ⟨bs, mid, hbs, h₁⟩ := bind_eq_ok.1 h
    obtain ⟨rfl, rfl⟩ := pure_eq_ok.1 h₁
    obtain ⟨ms, e, rfl, hbs', hend⟩ := (hchain _ _ _).1 hbs
    exact ⟨ms, bs, e, rfl, hbs', hend, rfl⟩
  · rintro ⟨ms, bs, e, rfl, hbs, hend, rfl⟩
    exact bind_eq_ok.2 ⟨_, _, hchain.ok hbs hend, rfl⟩

theorem typeOver_sound (hr : ReadsInside r path ty) {ls rest : List Lexeme} {t : TypeExpr}
    (h : typeOver r ls = .ok (t, rest)) :
    ∃ ms e, ls = ms ++ rest ∧ TypeOver true path ty ms t e ∧ e.Closed rest := by
  cases ls with
  | nil => cases h
  | cons l ls =>
    rw [typeOver_cons] at h
    split at h
    · obtain ⟨ms, e, heq, hp, hend⟩ := (pathType_exact hr _ _ _).1 h
      exact ⟨ms, e, heq, .path hp, hend⟩
    split at h
    · rename_i hm
      obtain ⟨as, mid, rfl, has, -, h₁⟩ := accept_then_eq_ok.1 h
      obtain ⟨us, mid', rfl, hus, -, h₂⟩ := accept_then_eq_ok.1 h₁
      obtain ⟨t', last, ht, h₃⟩ := bind_eq_ok.1 h₂
      obtain ⟨rfl, rfl⟩ := pure_eq_ok.1 h₃
      obtain ⟨ms, e, rfl, ht', hend⟩ := (hr.exact_type _ _ _).1 ht
      exact ⟨_, e, by simp, .reference hm has hus ht', hend⟩
    split at h
    · rename_i hm
      obtain ⟨w, mid, hw, h₁⟩ := bind_eq_ok.1 h
      obtain ⟨hw', rfl⟩ := expect_eq_ok.1 hw
      obtain ⟨t', last, ht, h₂⟩ := bind_eq_ok.1 h₁
      obtain ⟨rfl, rfl⟩ := pure_eq_ok.1 h₂
      obtain ⟨ms, e, rfl, ht', hend⟩ := (hr.exact_type _ _ _).1 ht
      exact ⟨_, e, rfl, .pointer hm hw' ht', hend⟩
    split at h
    · rename_i ho
      obtain ⟨parts, last, hparts, h₁⟩ := bind_eq_ok.1 h
      obtain ⟨rfl, rfl⟩ := pure_eq_ok.1 h₁
      obtain ⟨ms, e, rfl, hparts', hend⟩ := (typeList_exact hr _ _ _).1 hparts
      exact ⟨_, e, rfl, .tuple ho hparts', hend⟩
    split at h
    · rename_i ho
      obtain ⟨t', mid, ht, h₁⟩ := bind_eq_ok.1 h
      obtain ⟨ms, e, rfl, ht', -⟩ := (hr.exact_type _ _ _).1 ht
      rcases ite_accept_eq_ok.1 h₁ with ⟨m, ns, rfl, hm, h₂⟩ | ⟨-, h₂⟩
      · obtain ⟨_, mid, hlen, h₃⟩ := bind_eq_ok.1 h₂
        obtain ⟨c, last, hc, h₄⟩ := bind_eq_ok.1 h₃
        obtain ⟨hc', rfl⟩ := expect_eq_ok.1 hc
        obtain ⟨rfl, rfl⟩ := pure_eq_ok.1 h₄
        obtain ⟨ns, rfl, hne, hall, -⟩ := arrayLength_eq_ok.1 hlen
        exact ⟨_, _, by simp, .array ho ht' hm hne hall hc', closed_default⟩
      · obtain ⟨c, last, hc, h₃⟩ := bind_eq_ok.1 h₂
        obtain ⟨hc', rfl⟩ := expect_eq_ok.1 hc
        obtain ⟨rfl, rfl⟩ := pure_eq_ok.1 h₃
        exact ⟨_, _, by simp, .slice ho ht' hc', closed_default⟩
    split at h
    · rename_i hm
      obtain ⟨rfl, rfl⟩ := Prod.mk.inj (Except.ok.inj h)
      exact ⟨[l], {}, rfl, .never hm, closed_default⟩
    split at h
    · rename_i hw
      obtain ⟨ts, last, hts, h₁⟩ := bind_eq_ok.1 h
      obtain ⟨rfl, rfl⟩ := pure_eq_ok.1 h₁
      obtain ⟨ms, bs, e, rfl, hbs, hend, rfl⟩ := (bounds_eq_ok hr).1 hts
      exact ⟨l :: ms, e, rfl, .impl hw hbs, hend⟩
    split at h
    · rename_i hw
      obtain ⟨ts, last, hts, h₁⟩ := bind_eq_ok.1 h
      obtain ⟨rfl, rfl⟩ := pure_eq_ok.1 h₁
      obtain ⟨ms, bs, e, rfl, hbs, hend, rfl⟩ := (bounds_eq_ok hr).1 hts
      exact ⟨l :: ms, e, rfl, .dyn hw hbs, hend⟩
    · exact functionType_sound hr h

theorem isPathStart_reference {m : Lexeme} (hm : (isMark "&" m || isMark "&&" m) = true) :
    ¬isPathStart m = true := by
  rcases Bool.or_eq_true_iff.1 hm with h | h <;> simp [not_isPathStart_of_mark h (by decide)]

theorem isLengthPart_closing {c : Lexeme} {d : Delimiter} (hc : isOf (.closing d) c = true) :
    isLengthPart c = false := by
  simp [isLengthPart, isFreeName, isOf, isMark, isOf_iff.1 hc]

theorem typeOver_word {word : String} {l : Lexeme} {ls : List Lexeme}
    (hw : isReserved word l = true) (hres : word ∈ reserved) :
    typeOver r (l :: ls) =
      if isReserved "impl" l then
        (do return .compound .impl (← bounds r) : Reader TypeExpr) ls
      else if isReserved "dyn" l then
        (do return .compound .dyn (← bounds r) : Reader TypeExpr) ls
      else functionType r (l :: ls) := by
  have hcls := (isReserved_iff.1 hw).1
  rw [typeOver_cons, if_neg (by simp [not_isPathStart_of_reserved hw hres]),
    if_neg (by simp [isMark, hcls]), if_neg (by simp [isMark, hcls]),
    if_neg (by simp [isOf, hcls]), if_neg (by simp [isOf, hcls]), if_neg (by simp [isMark, hcls])]

theorem typeOver_complete (hr : ReadsInside r path ty) {ms rest : List Lexeme} {t : TypeExpr}
    {e : Ends} (h : TypeOver true path ty ms t e) (hend : e.Closed rest) :
    typeOver r (ms ++ rest) = .ok (t, rest) := by
  cases h with
  | path hp =>
    have hread := (pathType_exact hr).ok hp hend
    obtain ⟨l, ms, rfl, hl⟩ := hp.head
    rw [List.cons_append, typeOver_cons, if_pos hl]
    exact hread
  | reference hm has hus ht =>
    have hpath := isPathStart_reference hm
    have hread := hr.exact_type.ok ht hend
    obtain ⟨l, ls, rfl, hl, -⟩ := hr.type_head _ _ _ ht
    obtain ⟨-, -, -, -, hlife, -, hmut⟩ := isTypeStart_apart hl
    rw [List.cons_append, typeOver_cons, if_neg hpath, if_pos hm, List.append_assoc,
      List.append_assoc]
    refine accept_then_eq_ok.2 ⟨_, _, rfl, has, fun _ => ?_, ?_⟩
    · rcases hus with rfl | ⟨u, rfl, hu⟩
      · exact hlife
      · simp [isOf, (isReserved_iff.1 hu).1]
    refine accept_then_eq_ok.2 ⟨_, _, rfl, hus, fun _ => hmut, ?_⟩
    exact bind_eq_ok.2 ⟨_, _, hread, rfl⟩
  | pointer hm hk ht =>
    have htext := (isMark_iff.1 hm).2
    rw [List.cons_append, typeOver_cons, if_neg (by simp [not_isPathStart_of_mark hm (by decide)]),
      if_neg (by simp [isMark, htext]), if_pos hm]
    refine bind_eq_ok.2 ⟨_, _, expect_eq_ok.2 ⟨hk, rfl⟩, ?_⟩
    exact bind_eq_ok.2 ⟨_, _, hr.exact_type.ok ht hend, rfl⟩
  | tuple ho hparts =>
    have hcls := isOf_iff.1 ho
    rw [List.cons_append, typeOver_cons, if_neg (by simp [not_isPathStart_of_opening ho]),
      if_neg (by simp [isMark, hcls]), if_neg (by simp [isMark, hcls]), if_pos ho]
    exact bind_eq_ok.2 ⟨_, _, (typeList_exact hr).ok hparts hend, rfl⟩
  | slice ho ht hc =>
    have hcls := isOf_iff.1 ho
    rw [List.cons_append, typeOver_cons, if_neg (by simp [not_isPathStart_of_opening ho]),
      if_neg (by simp [isMark, hcls]), if_neg (by simp [isMark, hcls]),
      if_neg (by simp [isOf, hcls]), if_pos ho, List.append_assoc]
    refine bind_eq_ok.2 ⟨_, _, hr.exact_type.ok ht (Inert.of_closing hc).closed, ?_⟩
    refine ite_accept_eq_ok.2 (.inr ⟨by simp [isMark, isOf_iff.1 hc], ?_⟩)
    exact bind_eq_ok.2 ⟨_, _, expect_eq_ok.2 ⟨hc, rfl⟩, rfl⟩
  | array ho ht hm hne hall hc =>
    have hcls := isOf_iff.1 ho
    have hstop := isLengthPart_closing hc
    rw [List.cons_append, typeOver_cons, if_neg (by simp [not_isPathStart_of_opening ho]),
      if_neg (by simp [isMark, hcls]), if_neg (by simp [isMark, hcls]),
      if_neg (by simp [isOf, hcls]), if_pos ho, List.append_assoc, List.cons_append,
      List.append_assoc]
    refine bind_eq_ok.2 ⟨_, _, hr.exact_type.ok ht (Inert.of_mark hm (by decide)).closed, ?_⟩
    refine ite_accept_eq_ok.2 (.inl ⟨_, _, rfl, hm, ?_⟩)
    refine bind_eq_ok.2 ⟨_, _, arrayLength_eq_ok.2 ⟨_, rfl, hne, hall, hstop⟩, ?_⟩
    exact bind_eq_ok.2 ⟨_, _, expect_eq_ok.2 ⟨hc, rfl⟩, rfl⟩
  | never hm =>
    obtain ⟨hcls, htext⟩ := isMark_iff.1 hm
    rw [List.cons_append, typeOver_cons, if_neg (by simp [not_isPathStart_of_mark hm (by decide)]),
      if_neg (by simp [isMark, htext]), if_neg (by simp [isMark, htext]),
      if_neg (by simp [isOf, hcls]), if_neg (by simp [isOf, hcls]), if_pos hm]
    rfl
  | impl hw hbs =>
    rw [List.cons_append, typeOver_word hw (by decide), if_pos hw]
    exact bind_eq_ok.2 ⟨_, _, (bounds_eq_ok hr).2 ⟨_, _, _, rfl, hbs, hend, rfl⟩, rfl⟩
  | dyn hw hbs =>
    rw [List.cons_append, typeOver_word hw (by decide),
      if_neg (by simp [isReserved_of_ne hw]), if_pos hw]
    exact bind_eq_ok.2 ⟨_, _, (bounds_eq_ok hr).2 ⟨_, _, _, rfl, hbs, hend, rfl⟩, rfl⟩
  | function hh hparams hresult =>
    have hread := functionType_complete hr hh hparams hresult hend
    obtain ⟨l, hs, rfl, hl⟩ := hh.head
    simp only [List.any_cons, List.any_nil, Bool.or_false, Bool.or_eq_true] at hl
    have hdispatch {word : String} (hw : isReserved word l = true) (hr' : word ∈ reserved)
        (h₁ : word ≠ "impl") (h₂ : word ≠ "dyn") {ns : List Lexeme} :
        typeOver r (l :: ns) = functionType r (l :: ns) := by
      rw [typeOver_word hw hr', if_neg (by simp [isReserved_of_ne hw h₁]),
        if_neg (by simp [isReserved_of_ne hw h₂])]
    rw [List.cons_append, List.cons_append] at hread ⊢
    rcases hl with hw | hw | hw | hw <;>
      rw [hdispatch hw (by decide) (by decide) (by decide), hread]

theorem typeOver_exact (hr : ReadsInside r path ty) :
    Exact (typeOver r) (TypeOver true path ty) := by
  intro ls t rest
  constructor
  · exact typeOver_sound hr
  · rintro ⟨ms, e, rfl, h, hend⟩
    exact typeOver_complete hr h hend

/-- Where only a path may stand, the reader of types is a reader of paths. -/
theorem pathOnly_exact (hr : ReadsInside r path ty) :
    Exact (pathOnly (typeOver r)) (PathOver true path ty) := by
  have hdispatch {l : Lexeme} {ls : List Lexeme} (hl : isPathStart l = true) :
      pathOnly (typeOver r) (l :: ls) = pathType r (l :: ls) := by
    rw [pathOnly, ite_nextIs_cons, if_pos hl, typeOver_cons, if_pos hl]
  intro ls t rest
  constructor
  · intro h
    cases ls with
    | nil => cases h
    | cons l ls =>
      by_cases hl : isPathStart l = true
      · rw [hdispatch hl] at h
        exact (pathType_exact hr _ _ _).1 h
      · rw [pathOnly, ite_nextIs_cons, if_neg hl] at h
        cases h
  · rintro ⟨ms, e, rfl, hp, hend⟩
    have hread := (pathType_exact hr).ok hp hend
    obtain ⟨l, ms, rfl, hl⟩ := hp.head
    exact (hdispatch hl).trans hread

end Types

/-! ## Derivations of bounded depth -/

mutual

/-- Innermost derivations of paths with a bound on their depth. -/
def PathWithin : Nat → Phrase TypeExpr
  | 0 => fun _ _ _ => False
  | n + 1 => PathOver true (PathWithin n) (TypeWithin n)

/-- Innermost derivations of types with a bound on their depth. -/
def TypeWithin : Nat → Phrase TypeExpr
  | 0 => fun _ _ _ => False
  | n + 1 => TypeOver true (PathWithin n) (TypeWithin n)

end

theorem readsInside_within (n : Nat) :
    ReadsInside (typeWithin n) (PathWithin n) (TypeWithin n) := by
  induction n with
  | zero =>
    have hnone {r : Reader TypeExpr} (h : ∀ ls a rest, r ls ≠ .ok (a, rest)) :
        Exact r fun _ _ _ => False := by
      intro ls a rest
      simp [h ls a rest]
    constructor
    · refine hnone fun ls a rest h => ?_
      obtain ⟨b, mid, -, h₁⟩ := bind_eq_ok.1 h
      cases b <;> cases h₁
    · exact hnone fun ls a rest h => by cases h
    · exact fun _ _ _ h => h.elim
    · exact fun _ _ _ h => h.elim
  | succ n ih =>
    constructor
    · exact pathOnly_exact ih
    · exact typeOver_exact ih
    · exact fun _ _ _ h => PathOver.head h
    · intro ls t e h
      obtain ⟨l, ms, rfl, hl, -⟩ := TypeOver.head h
      exact ⟨l, ms, rfl, hl, TypeOver.second h⟩

/-- No derivation is deeper than its lexemes are many. -/
theorem recast_within (n : Nat) :
    Recast True (n + 1) (IsPath true) (PathWithin n) ∧
      Recast True (n + 1) (IsType true) (TypeWithin n) := by
  induction n with
  | zero =>
    constructor
    · rintro ls t e hn ⟨h⟩
      obtain ⟨l, ms, rfl, -⟩ := h.head
      simp at hn
    · rintro ls t e hn ⟨h⟩
      obtain ⟨l, ms, rfl, -⟩ := h.head
      simp at hn
  | succ n ih =>
    obtain ⟨hpath, hty⟩ := recast_over ih.1 ih.2
    constructor
    · rintro ls t e hn ⟨h⟩
      exact hpath ls t e hn h
    · rintro ls t e hn ⟨h⟩
      exact hty ls t e hn h

theorem recast_of_within (n m : Nat) :
    Recast True m (PathWithin n) (IsPath true) ∧ Recast True m (TypeWithin n) (IsType true) := by
  induction n generalizing m with
  | zero => exact ⟨fun _ _ _ _ h => h.elim, fun _ _ _ _ h => h.elim⟩
  | succ n ih =>
    obtain ⟨hpath, hty⟩ := recast_over (ih m).1 (ih m).2
    constructor
    · intro ls t e hn h
      obtain ⟨t', e', h', hsame⟩ := hpath ls t e (by omega) h
      exact ⟨t', e', .mk h', hsame⟩
    · intro ls t e hn h
      obtain ⟨t', e', h', hsame⟩ := hty ls t e (by omega) h
      exact ⟨t', e', .mk h', hsame⟩

/-- A bound of the number of lexemes is enough to read a type to the end. -/
theorem bounded_eq_ok {ls : List Lexeme} {t : TypeExpr} :
    bounded typeWithin ls = .ok (t, []) ↔ ∃ e, IsType true ls t e := by
  constructor
  · intro h
    obtain ⟨ms, e, rfl, ht, -⟩ := ((readsInside_within _).exact_type _ _ _).1 h
    obtain ⟨t', e', ht', hsame⟩ := (recast_of_within _ (ms.length + 1)).2 _ _ _ (by omega) ht
    obtain ⟨rfl, rfl⟩ := hsame trivial
    exact ⟨e', by simpa using ht'⟩
  · rintro ⟨e, ht⟩
    obtain ⟨t', e', ht', hsame⟩ := (recast_within ls.length).2 _ _ _ (Nat.lt_succ_self _) ht
    obtain ⟨rfl, rfl⟩ := hsame trivial
    refine ((readsInside_within _).exact_type _ _ _).2 ⟨ls, e', by simp, ht', rfl⟩

theorem parse_eq_ok {text : List Char} {t : TypeExpr} :
    parse text = .ok t ↔ Lexable text ∧ ∃ e, IsType true (scan text).lexemes t e := by
  rw [← stuck_eq_none_iff, ← bounded_eq_ok]
  cases hread : bounded typeWithin (scan text).lexemes with
  | error ls => cases ls <;> simp [parse, hread]
  | ok r =>
    obtain ⟨t', rest⟩ := r
    cases rest with
    | nil => cases hstuck : (scan text).stuck <;> simp [parse, hread, hstuck]
    | cons l ls => simp [parse, hread]

/-- A text is read as a type exactly if the lexer knows all of it and its lexemes have a derivation
from the grammar. The type is then that of the derivation in which every `+` and every `::` goes on
with the innermost phrase that can take it. -/
theorem parse_exact (text : List Char) :
    ((∃ t, parse text = .ok t) ↔ Lexable text ∧ ∃ t e, IsType false (scan text).lexemes t e) ∧
      ∀ t, parse text = .ok t ↔ Lexable text ∧ ∃ e, IsType true (scan text).lexemes t e := by
  refine ⟨⟨?_, ?_⟩, fun t => parse_eq_ok⟩
  · rintro ⟨t, h⟩
    obtain ⟨hlex, e, ht⟩ := parse_eq_ok.1 h
    exact ⟨hlex, t, e, ht.free⟩
  · rintro ⟨hlex, t, e, ht⟩
    obtain ⟨t', e', ht'⟩ := ht.exists_innermost
    exact ⟨t', parse_eq_ok.2 ⟨hlex, e', ht'⟩⟩

/-- The last `+` could go on with either list of bounds, and goes on with the inner one. -/
theorem parse_exact_plus_inside :
    (∃ e, IsType true (scan "dyn F()->dyn A+B".toList).lexemes
      (.compound .dyn [.path none false [.callable "F"]]) e) ∧
    ¬∃ e, IsType true (scan "dyn F()->dyn A+B".toList).lexemes
      (.compound .dyn [.path none false [.callable "F"], .path none false [.plain "B"]]) e := by
  have hparse : parse "dyn F()->dyn A+B".toList =
      .ok (.compound .dyn [.path none false [.callable "F"]]) := by cbv
  obtain ⟨hlex, hinside⟩ := ((parse_exact _).2 _).1 hparse
  refine ⟨hinside, fun houtside => ?_⟩
  have hparse' := ((parse_exact _).2 _).2 ⟨hlex, houtside⟩
  rw [hparse] at hparse'
  cases hparse'

end TypeExpr

end InlineVariants
