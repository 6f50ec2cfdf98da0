import InlineVariants.Proofs.TypeExtent

/-!
# Types are made of words

What lexemes say as a type does not depend on where they stand: the rules of the grammar look at the
classes and the texts of lexemes only (`ByWord`), so lexemes with the same words have the same
derivations (`Respells`).

Trees are read as types by way of their spaced form. It has the words of the text that the trees came
from, so that the type is a type of the lexemes of that text.

Main statement: trees are read as a type exactly if the lexemes they are made of are derived from the
grammar (`Forms.ofTrees_eq_ok_iff`).
-/

namespace InlineVariants

open Text Lexeme

namespace TypeExpr

/-! ## Tests -/

/-- The test sees only the word of a lexeme. -/
def ByWord (test : Lexeme → Bool) : Prop := ∀ l m : Lexeme, m.word = l.word → test m = test l

section Tests

variable {test test' : Lexeme → Bool} {l m : Lexeme}

theorem ByWord.pass (h : ByWord test) (hw : m.word = l.word) (hl : test l = true) : test m = true := by
  rw [h l m hw, hl]

theorem ByWord.or (h : ByWord test) (h' : ByWord test') : ByWord fun l => test l || test' l := by
  intro l m hw
  simp only [h l m hw, h' l m hw]

theorem byWord_isMark (op : String) : ByWord (isMark op) := by
  intro l m hw
  obtain ⟨hc, ht⟩ := Prod.mk.inj hw
  simp only [isMark, hc, ht]

theorem byWord_isOf (cls : LexemeClass) : ByWord (isOf cls) := by
  intro l m hw
  simp only [isOf, (Prod.mk.inj hw).1]

theorem byWord_isReserved (word : String) : ByWord (isReserved word) := by
  intro l m hw
  obtain ⟨hc, ht⟩ := Prod.mk.inj hw
  simp only [isReserved, hc, ht]

theorem byWord_isFreeName : ByWord isFreeName := by
  intro l m hw
  obtain ⟨hc, ht⟩ := Prod.mk.inj hw
  simp only [isFreeName, hc, ht]

theorem byWord_isLengthPart : ByWord isLengthPart := by
  intro l m hw
  obtain ⟨hc, ht⟩ := Prod.mk.inj hw
  simp only [isLengthPart, isFreeName, isOf, isMark, hc, ht]

theorem byWord_takes (e : Ends) : ByWord e.takes := by
  intro l m hw
  obtain ⟨hc, ht⟩ := Prod.mk.inj hw
  simp only [Ends.takes, isMark, isOf, hc, ht]

theorem byWord_isSep (k : Link) : ByWord k.isSep := by
  cases k with
  | path => exact byWord_isMark "::"
  | bounds => exact byWord_isMark "+"

end Tests

/-! ## Words of parts -/

section Words

variable {l : Lexeme} {ls ls' ms : List Lexeme}

theorem wordsOf_eq_cons (h : wordsOf ms = wordsOf (l :: ls)) :
    ∃ m ms', ms = m :: ms' ∧ m.word = l.word ∧ wordsOf ms' = wordsOf ls :=
  List.map_eq_cons_iff.1 h

theorem wordsOf_eq_append (h : wordsOf ms = wordsOf (ls ++ ls')) :
    ∃ ms₁ ms₂, ms = ms₁ ++ ms₂ ∧ wordsOf ms₁ = wordsOf ls ∧ wordsOf ms₂ = wordsOf ls' :=
  List.map_eq_append_iff.1 (h.trans List.map_append)

theorem wordsOf_eq_single (h : wordsOf ms = wordsOf [l]) : ∃ m, ms = [m] ∧ m.word = l.word := by
  obtain ⟨m, ms', rfl, hm, hnil⟩ := wordsOf_eq_cons h
  obtain rfl := List.map_eq_nil_iff.1 hnil
  exact ⟨m, rfl, hm⟩

theorem texts_eq (h : wordsOf ms = wordsOf ls) : ms.map Lexeme.text = ls.map Lexeme.text := by
  simpa [wordsOf, Function.comp_def, Lexeme.word] using congrArg (List.map Prod.snd) h

theorem ByWord.all {test : Lexeme → Bool} (ht : ByWord test) (h : wordsOf ms = wordsOf ls)
    (hls : ∀ l ∈ ls, test l = true) : ∀ m ∈ ms, test m = true := by
  intro m hm
  have hword : m.word ∈ wordsOf ls := h ▸ List.mem_map_of_mem hm
  obtain ⟨l, hl, hlm⟩ := List.mem_map.1 hword
  exact ht.pass hlm.symm (hls l hl)

end Words

/-! ## Phrases -/

/-- Lexemes with the words of a phrase are such a phrase. It ends in the same way, and says the same
unless it speaks of the lexemes themselves. -/
def Respells (same : Prop) (p : Phrase α) : Prop :=
  ∀ ls a e, p ls a e → ∀ ms, wordsOf ms = wordsOf ls → ∃ b, p ms b e ∧ (same → b = a)

theorem Respells.apply {p : Phrase α} (h : Respells True p) {ls ms : List Lexeme} {a : α} {e : Ends}
    (ha : p ls a e) (hw : wordsOf ms = wordsOf ls) : p ms a e := by
  obtain ⟨b, hb, hsame⟩ := h ls a e ha ms hw
  exact hsame trivial ▸ hb

section Lists

variable {same : Prop} {close : Lexeme → Bool} {item : Phrase α}

theorem ListTail.respells (hclose : ByWord close) (hitem : Respells same item) :
    Respells same (ListTail close item) := by
  intro ls as e h
  induction h with
  | close hc =>
    intro ms hw
    obtain ⟨c', rfl, hc'⟩ := wordsOf_eq_single hw
    exact ⟨_, .close (hclose.pass hc' hc), fun _ => rfl⟩
  | trailing hx hc =>
    intro ms hw
    obtain ⟨x', ms, rfl, hx', hw⟩ := wordsOf_eq_cons hw
    obtain ⟨c', rfl, hc'⟩ := wordsOf_eq_single hw
    exact ⟨_, .trailing ((byWord_isMark _).pass hx' hx) (hclose.pass hc' hc), fun _ => rfl⟩
  | cons hx ha _ ih =>
    intro ms hw
    obtain ⟨x', ms, rfl, hx', hw⟩ := wordsOf_eq_cons hw
    obtain ⟨ls', ms', rfl, hls, hms⟩ := wordsOf_eq_append hw
    obtain ⟨b, hb, hsame⟩ := hitem _ _ _ ha _ hls
    obtain ⟨bs, hbs, hsame'⟩ := ih _ hms
    exact ⟨_, .cons ((byWord_isMark _).pass hx' hx) hb hbs, fun hs => by rw [hsame hs, hsame' hs]⟩

theorem Items.respells (hclose : ByWord close) (hitem : Respells same item) :
    Respells same (Items close item) := by
  rintro _ _ e ⟨ha, ht⟩ ms hw
  obtain ⟨ls', ms', rfl, hls, hms⟩ := wordsOf_eq_append hw
  obtain ⟨b, hb, hsame⟩ := hitem _ _ _ ha _ hls
  obtain ⟨bs, hbs, hsame'⟩ := ListTail.respells hclose hitem _ _ _ ht _ hms
  exact ⟨_, .mk hb hbs, fun hs => by rw [hsame hs, hsame' hs]⟩

theorem Listed.respells (hclose : ByWord close) (hitem : Respells same item) :
    Respells same (Listed close item) := by
  intro ls as e h ms hw
  cases h with
  | nil hc =>
    obtain ⟨c', rfl, hc'⟩ := wordsOf_eq_single hw
    exact ⟨_, .nil (hclose.pass hc' hc), fun _ => rfl⟩
  | some hi =>
    obtain ⟨bs, hbs, hsame⟩ := Items.respells hclose hitem _ _ _ hi _ hw
    exact ⟨_, .some hbs, hsame⟩

theorem Chain.respells {g : Bool} {k : Link} (hitem : Respells True item) :
    Respells True (Chain g k item) := by
  have htail {e₁ e : Ends} {ls : List Lexeme} {as : List α} (h : ChainTail g k item e₁ ls as e) :
      ∀ ms, wordsOf ms = wordsOf ls → ChainTail g k item e₁ ms as e := by
    induction h with
    | nil =>
      intro ms hw
      obtain rfl := List.map_eq_nil_iff.1 hw
      exact .nil
    | cons hs hcut ha _ ih =>
      intro ms hw
      obtain ⟨s', ms, rfl, hs', hw⟩ := wordsOf_eq_cons hw
      obtain ⟨ls', ms', rfl, hls, hms⟩ := wordsOf_eq_append hw
      refine .cons ((byWord_isSep k).pass hs' hs) (fun hg => ?_) (hitem.apply ha hls) (ih _ hms)
      rw [byWord_takes _ _ _ hs', hcut hg]
  rintro _ _ e ⟨ha, ht⟩ ms hw
  obtain ⟨ls', ms', rfl, hls, hms⟩ := wordsOf_eq_append hw
  exact ⟨_, .mk (hitem.apply ha hls) (htail ht _ hms), fun _ => rfl⟩

end Lists

section Runs

variable {ls ms : List Lexeme}

theorem One.respell {test : Lexeme → Bool} (ht : ByWord test) (h : One test ls)
    (hw : wordsOf ms = wordsOf ls) : One test ms := by
  obtain ⟨l, rfl, hl⟩ := h
  obtain ⟨m, rfl, hm⟩ := wordsOf_eq_single hw
  exact ⟨m, rfl, ht.pass hm hl⟩

theorem Maybe.respell {kind : List Lexeme → Prop} (h : Maybe kind ls)
    (hkind : kind ls → kind ms) (hw : wordsOf ms = wordsOf ls) : Maybe kind ms := by
  rcases h with rfl | h
  · exact .inl (List.map_eq_nil_iff.1 hw)
  · exact .inr (hkind h)

theorem TokenRun.respell (h : TokenRun ls) (hw : wordsOf ms = wordsOf ls) : TokenRun ms := by
  induction h generalizing ms with
  | nil =>
    obtain rfl := List.map_eq_nil_iff.1 hw
    exact .nil
  | leaf hl _ ih =>
    obtain ⟨m, ms, rfl, hm, hw⟩ := wordsOf_eq_cons hw
    exact .leaf (fun d => (Prod.mk.inj hm).1 ▸ hl d) (ih hw)
  | group ho _ hc _ ihin ih =>
    obtain ⟨o', ms, rfl, ho', hw⟩ := wordsOf_eq_cons hw
    obtain ⟨ms, ms', rfl, hin, hw⟩ := wordsOf_eq_append hw
    obtain ⟨c', ms', rfl, hc', hw⟩ := wordsOf_eq_cons hw
    exact .group ((Prod.mk.inj ho').1.trans ho) (ihin hin) ((Prod.mk.inj hc').1.trans hc) (ih hw)

theorem Binder.respell (h : Binder ls) (hw : wordsOf ms = wordsOf ls) : Binder ms := by
  obtain ⟨f, o, ls, as, e, rfl, hf, ho, hitems⟩ := h
  obtain ⟨f', ms, rfl, hf', hw⟩ := wordsOf_eq_cons hw
  obtain ⟨o', ms, rfl, ho', hw⟩ := wordsOf_eq_cons hw
  have hlifetime : Respells False
      (fun ls l e => ls = [l] ∧ isOf .lifetime l = true ∧ e = ({} : Ends)) := by
    rintro _ l _ ⟨rfl, hl, rfl⟩ ms hw
    obtain ⟨m, rfl, hm⟩ := wordsOf_eq_single hw
    exact ⟨m, ⟨rfl, (byWord_isOf _).pass hm hl, rfl⟩, False.elim⟩
  obtain ⟨bs, hbs, -⟩ := Items.respells (byWord_isMark ">") hlifetime _ _ _ hitems _ hw
  exact ⟨f', o', ms, bs, e, rfl, (byWord_isReserved _).pass hf' hf, (byWord_isMark _).pass ho' ho, hbs⟩

theorem Linkage.respell (h : Linkage ls) (hw : wordsOf ms = wordsOf ls) : Linkage ms := by
  obtain ⟨x, ls, rfl, hx, hname⟩ := h
  obtain ⟨x', ms, rfl, hx', hw⟩ := wordsOf_eq_cons hw
  exact ⟨x', ms, rfl, (byWord_isReserved _).pass hx' hx,
    hname.respell (·.respell (byWord_isOf _) hw) hw⟩

theorem FunctionHead.respell (h : FunctionHead ls) (hw : wordsOf ms = wordsOf ls) :
    FunctionHead ms := by
  obtain ⟨bs, us, xs, f, o, rfl, hb, hu, hx, hf, ho⟩ := h
  obtain ⟨bs', ms, rfl, hbs, hw⟩ := wordsOf_eq_append hw
  obtain ⟨us', ms, rfl, hus, hw⟩ := wordsOf_eq_append hw
  obtain ⟨xs', ms, rfl, hxs, hw⟩ := wordsOf_eq_append hw
  obtain ⟨f', ms, rfl, hf', hw⟩ := wordsOf_eq_cons hw
  obtain ⟨o', rfl, ho'⟩ := wordsOf_eq_single hw
  exact ⟨bs', us', xs', f', o', rfl, hb.respell (·.respell hbs) hbs,
    hu.respell (·.respell (byWord_isReserved _) hus) hus, hx.respell (·.respell hxs) hxs,
    (byWord_isReserved _).pass hf' hf, (byWord_isOf _).pass ho' ho⟩

end Runs

section Rules

variable {g : Bool} {path ty : Phrase TypeExpr}

theorem Returned.respells (hty : Respells True ty) : Respells True (Returned ty) := by
  intro ls ts e h ms hw
  cases h with
  | none =>
    obtain rfl := List.map_eq_nil_iff.1 hw
    exact ⟨_, .none, fun _ => rfl⟩
  | some hm ht =>
    obtain ⟨m', ms, rfl, hm', hw⟩ := wordsOf_eq_cons hw
    exact ⟨_, .some ((byWord_isMark _).pass hm' hm) (hty.apply ht hw), fun _ => rfl⟩

theorem isBareName_eq {ls ms : List Lexeme} (hw : wordsOf ms = wordsOf ls) :
    isBareName ms = isBareName ls := by
  match ls with
  | [] =>
    obtain rfl := List.map_eq_nil_iff.1 hw
    rfl
  | [l] =>
    obtain ⟨m, rfl, hm⟩ := wordsOf_eq_single hw
    exact byWord_isFreeName _ _ hm
  | _ :: _ :: _ =>
    obtain ⟨_, ms, rfl, -, hw⟩ := wordsOf_eq_cons hw
    obtain ⟨_, ms, rfl, -⟩ := wordsOf_eq_cons hw
    rfl

theorem IsArg.respells (hty : Respells True ty) : Respells True (IsArg ty) := by
  intro ls a e h ms hw
  cases h with
  | type ht =>
    refine ⟨_, ?_, fun _ => rfl⟩
    rw [← isBareName_eq hw]
    exact .type (hty.apply ht hw)
  | lifetime hl =>
    obtain ⟨l', rfl, hl'⟩ := wordsOf_eq_single hw
    rw [← (Prod.mk.inj hl').2]
    exact ⟨_, .lifetime ((byWord_isOf _).pass hl' hl), fun _ => rfl⟩
  | binding hl hm ht =>
    obtain ⟨l', ms, rfl, hl', hw⟩ := wordsOf_eq_cons hw
    obtain ⟨m', ms, rfl, hm', hw⟩ := wordsOf_eq_cons hw
    rw [← (Prod.mk.inj hl').2]
    exact ⟨_, .binding (byWord_isFreeName.pass hl' hl) ((byWord_isMark _).pass hm' hm)
      (hty.apply ht hw), fun _ => rfl⟩
  | literal hl =>
    obtain ⟨l', rfl, hl'⟩ := wordsOf_eq_single hw
    have htest : ByWord fun l => isOf .number l || isOf .string l || isOf .char l :=
      ((byWord_isOf _).or (byWord_isOf _)).or (byWord_isOf _)
    rw [← (Prod.mk.inj hl').2]
    exact ⟨_, .literal (htest.pass hl' hl), fun _ => rfl⟩
  | negative hm hl =>
    obtain ⟨m', ms, rfl, hm', hw⟩ := wordsOf_eq_cons hw
    obtain ⟨l', rfl, hl'⟩ := wordsOf_eq_single hw
    rw [← (Prod.mk.inj hl').2, ← (Prod.mk.inj hm').2]
    exact ⟨_, .negative ((byWord_isMark _).pass hm' hm) ((byWord_isOf _).pass hl' hl), fun _ => rfl⟩
  | braced ho hr hc =>
    have htexts := texts_eq hw
    obtain ⟨o', ms, rfl, ho', hw⟩ := wordsOf_eq_cons hw
    obtain ⟨ms, cs, rfl, hms, hw⟩ := wordsOf_eq_append hw
    obtain ⟨c', rfl, hc'⟩ := wordsOf_eq_single hw
    refine ⟨_, ?_, fun _ => rfl⟩
    rw [← List.map_cons, ← htexts, List.map_cons]
    exact .braced ((byWord_isOf _).pass ho' ho) (hr.respell hms) ((byWord_isOf _).pass hc' hc)

theorem IsSegment.respells (hty : Respells True ty) : Respells True (IsSegment ty) := by
  intro ls a e h ms hw
  cases h with
  | plain hl =>
    obtain ⟨l', rfl, hl'⟩ := wordsOf_eq_single hw
    rw [← (Prod.mk.inj hl').2]
    exact ⟨_, .plain (byWord_isFreeName.pass hl' hl), fun _ => rfl⟩
  | generic hl ho hargs =>
    obtain ⟨l', ms, rfl, hl', hw⟩ := wordsOf_eq_cons hw
    obtain ⟨o', ms, rfl, ho', hw⟩ := wordsOf_eq_cons hw
    have hargs' := (Listed.respells (byWord_isMark ">") (IsArg.respells hty)).apply hargs hw
    rw [← (Prod.mk.inj hl').2]
    exact ⟨_, .generic (byWord_isFreeName.pass hl' hl) ((byWord_isMark _).pass ho' ho) hargs',
      fun _ => rfl⟩
  | callable hl ho hparams hresult =>
    obtain ⟨l', ms, rfl, hl', hw⟩ := wordsOf_eq_cons hw
    obtain ⟨o', ms, rfl, ho', hw⟩ := wordsOf_eq_cons hw
    obtain ⟨ms, ms', rfl, hms, hw⟩ := wordsOf_eq_append hw
    have hparams' := (Listed.respells (byWord_isOf (.closing .paren)) hty).apply hparams hms
    rw [← (Prod.mk.inj hl').2]
    exact ⟨_, .callable (byWord_isFreeName.pass hl' hl) ((byWord_isOf _).pass ho' ho) hparams'
      ((Returned.respells hty).apply hresult hw), fun _ => rfl⟩

theorem SelfType.respells (hpath : Respells True path) (hty : Respells True ty) :
    Respells True (SelfType path ty) := by
  intro ls t e h ms hw
  cases h with
  | plain ht hc =>
    obtain ⟨ms, cs, rfl, hms, hw⟩ := wordsOf_eq_append hw
    obtain ⟨c', rfl, hc'⟩ := wordsOf_eq_single hw
    exact ⟨_, .plain (hty.apply ht hms) ((byWord_isMark _).pass hc' hc), fun _ => rfl⟩
  | ofTrait ht hm htrait hc =>
    obtain ⟨ms, ns, rfl, hms, hw⟩ := wordsOf_eq_append hw
    obtain ⟨m', ns, rfl, hm', hw⟩ := wordsOf_eq_cons hw
    obtain ⟨ns, cs, rfl, hns, hw⟩ := wordsOf_eq_append hw
    obtain ⟨c', rfl, hc'⟩ := wordsOf_eq_single hw
    exact ⟨_, .ofTrait (hty.apply ht hms) ((byWord_isReserved _).pass hm' hm)
      (hpath.apply htrait hns) ((byWord_isMark _).pass hc' hc), fun _ => rfl⟩

theorem PathOver.respells (hpath : Respells True path) (hty : Respells True ty) :
    Respells True (PathOver g path ty) := by
  have hsegs : Respells True (Chain g .path (IsSegment ty)) :=
    Chain.respells (IsSegment.respells hty)
  intro ls t e h ms hw
  cases h with
  | relative hs => exact ⟨_, .relative (hsegs.apply hs hw), fun _ => rfl⟩
  | absolute hm hs =>
    obtain ⟨m', ms, rfl, hm', hw⟩ := wordsOf_eq_cons hw
    exact ⟨_, .absolute ((byWord_isMark _).pass hm' hm) (hsegs.apply hs hw), fun _ => rfl⟩
  | qualified ho hself hm hs =>
    obtain ⟨o', ms, rfl, ho', hw⟩ := wordsOf_eq_cons hw
    obtain ⟨ms, ns, rfl, hms, hw⟩ := wordsOf_eq_append hw
    obtain ⟨m', ns, rfl, hm', hw⟩ := wordsOf_eq_cons hw
    exact ⟨_, .qualified ((byWord_isMark _).pass ho' ho)
      ((SelfType.respells hpath hty).apply hself hms) ((byWord_isMark _).pass hm' hm)
      (hsegs.apply hs hw), fun _ => rfl⟩

theorem IsBound.respells (hpath : Respells True path) : Respells True (IsBound path) := by
  intro ls ts e h ms hw
  cases h with
  | plain hp => exact ⟨_, .plain (hpath.apply hp hw), fun _ => rfl⟩
  | lifetime hl =>
    obtain ⟨l', rfl, hl'⟩ := wordsOf_eq_single hw
    exact ⟨_, .lifetime ((byWord_isOf _).pass hl' hl), fun _ => rfl⟩
  | relaxed hm hp =>
    obtain ⟨m', ms, rfl, hm', hw⟩ := wordsOf_eq_cons hw
    exact ⟨_, .relaxed ((byWord_isMark _).pass hm' hm) (hpath.apply hp hw), fun _ => rfl⟩
  | bound hb hp =>
    obtain ⟨ms, ns, rfl, hms, hw⟩ := wordsOf_eq_append hw
    exact ⟨_, .bound (hb.respell hms) (hpath.apply hp hw), fun _ => rfl⟩

theorem TypeOver.respells (hpath : Respells True path) (hty : Respells True ty) :
    Respells True (TypeOver g path ty) := by
  have hbounds : Respells True (Chain g .bounds (IsBound path)) :=
    Chain.respells (IsBound.respells hpath)
  have hlist : Respells True (Listed (isOf (.closing .paren)) ty) :=
    Listed.respells (byWord_isOf _) hty
  intro ls t e h ms hw
  cases h with
  | path hp => exact ⟨_, .path ((PathOver.respells hpath hty).apply hp hw), fun _ => rfl⟩
  | reference hm ha hu ht =>
    obtain ⟨m', ms, rfl, hm', hw⟩ := wordsOf_eq_cons hw
    obtain ⟨as, ms, rfl, has, hw⟩ := wordsOf_eq_append hw
    obtain ⟨us, ms, rfl, hus, hw⟩ := wordsOf_eq_append hw
    have htest : ByWord fun l => isMark "&" l || isMark "&&" l :=
      (byWord_isMark _).or (byWord_isMark _)
    exact ⟨_, .reference (htest.pass hm' hm) (ha.respell (·.respell (byWord_isOf _) has) has)
      (hu.respell (·.respell (byWord_isReserved _) hus) hus) (hty.apply ht hw), fun _ => rfl⟩
  | pointer hm hk ht =>
    obtain ⟨m', ms, rfl, hm', hw⟩ := wordsOf_eq_cons hw
    obtain ⟨k', ms, rfl, hk', hw⟩ := wordsOf_eq_cons hw
    have htest : ByWord fun l => isReserved "const" l || isReserved "mut" l :=
      (byWord_isReserved _).or (byWord_isReserved _)
    exact ⟨_, .pointer ((byWord_isMark _).pass hm' hm) (htest.pass hk' hk) (hty.apply ht hw),
      fun _ => rfl⟩
  | tuple ho hparts =>
    obtain ⟨o', ms, rfl, ho', hw⟩ := wordsOf_eq_cons hw
    exact ⟨_, .tuple ((byWord_isOf _).pass ho' ho) (hlist.apply hparts hw), fun _ => rfl⟩
  | slice ho ht hc =>
    obtain ⟨o', ms, rfl, ho', hw⟩ := wordsOf_eq_cons hw
    obtain ⟨ms, cs, rfl, hms, hw⟩ := wordsOf_eq_append hw
    obtain ⟨c', rfl, hc'⟩ := wordsOf_eq_single hw
    exact ⟨_, .slice ((byWord_isOf _).pass ho' ho) (hty.apply ht hms) ((byWord_isOf _).pass hc' hc),
      fun _ => rfl⟩
  | array ho ht hm hne hlen hc =>
    obtain ⟨o', ms, rfl, ho', hw⟩ := wordsOf_eq_cons hw
    obtain ⟨ms, ns, rfl, hms, hw⟩ := wordsOf_eq_append hw
    obtain ⟨m', ns, rfl, hm', hw⟩ := wordsOf_eq_cons hw
    obtain ⟨ns, cs, rfl, hns, hw⟩ := wordsOf_eq_append hw
    obtain ⟨c', rfl, hc'⟩ := wordsOf_eq_single hw
    refine ⟨_, .array ((byWord_isOf _).pass ho' ho) (hty.apply ht hms)
      ((byWord_isMark _).pass hm' hm) ?_ ?_ ((byWord_isOf _).pass hc' hc), fun _ => rfl⟩
    · rintro rfl
      exact hne (List.map_eq_nil_iff.1 hns.symm)
    · exact byWord_isLengthPart.all hns hlen
  | never hm =>
    obtain ⟨m', rfl, hm'⟩ := wordsOf_eq_single hw
    exact ⟨_, .never ((byWord_isMark _).pass hm' hm), fun _ => rfl⟩
  | impl hword hbs =>
    obtain ⟨w', ms, rfl, hw', hw⟩ := wordsOf_eq_cons hw
    exact ⟨_, .impl ((byWord_isReserved _).pass hw' hword) (hbounds.apply hbs hw), fun _ => rfl⟩
  | dyn hword hbs =>
    obtain ⟨w', ms, rfl, hw', hw⟩ := wordsOf_eq_cons hw
    exact ⟨_, .dyn ((byWord_isReserved _).pass hw' hword) (hbounds.apply hbs hw), fun _ => rfl⟩
  | function hh hparams hresult =>
    obtain ⟨hs, ms, rfl, hhs, hw⟩ := wordsOf_eq_append hw
    obtain ⟨ms, ns, rfl, hms, hw⟩ := wordsOf_eq_append hw
    exact ⟨_, .function (hh.respell hhs) (hlist.apply hparams hms)
      ((Returned.respells hty).apply hresult hw), fun _ => rfl⟩

end Rules

theorem respells_within (n : Nat) : Respells True (PathWithin n) ∧ Respells True (TypeWithin n) := by
  induction n with
  | zero => exact ⟨fun _ _ _ h => h.elim, fun _ _ _ h => h.elim⟩
  | succ n ih => exact ⟨PathOver.respells ih.1 ih.2, TypeOver.respells ih.1 ih.2⟩

/-- Lexemes with the words of a type are that type. -/
theorem IsType.respells : Respells True (IsType true) := by
  intro ls t e h ms hw
  obtain ⟨t', e', h', hsame⟩ := (recast_within ls.length).2 _ _ _ (Nat.lt_succ_self _) h
  obtain ⟨rfl, rfl⟩ := hsame trivial
  have hms := (respells_within _).2.apply h' hw
  obtain ⟨u, e'', hu, hsame⟩ := (recast_of_within _ (ms.length + 1)).2 _ _ _ (Nat.lt_succ_self _) hms
  obtain ⟨rfl, rfl⟩ := hsame trivial
  exact ⟨u, hu, fun _ => rfl⟩

end TypeExpr

/-! ## Trees as types -/

/-- Trees are read as a type exactly if the lexemes they are made of are derived from the grammar. -/
theorem Forms.ofTrees_eq_ok_iff {file : Option String} {ls : List Lexeme} {ts : List Tree}
    (h : Forms file ls ts) {t : TypeExpr} :
    TypeExpr.ofTrees ts = .ok t ↔ ∃ e, TypeExpr.IsType true ls t e := by
  obtain ⟨hstuck, hwords⟩ := h.scan_spaced
  rw [TypeExpr.ofTrees_eq_ok_iff, TypeExpr.parse_eq_ok]
  constructor
  · rintro ⟨-, e, ht⟩
    exact ⟨e, TypeExpr.IsType.respells.apply ht hwords.symm⟩
  · rintro ⟨e, ht⟩
    exact ⟨stuck_eq_none_iff.1 hstuck, e, TypeExpr.IsType.respells.apply ht hwords⟩

end InlineVariants
