import InlineVariants.Proofs.Locating
import InlineVariants.Proofs.Walking
import Mathlib.Data.List.Pairwise

/-!
# Markers in the order of the text

A walk over the trees of a text comes by its markers from the left to the right, and by a marker before
those in its payloads. So a marker that is visited later stands behind the group of the earlier one, or
inside that group and behind the name of the variant that is defined there.

Main statements: `Walker.visits_ordered`, and from it that declarations come in the order in which their
names stand in the text (`walk_declarations_ordered`).
-/

namespace InlineVariants

open Text

/-! ## Lists of trees that take turns -/

/-- The lists stand in the text between two offsets, one behind the other, with anything between them. -/
def LieInTurn (file : Option String) (s : List Char) (a b : Nat) : List (List Tree) → Prop
  | [] => a ≤ b
  | ts :: more => ∃ i j, a ≤ i ∧ LieBetween file s i j ts ∧ LieInTurn file s j b more

namespace LieInTurn

variable {file : Option String} {s : List Char} {a b c : Nat} {ts : List Tree}
  {lists more : List (List Tree)}

theorem of_le (h : LieInTurn file s b c lists) (hab : a ≤ b) : LieInTurn file s a c lists := by
  cases lists with
  | nil => exact Nat.le_trans hab h
  | cons ts lists =>
    obtain ⟨i, j, hi, hts, hrest⟩ := h
    exact ⟨i, j, Nat.le_trans hab hi, hts, hrest⟩

theorem append (h : LieInTurn file s a b lists) (h' : LieInTurn file s b c more) :
    LieInTurn file s a c (lists ++ more) := by
  induction lists generalizing a with
  | nil => exact h'.of_le h
  | cons ts lists ih =>
    obtain ⟨i, j, hi, hts, hrest⟩ := h
    exact ⟨i, j, hi, hts, ih hrest⟩

theorem sublist (h : LieInTurn file s a b lists) (hs : more.Sublist lists) :
    LieInTurn file s a b more := by
  induction hs generalizing a with
  | slnil => exact h
  | cons ts _ ih =>
    obtain ⟨i, j, hi, hts, hrest⟩ := h
    exact (ih hrest).of_le (Nat.le_trans hi hts.le)
  | cons_cons ts _ ih =>
    obtain ⟨i, j, hi, hts, hrest⟩ := h
    exact ⟨i, j, hi, hts, ih hrest⟩

theorem le (h : LieInTurn file s a b lists) : a ≤ b := h.sublist (List.nil_sublist lists)

/-- Stretches of a list that lies in the text take turns there. -/
theorem of_segments (h : Segments lists ts) (hts : LieBetween file s a b ts) :
    LieInTurn file s a b lists := by
  induction h generalizing a with
  | nil => exact hts.le
  | cons _ ih =>
    obtain ⟨i, hbefore, hrest⟩ := hts.append_inv
    obtain ⟨j, hseg, hafter⟩ := hrest.append_inv
    exact ⟨i, j, hbefore.le, hseg, ih hafter⟩

theorem of_part {us : List Tree} (h : us <:+: ts) (hts : LieBetween file s a b ts) :
    LieInTurn file s a b [us] := by
  obtain ⟨pre, post, rfl⟩ := h
  rw [List.append_assoc] at hts
  exact of_segments (.cons .nil) hts

end LieInTurn

/-! ## Definitions in the text -/

section

variable {file : Option String} {s : List Char} {a b : Nat}

theorem NamedField.values_sublist (fs : List NamedField) :
    (fs.map value).Sublist (fs.flatMap fun f => [[f.name.tree], f.value]) := by
  induction fs with
  | nil => exact .slnil
  | cons f fs ih => exact .cons _ (.cons_cons _ ih)

/-- The values of fields take turns in the group of fields, and what comes behind the group stands
behind them. -/
theorem Fields.TakenFrom.lie {fields : Fields} {rest ahead : List Tree}
    (h : fields.TakenFrom rest ahead) (ha : LieBetween file s a b ahead) :
    ∃ c, LieInTurn file s a c fields.values ∧ LieBetween file s c b rest := by
  have hgroup {d : Delimiter} {inner : List Tree} {span : Span} {lists : List (List Tree)}
      (hs : Segments lists inner) (ha : LieBetween file s a b (.group d inner span :: rest)) :
      ∃ c, LieInTurn file s a c lists ∧ LieBetween file s c b rest := by
    obtain ⟨i, j, hi, -, -, ht, hrest⟩ := ha
    have hlists : LieInTurn file s a (j - 1) lists :=
      (LieInTurn.of_segments hs ht.inner).of_le (Nat.le_succ_of_le hi)
    have hend : LieInTurn file s (j - 1) j [] := Nat.sub_le j 1
    exact ⟨j, by simpa using hlists.append hend, hrest⟩
  cases fields with
  | unit => exact ⟨a, Nat.le_refl a, h ▸ ha⟩
  | named fs =>
    obtain ⟨inner, span, rfl, -, hs⟩ := h
    obtain ⟨c, hlists, hrest⟩ := hgroup hs ha
    exact ⟨c, hlists.sublist (NamedField.values_sublist fs), hrest⟩
  | unnamed fs =>
    obtain ⟨inner, span, rfl, -, hs⟩ := h
    obtain ⟨c, hlists, hrest⟩ := hgroup hs ha
    rw [← List.map_eq_flatMap] at hlists
    exact ⟨c, hlists, hrest⟩

/-- The name of a definition stands in the contents of its marker, and the payloads take turns behind
it. -/
theorem Variant.TakenFrom.lie {v : Variant} {contents : List Tree} (h : v.TakenFrom contents)
    (hc : LieBetween file s a b contents) :
    ∃ n m, a ≤ n ∧ v.name.tree.LiesAt file s n m ∧ LieInTurn file s m b v.payloads := by
  obtain ⟨before, ahead, rest, rfl, hfields, hdiscriminant⟩ := h
  obtain ⟨k, hbefore, n, m, hn, -, -, hname, hahead⟩ := hc.append_inv
  obtain ⟨e, hvalues, hrest⟩ := hfields.lie hahead
  refine ⟨n, m, Nat.le_trans hbefore.le hn, hname, hvalues.append ?_⟩
  cases hd : v.discriminant with
  | none => exact hrest.le
  | some value => exact .of_part (hdiscriminant value hd).2 hrest

end

/-! ## Visits in the text -/

namespace Visit

/-- The first marker stands in the group of the second one. -/
def Inside (y x : Visit) : Prop :=
  x.groupSpan.startOffset < y.nameSpan.startOffset ∧ y.groupSpan.stopOffset < x.groupSpan.stopOffset

/-- The first marker stands behind the second one. -/
def Behind (y x : Visit) : Prop := x.groupSpan.stopOffset ≤ y.nameSpan.startOffset

/-- How two markers stand if the first one is visited first: one behind the other, or the second one
in the group of the first and behind the name that is defined there. -/
def Precedes (x y : Visit) : Prop :=
  y.Behind x ∨ y.Inside x ∧ ∃ v, x.parsed? = some v ∧ v.name.span.stopOffset ≤ y.nameSpan.startOffset

/-- The marker stands in the text between two offsets. -/
def Lies (w : Walker) (file : Option String) (s : List Char) (a b : Nat) (x : Visit) : Prop :=
  ∃ d i j k l, a ≤ i ∧ j ≤ k ∧ l ≤ b ∧ (Tree.ident w.marker x.nameSpan).LiesAt file s i j ∧
    (Tree.group d x.contents x.groupSpan).LiesAt file s k l

/-- The marker is made of three trees, one behind the other, in the list or in a group at any depth. -/
inductive StandsIn (w : Walker) (x : Visit) : List Tree → Prop
  | here (pre : List Tree) {post : List Tree} {opSpan : Span} {d : Delimiter} : d ≠ .invisible →
      StandsIn w x (pre ++ .ident w.marker x.nameSpan :: .punct "!" opSpan ::
        .group d x.contents x.groupSpan :: post)
  | inside {d : Delimiter} {contents ts : List Tree} {span : Span} :
      .group d contents span ∈ ts → StandsIn w x contents → StandsIn w x ts

section

variable {w : Walker} {file : Option String} {s : List Char} {a a' b b' : Nat} {x : Visit}

theorem Lies.mono (h : x.Lies w file s a b) (ha : a' ≤ a) (hb : b ≤ b') : x.Lies w file s a' b' := by
  obtain ⟨d, i, j, k, l, hi, hjk, hl, hname, hgroup⟩ := h
  exact ⟨d, i, j, k, l, Nat.le_trans ha hi, hjk, Nat.le_trans hl hb, hname, hgroup⟩

theorem Lies.offsets (h : x.Lies w file s a b) :
    a ≤ x.nameSpan.startOffset ∧ x.nameSpan.startOffset < x.groupSpan.startOffset ∧
      x.groupSpan.startOffset < x.groupSpan.stopOffset ∧ x.groupSpan.stopOffset ≤ b := by
  obtain ⟨d, i, j, k, l, hi, hjk, hl, hname, hgroup⟩ := h
  have hstart : x.nameSpan.startOffset = i := hname.startOffset
  have hgstart : x.groupSpan.startOffset = k := hgroup.startOffset
  have hgstop : x.groupSpan.stopOffset = l := hgroup.stopOffset
  have := hname.bounds
  have := hgroup.bounds
  omega

/-- The name of what a marker defines stands between its brackets. -/
theorem Lies.name {v : Variant} (h : x.Lies w file s a b) (hv : x.parsed? = some v) :
    ∃ n m, v.name.tree.LiesAt file s n m ∧ x.groupSpan.startOffset < n ∧
      m < x.groupSpan.stopOffset := by
  obtain ⟨d, i, j, k, l, -, -, -, -, hgroup⟩ := h
  have htaken := (Variant.parse_spec _ _).2 v (parsed?_eq_some.1 hv)
  obtain ⟨n, m, hn, hname, hpayloads⟩ := htaken.lie hgroup.inner
  have hstart : x.groupSpan.startOffset = k := hgroup.startOffset
  have hstop : x.groupSpan.stopOffset = l := hgroup.stopOffset
  have := hpayloads.le
  have := hgroup.bounds
  exact ⟨n, m, hname, by omega, by omega⟩

/-- What a marker defines before another one is visited has its name in front of what the other one
defines. -/
theorem Precedes.name_lt {y : Visit} {u v : Variant} (h : x.Precedes y) (hx : x.Lies w file s a b)
    (hy : y.Lies w file s a' b') (hv : x.parsed? = some v) (hu : y.parsed? = some u) :
    v.name.span.startOffset < u.name.span.startOffset := by
  obtain ⟨n, m, hvname, hn, hm⟩ := hx.name hv
  obtain ⟨n', m', huname, hn', hm'⟩ := hy.name hu
  have hvstart : v.name.span.startOffset = n := hvname.startOffset
  have hvstop : v.name.span.stopOffset = m := hvname.stopOffset
  have hustart : u.name.span.startOffset = n' := huname.startOffset
  have hbounds := hvname.bounds
  have hoffsets := hy.offsets
  rcases h with hbehind | ⟨-, v', hv', hstop⟩
  · have : x.groupSpan.stopOffset ≤ y.nameSpan.startOffset := hbehind
    omega
  · obtain rfl : v = v' := Option.some.inj (hv.symm.trans hv')
    omega

/-- Markers that are visited one after the other are different ones. -/
theorem Precedes.start_lt {y : Visit} (h : x.Precedes y) (hx : x.Lies w file s a b)
    (hy : y.Lies w file s a' b') : x.groupSpan.startOffset < y.groupSpan.startOffset := by
  have hxo := hx.offsets
  have hyo := hy.offsets
  rcases h with hbehind | ⟨⟨hinside, -⟩, -⟩
  · have : x.groupSpan.stopOffset ≤ y.nameSpan.startOffset := hbehind
    omega
  · omega

theorem StandsIn.within {ts : List Tree} (h : x.StandsIn w ts) (kind : PayloadKind) :
    (x.within kind).StandsIn w ts := by
  induction h with
  | here pre hd => exact .here pre hd
  | inside hmem _ ih => exact .inside hmem ih

theorem StandsIn.of_part {ts us : List Tree} (h : x.StandsIn w ts) (hp : ts <:+: us) :
    x.StandsIn w us := by
  cases h with
  | here pre hd =>
    obtain ⟨first, last, rfl⟩ := hp
    rw [← List.append_assoc, List.append_assoc]
    exact .here (first ++ pre) hd
  | inside hmem h => exact .inside (hp.mem hmem) h

end

end Visit

/-- The markers lie in the text between two offsets, in the order in which they are visited. -/
structure Ordered (w : Walker) (file : Option String) (s : List Char) (a b : Nat)
    (xs : List Visit) : Prop where
  lie : ∀ x ∈ xs, x.Lies w file s a b
  pairwise : xs.Pairwise Visit.Precedes

namespace Ordered

variable {w : Walker} {file : Option String} {s : List Char} {a a' b b' c : Nat} {xs ys : List Visit}

theorem nil : Ordered w file s a b [] := ⟨List.forall_mem_nil _, .nil⟩

theorem mono (h : Ordered w file s a b xs) (ha : a' ≤ a) (hb : b ≤ b') : Ordered w file s a' b' xs :=
  ⟨fun x hx => (h.lie x hx).mono ha hb, h.pairwise⟩

/-- Markers behind markers. -/
theorem append (h : Ordered w file s a b xs) (h' : Ordered w file s b c ys) (hab : a ≤ b)
    (hbc : b ≤ c) : Ordered w file s a c (xs ++ ys) where
  lie x hx := (List.mem_append.1 hx).elim ((h.mono (Nat.le_refl a) hbc).lie x)
    ((h'.mono hab (Nat.le_refl c)).lie x)
  pairwise := by
    refine List.pairwise_append.2 ⟨h.pairwise, h'.pairwise, fun x hx y hy => .inl ?_⟩
    have hxo := (h.lie x hx).offsets
    have hyo := (h'.lie y hy).offsets
    show x.groupSpan.stopOffset ≤ y.nameSpan.startOffset
    omega

/-- The groups of the markers begin one behind the other, so no marker is visited twice. -/
theorem starts (h : Ordered w file s a b xs) :
    xs.Pairwise fun x y => x.groupSpan.startOffset < y.groupSpan.startOffset :=
  h.pairwise.imp_of_mem fun hx hy hxy => hxy.start_lt (h.lie _ hx) (h.lie _ hy)

theorem within (h : Ordered w file s a b xs) (kind : PayloadKind) :
    Ordered w file s a b (xs.map (.within kind)) where
  lie := List.forall_mem_map.2 h.lie
  pairwise := List.pairwise_map.2 h.pairwise

/-- Markers in payloads that take turns. -/
theorem flatMap {ps : List (PayloadKind × List Tree)} {visits : List Tree → List Visit}
    (h : LieInTurn file s a b (ps.map Prod.snd))
    (hps : ∀ p ∈ ps, ∀ i j, LieBetween file s i j p.2 → Ordered w file s i j (visits p.2)) :
    Ordered w file s a b (ps.flatMap fun p => (visits p.2).map (.within p.1)) := by
  induction ps generalizing a with
  | nil => exact nil
  | cons p ps ih =>
    obtain ⟨i, j, hi, hp, hrest⟩ := h
    have hfirst := ((hps p List.mem_cons_self i j hp).within p.1).mono hi (Nat.le_refl j)
    have hmore := ih hrest fun q hq => hps q (List.mem_cons_of_mem p hq)
    exact hfirst.append hmore (Nat.le_trans hi hp.le) hrest.le

end Ordered

namespace Walker

variable (w : Walker) {file : Option String} {s : List Char}

/-- A walk comes by the markers of a text in their order. -/
theorem visits_ordered (before : Option Tree) {ts : List Tree} {a b : Nat}
    (h : LieBetween file s a b ts) : Ordered w file s a b (w.visits before ts) := by
  induction before, ts using w.walk_induction generalizing a b with
  | nil before =>
    rw [visits]
    exact .nil
  | marker before span opSpan d contents groupSpan rest hb hd ihp ih =>
    obtain ⟨i, j, hi, -, -, hname, i', j', hi', -, -, hop, k, l, hk, -, -, hgroup, hrest⟩ := h
    have hjk : j ≤ k := by
      have := hop.bounds
      omega
    have hij := hname.bounds
    have hkl := hgroup.bounds
    have hlb := hrest.le
    have hstart : span.startOffset = i := hname.startOffset
    have hgstart : groupSpan.startOffset = k := hgroup.startOffset
    have hgstop : groupSpan.stopOffset = l := hgroup.stopOffset
    rw [w.visits_marker hb hd]
    generalize hx : Visit.mk [] span contents groupSpan = x
    have hlies : x.Lies w file s a l :=
      ⟨d, i, j, k, l, hi, hjk, Nat.le_refl l, hx ▸ hname, hx ▸ hgroup⟩
    -- the markers in the payloads stand behind the name and in front of the closing bracket
    have hpayloads : Ordered w file s a l
        (x :: x.payloads.flatMap fun p => (w.visits none p.2).map (.within p.1)) := by
      cases hv : x.parsed? with
      | none =>
        rw [Visit.payloads, hv]
        exact ⟨List.forall_mem_singleton.2 hlies, List.pairwise_singleton _ _⟩
      | some v =>
        have hparse : (Variant.parse contents groupSpan).result = .ok v := by
          rw [← hx] at hv
          exact Visit.parsed?_eq_some.1 hv
        obtain ⟨n, m, hn, hvname, hturn⟩ :=
          ((Variant.parse_spec contents groupSpan).2 v hparse).lie hgroup.inner
        have hvstop : v.name.span.stopOffset = m := hvname.stopOffset
        have hnm := hvname.bounds
        rw [← v.map_snd_kindedPayloads] at hturn
        have hinner : Ordered w file s m (l - 1)
            (v.kindedPayloads.flatMap fun p => (w.visits none p.2).map (.within p.1)) :=
          Ordered.flatMap hturn fun p hp i j hlie =>
            ihp v hparse p.2 (v.map_snd_kindedPayloads ▸ List.mem_map_of_mem hp) hlie
        rw [Visit.payloads, hv]
        refine ⟨List.forall_mem_cons.2 ⟨hlies, ?_⟩, List.pairwise_cons.2 ⟨?_, hinner.pairwise⟩⟩
        · exact (hinner.mono (by omega) (Nat.sub_le l 1)).lie
        · intro y hy
          have hyo := (hinner.lie y hy).offsets
          have hstop : y.groupSpan.stopOffset < x.groupSpan.stopOffset := by
            rw [← hx]
            show _ < groupSpan.stopOffset
            omega
          have hstart : x.groupSpan.startOffset < y.nameSpan.startOffset := by
            rw [← hx]
            show groupSpan.startOffset < _
            omega
          exact .inr ⟨⟨hstart, hstop⟩, v, hv, by omega⟩
    exact hpayloads.append (ih hrest) (by omega) hlb
  | group before d contents span rest hd ihc ih =>
    obtain ⟨i, j, hi, -, -, hgroup, hrest⟩ := h
    have hij := hgroup.bounds
    rw [w.visits_group hd]
    exact ((ihc hgroup.inner).mono (by omega) (Nat.sub_le j 1)).append (ih hrest) (by omega) hrest.le
  | keep before t rest hm ht ih =>
    obtain ⟨i, j, hi, -, -, hlies, hrest⟩ := h
    have hij := hlies.bounds
    rw [w.visits_keep hm ht]
    exact (ih hrest).mono (by omega) (Nat.le_refl b)

/-- What a walk comes by are markers of the list. -/
theorem visits_standsIn (before : Option Tree) (ts : List Tree) :
    ∀ x ∈ w.visits before ts, x.StandsIn w ts := by
  induction before, ts using w.walk_induction with
  | nil before =>
    rw [visits]
    exact List.forall_mem_nil _
  | marker before span opSpan d contents groupSpan rest hb hd ihp ih =>
    rw [w.visits_marker hb hd]
    refine List.forall_mem_cons.2 ⟨.here [] hd, List.forall_mem_append.2 ⟨?_, ?_⟩⟩
    · intro x hx
      obtain ⟨p, hp, hx⟩ := List.mem_flatMap.1 hx
      obtain ⟨y, hy, rfl⟩ := List.mem_map.1 hx
      obtain ⟨v, hv, hpv⟩ := Visit.exists_of_mem_payloads hp
      have hstands := (ihp v hv p.2 hpv y hy).within p.1
      have hgroup : Tree.group d contents groupSpan ∈
          .ident w.marker span :: .punct "!" opSpan :: .group d contents groupSpan :: rest := by simp
      refine .inside hgroup ?_
      rcases ((Variant.parse_spec _ _).2 v hv).payload_part hpv with hpart | ⟨_, _, _, hmem, hpart⟩
      · exact hstands.of_part hpart
      · exact .inside hmem (hstands.of_part hpart)
    · intro x hx
      exact (ih x hx).of_part (List.suffix_append [_, _, _] rest).isInfix
  | group before d contents span rest hd ihc ih =>
    rw [w.visits_group hd]
    refine List.forall_mem_append.2 ⟨fun x hx => .inside List.mem_cons_self (ihc x hx), fun x hx => ?_⟩
    exact (ih x hx).of_part (List.suffix_cons _ rest).isInfix
  | keep before t rest hm ht ih =>
    rw [w.visits_keep hm ht]
    exact fun x hx => (ih x hx).of_part (List.suffix_cons t rest).isInfix

end Walker

/-! ## Declarations in the order of the text -/

/-- Where the name of a declaration stands. -/
def Declaration.nameSpan (d : Declaration) : Span := d.trees.head?.elim Span.unknown Tree.span

namespace Visit

/-- Whether a marker can be read. -/
def isAccepted (x : Visit) : Bool := x.parsed?.isSome

/-- What a walk declares for a marker. -/
def declared? (w : Walker) (x : Visit) : Option Declaration :=
  (x.definition? w).map Variant.declaration

/-- The declaration begins with its name, which is cut out of the text between the brackets of the
marker. -/
def Declares (file : Option String) (s : List Char) (x : Visit) (d : Declaration) : Prop :=
  ∃ rest n m, d.trees = .ident d.name d.nameSpan :: rest ∧ CutOut file s n m d.name d.nameSpan ∧
    x.groupSpan.startOffset < n ∧ m < x.groupSpan.stopOffset

theorem isSome_declared? (w : Walker) (x : Visit) : (x.declared? w).isSome = x.isAccepted := by
  simp [declared?, definition?, isAccepted]

theorem declared?_eq_some {w : Walker} {x : Visit} {d : Declaration} (h : x.declared? w = some d) :
    ∃ v rest, x.parsed? = some v ∧ d.name = v.name.text ∧ d.trees = v.name.tree :: rest ∧
      d.nameSpan = v.name.span := by
  obtain ⟨u, hu, rfl⟩ := Option.map_eq_some_iff.1 h
  obtain ⟨v, hv, rfl⟩ := Option.map_eq_some_iff.1 hu
  exact ⟨v, _, hv, rfl, rfl, rfl⟩

theorem Lies.declares {w : Walker} {file : Option String} {s : List Char} {a b : Nat} {x : Visit}
    {d : Declaration} (h : x.Lies w file s a b) (hd : x.declared? w = some d) :
    x.Declares file s d := by
  obtain ⟨v, rest, hv, hname, htrees, hspan⟩ := declared?_eq_some hd
  obtain ⟨n, m, hlies, hn, hm⟩ := h.name hv
  refine ⟨rest, n, m, ?_, ?_, hn, hm⟩
  · rw [htrees, hname, hspan]
    rfl
  · rw [hname, hspan]
    exact hlies

end Visit

theorem Walker.walk_declarations (w : Walker) (ts : List Tree) :
    (w.walk {} ts).1.declarations = (w.visits none ts).filterMap (Visit.declared? w) := by
  rw [w.walk_eq, w.walkLevel_declarations, List.map_filterMap]
  rfl

section

variable {α β : Type}

/-- What a partial function gives on a list belongs, one by one, to the members it is defined on. -/
theorem forall₂_filterMap {f : α → Option β} {R : α → β → Prop} {xs : List α}
    (h : ∀ x ∈ xs, ∀ b, f x = some b → R x b) :
    List.Forall₂ R (xs.filter fun x => (f x).isSome) (xs.filterMap f) := by
  induction xs with
  | nil => exact .nil
  | cons x xs ih =>
    have hrest := ih fun y hy => h y (List.mem_cons_of_mem x hy)
    cases hx : f x with
    | none => simpa [hx] using hrest
    | some b => simpa [hx] using ⟨h x List.mem_cons_self b hx, hrest⟩

/-- In a list along which a number grows, a smaller number stands further to the front. -/
theorem index_lt_of_lt {f : α → Nat} {xs : List α} (h : xs.Pairwise fun x y => f x < f y) {i j : Nat}
    {x y : α} (hi : xs[i]? = some x) (hj : xs[j]? = some y) (hlt : f x < f y) : i < j := by
  obtain ⟨hilen, rfl⟩ := List.getElem?_eq_some_iff.1 hi
  obtain ⟨hjlen, rfl⟩ := List.getElem?_eq_some_iff.1 hj
  rcases Nat.lt_trichotomy i j with hij | rfl | hji
  · exact hij
  · exact absurd hlt (Nat.lt_irrefl _)
  · exact absurd hlt (Nat.lt_asymm (List.pairwise_iff_getElem.1 h j i hjlen hilen hji))

end

/-- Declarations come in the order in which their names stand in the text, each name between the
brackets of a marker of its own. What a marker in a payload declares comes behind what the marker
around it declares, and in front of what any marker behind that one declares. -/
theorem walk_declarations_ordered {s : List Char} {file : Option String} {trees : List Tree}
    (h : tokenize s file = .ok trees) (w : Walker) :
    let declared := (w.walk {} trees).1.declarations
    let markers := (w.visits none trees).filter Visit.isAccepted
    List.Forall₂ (Visit.Declares file s) markers declared ∧
      declared.Pairwise (fun d e => d.nameSpan.startOffset < e.nameSpan.startOffset) ∧
      (∀ x ∈ markers, x.StandsIn w trees) ∧
      markers.Pairwise (fun x y => x.groupSpan.startOffset < y.groupSpan.startOffset) ∧
      ∀ (i j : Nat) (x y : Visit), markers[i]? = some x → markers[j]? = some y → y.Inside x →
        i < j ∧ ∀ (k : Nat) (z : Visit), markers[k]? = some z → z.Behind x → j < k := by
  intro declared markers
  obtain ⟨q, rest, hr, hrest⟩ := tokenize_reads h
  have hordered := w.visits_ordered none (hr.lieBetween_ends hrest)
  have hlies {i : Nat} {x : Visit} (hi : markers[i]? = some x) : x.Lies w file s 0 s.length :=
    hordered.lie x (List.mem_filter.1 (List.mem_of_getElem? hi)).1
  have hstarts := hordered.starts.filter Visit.isAccepted
  refine ⟨?_, ?_, fun x hx => ?_, hstarts, ?_⟩
  · have hone := forall₂_filterMap fun x hx d hd => (hordered.lie x hx).declares (d := d) hd
    simp only [Visit.isSome_declared?] at hone
    rwa [← w.walk_declarations] at hone
  · show ((w.walk {} trees).1.declarations).Pairwise _
    rw [w.walk_declarations, List.pairwise_filterMap]
    refine hordered.pairwise.imp_of_mem fun hx hy hxy d hd e he => ?_
    obtain ⟨v, _, hv, -, -, hdspan⟩ := Visit.declared?_eq_some hd
    obtain ⟨u, _, hu, -, -, hespan⟩ := Visit.declared?_eq_some he
    rw [hdspan, hespan]
    exact hxy.name_lt (hordered.lie _ hx) (hordered.lie _ hy) hv hu
  · exact w.visits_standsIn none trees x (List.mem_filter.1 hx).1
  · intro i j x y hi hj hinside
    have hy := (hlies hj).offsets
    obtain ⟨hstart, hstop⟩ := hinside
    refine ⟨index_lt_of_lt hstarts hi hj (by omega), fun k z hk hbehind => ?_⟩
    have hz := (hlies hk).offsets
    have hbehind : x.groupSpan.stopOffset ≤ z.nameSpan.startOffset := hbehind
    exact index_lt_of_lt hstarts hj hk (by omega)

/-- A marker in a value, a marker in a discriminant, one that cannot be read, and one behind. -/
theorem walk_declarations_ordered_nested :
    let s := "err!(A(u8 = err!(B)) = err!(C)) err!(=) err!(D)".toList
    let w : Walker := ⟨"E", "err"⟩
    ∃ trees, tokenize s none = .ok trees ∧
      (w.walk {} trees).1.declarations.map Declaration.name = ["A", "B", "C", "D"] ∧
      List.Forall₂ (Visit.Declares none s) ((w.visits none trees).filter Visit.isAccepted)
        (w.walk {} trees).1.declarations ∧
      (w.walk {} trees).1.declarations.Pairwise fun d e =>
        d.nameSpan.startOffset < e.nameSpan.startOffset := by
  have hnames : (tokenize "err!(A(u8 = err!(B)) = err!(C)) err!(=) err!(D)".toList none).map
      (fun trees => ((Walker.mk "E" "err").walk {} trees).1.declarations.map Declaration.name) =
        .ok ["A", "B", "C", "D"] := by decide +kernel
  cases htrees : tokenize "err!(A(u8 = err!(B)) = err!(C)) err!(=) err!(D)".toList none with
  | error e =>
    rw [htrees] at hnames
    cases hnames
  | ok trees =>
    rw [htrees] at hnames
    have hordered := walk_declarations_ordered htrees ⟨"E", "err"⟩
    exact ⟨trees, htrees, Except.ok.inj hnames, hordered.1, hordered.2.1⟩

end InlineVariants
