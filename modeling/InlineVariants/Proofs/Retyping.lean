import InlineVariants.Proofs.Blaming
import InlineVariants.Proofs.Respelling

/-!
# Types from trees and from text

A type is read from a text, or from trees by way of their spaced form. A text and the spaced form of its
trees have the same words, and a type is made of words, so both ways lead to the same type, whatever
stands between the words. The spaced form has places of its own that nobody has seen; what is reported
about trees is therefore said of the whole stretch that they cover in their text.

Main statement: `TypeExpr.ofTrees_tokenize`.
-/

namespace InlineVariants

open Text Lexeme

/-- What was read as trees holds no character that the lexer does not know. -/
theorem lexable_of_tokenize {s : List Char} {file : Option String} {trees : List Tree}
    (h : tokenize s file = .ok trees) : Lexable s := by
  rcases firstFault_or file s with ⟨e, he⟩ | ⟨hlex, -⟩
  · rw [he.tokenize_eq] at h
    cases h
  · exact hlex

theorem TypeExpr.ofTrees_error_span {trees : List Tree} {e : TypeError}
    (h : TypeExpr.ofTrees trees = .error e) : e.span = streamSpan trees := by
  unfold TypeExpr.ofTrees at h
  split_ifs at h with hempty
  · cases h
    rfl
  · cases hparse : TypeExpr.parse (renderSpaced trees).toList with
    | ok t =>
      rw [hparse] at h
      cases h
    | error fault =>
      rw [hparse] at h
      cases h
      rfl

/-- The trees of a text are read as the type that the text is read as, or both are refused. An error
about trees covers their text from the beginning of the first to the end of the last one. -/
theorem TypeExpr.ofTrees_tokenize {s : List Char} {file : Option String} {trees : List Tree}
    (h : tokenize s file = .ok trees) :
    (∀ t, TypeExpr.ofTrees trees = .ok t ↔ TypeExpr.parse s = .ok t) ∧
      ∀ e, TypeExpr.ofTrees trees = .error e → ∀ hne : trees ≠ [],
        e.span = (trees.head hne).span.through (trees.getLast hne).span := by
  refine ⟨fun t => ?_, fun e he hne => ?_⟩
  · rw [(tokenize_forms h).ofTrees_eq_ok_iff, TypeExpr.parse_eq_ok]
    exact (and_iff_right (lexable_of_tokenize h)).symm
  · obtain ⟨q, rest, hr, hrest⟩ := tokenize_reads h
    rw [TypeExpr.ofTrees_error_span he, (hr.lieBetween_ends hrest).streamSpan_eq hne]

/-- The texts of a path of one name with two constants for its arguments. -/
def TypeExpr.constantTexts : TypeExpr → List String
  | .path none false [.generic name [.const first, .const second]] => [name, first, second]
  | _ => []

theorem TypeExpr.eq_of_constantTexts {t : TypeExpr} {name first second : String}
    (h : t.constantTexts = [name, first, second]) :
    t = .path none false [.generic name [.const first, .const second]] := by
  unfold TypeExpr.constantTexts at h
  split at h
  · cases h
    rfl
  · cases h

/-- A comment and a line break in a braced constant, and a line break in front of an argument that is
missing. -/
theorem TypeExpr.ofTrees_tokenize_laid_out :
    let s := "A</*\x7b*/\x7bN\n+1\x7d,-1>".toList
    let t : TypeExpr := .path none false [.generic "A" [.const "\x7b N + 1 \x7d", .const "-1"]]
    (∃ trees, tokenize s = .ok trees ∧ TypeExpr.ofTrees trees = .ok t ∧ TypeExpr.parse s = .ok t) ∧
    ∃ trees e, tokenize " A<\nu8,,>".toList = .ok trees ∧ TypeExpr.ofTrees trees = .error e ∧
      e.span = ⟨none, some 1, some 2, some 2, some 6, some 1, some 9⟩ := by
  have hparse : TypeExpr.parse "A</*\x7b*/\x7bN\n+1\x7d,-1>".toList =
      .ok (.path none false [.generic "A" [.const "\x7b N + 1 \x7d", .const "-1"]]) := by
    -- types cannot be compared by evaluation, their texts can
    have htexts : (TypeExpr.parse "A</*\x7b*/\x7bN\n+1\x7d,-1>".toList).toOption.map
        TypeExpr.constantTexts = some ["A", "\x7b N + 1 \x7d", "-1"] := by decide +kernel
    cases hparse : TypeExpr.parse "A</*\x7b*/\x7bN\n+1\x7d,-1>".toList with
    | error e =>
      rw [hparse] at htexts
      cases htexts
    | ok t =>
      rw [hparse] at htexts
      rw [TypeExpr.eq_of_constantTexts (Option.some.inj htexts)]
  have hread : (tokenize "A</*\x7b*/\x7bN\n+1\x7d,-1>".toList).isOk = true := by
    decide +kernel
  have hfail : (TypeExpr.parse " A<\nu8,,>".toList).isOk = false := by
    decide +kernel
  have hfound : tokenize " A<\nu8,,>".toList = .ok
      [.ident "A" ⟨none, some 1, some 2, some 1, some 3, some 1, some 2⟩,
        .punct "<" ⟨none, some 1, some 3, some 1, some 4, some 2, some 3⟩,
        .ident "u8" ⟨none, some 2, some 1, some 2, some 3, some 4, some 6⟩,
        .punct "," ⟨none, some 2, some 3, some 2, some 4, some 6, some 7⟩,
        .punct "," ⟨none, some 2, some 4, some 2, some 5, some 7, some 8⟩,
        .punct ">" ⟨none, some 2, some 5, some 2, some 6, some 8, some 9⟩] := by
    set_option maxRecDepth 2000 in cbv
  intro s t
  constructor
  · cases htrees : tokenize "A</*\x7b*/\x7bN\n+1\x7d,-1>".toList with
    | error e =>
      rw [htrees] at hread
      cases hread
    | ok trees =>
      exact ⟨trees, rfl, ((TypeExpr.ofTrees_tokenize htrees).1 t).2 hparse, hparse⟩
  · obtain ⟨hiff, hspan⟩ := TypeExpr.ofTrees_tokenize hfound
    cases hread : TypeExpr.ofTrees _ with
    | ok t =>
      rw [(hiff t).1 hread] at hfail
      cases hfail
    | error e => exact ⟨_, e, hfound, hread, hspan e hread (List.cons_ne_nil _ _)⟩

end InlineVariants
