import FlowPlan.Condition.Parser
import FlowPlan.Proofs.Listing
import FlowPlan.Proofs.Numerals

/-! # Texts of literals

A literal is written in quotes or in the characters of names. So nothing that
reading looks for stands in its text outside of quotes, and it reads nothing.
-/

namespace FlowPlan

open Text (IsTight IsDottedName IsSeparator ClosesQuotes)
open Nesting (Hides)

namespace Literal

/-- A literal is written in quotes or in the characters of names. -/
theorem render_shape (literal : Literal) :
    (∃ content, literal.render = Text.quote content) ∨ IsDottedName literal.render := by
  cases literal with
  | string content => exact .inl ⟨content, rfl⟩
  | boolean value => exact .inr (Condition.isDottedName_booleanText value)
  | null => exact .inr (by decide)
  | number value =>
      rw [render]
      split
      · exact .inr (by decide)
      · exact .inr ⟨value.plain_ne_nil, fun c mem =>
          Text.isDottedChar_of_isNumeralChar (value.isNumeralChar_of_mem_plain c mem)⟩

theorem isTight_render (literal : Literal) : IsTight literal.render := by
  obtain ⟨content, quoted⟩ | named := literal.render_shape
  · exact quoted ▸ .quote content
  · exact .of_isDottedName named

theorem fault?_render (literal : Literal) : Nesting.top.fault? literal.render = none := by
  obtain ⟨content, quoted⟩ | named := literal.render_shape
  · exact quoted ▸ Nesting.fault?_quote content
  · exact Nesting.fault?_of_isInert fun c mem => Text.isInert_of_isDottedChar (named.2 c mem)

theorem hides_render (literal : Literal) {first : Char}
    (other : Text.isDottedChar first = false) : Hides first literal.render := by
  obtain ⟨content, quoted⟩ | named := literal.render_shape
  · exact quoted ▸ .quote content
  · exact .of_isDottedChar named.2 other

/-- In particular, no literal ends with a parenthesis. -/
theorem not_isSeparator_of_mem_getLast? (literal : Literal) :
    ∀ c ∈ literal.render.getLast?, ¬ IsSeparator c := by
  intro c isLast separates
  obtain ⟨content, quoted⟩ | named := literal.render_shape
  · rw [quoted, Text.quote, List.getLast?_concat] at isLast
    cases isLast
    exact separates.1 rfl
  · have dotted := named.2 c (List.mem_of_mem_getLast? isLast)
    rw [separates.2] at dotted
    cases dotted

theorem closesQuotes_render (literal : Literal) : ClosesQuotes literal.render := by
  obtain ⟨content, quoted⟩ | named := literal.render_shape
  · exact quoted ▸ .of_balanced (.quote content)
  · exact .of_not_mem fun mem => absurd (named.2 _ mem) (by decide)

/-- A literal reads nothing. -/
theorem references_eq_nil (literal : Literal) : Text.references literal.render = [] := by
  have words : ∀ value, '.' ∉ Condition.booleanText value := by decide
  cases literal with
  | string content => exact Text.references_quote content
  | boolean value => exact Text.references_eq_nil_of_not_mem (words value)
  | null => exact Text.references_eq_nil_of_not_mem (by decide)
  | number value =>
      -- There may be a point, but never the end of a root in front of it.
      have noRoot : 's' ∉ (Literal.number value).render := by
        rw [render]
        split
        · decide
        · exact fun mem => absurd (value.isNumeralChar_of_mem_plain _ mem) (by decide)
      exact Reference.scan_eq_nil_of_not_mem (by decide) noRoot false true

end Literal

end FlowPlan
