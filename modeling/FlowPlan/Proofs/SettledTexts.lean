import FlowPlan.Proofs.ParsedLeaves

/-! # Texts of settled conditions

A condition that is read from a text has the leaves that texts are read as, no
negation that could be worked out, and no constants under a connective. Its
operands are printed as operands again: without a fault, without blanks at the
ends, and with all connectives in quotes or parentheses.
-/

namespace FlowPlan

open Text (IsGap IsOperand IsUndivided)
open Nesting (IsInert)

/-! ## Tokens in texts -/

namespace Text

theorem cutAt?_of_contains {token text : Text} (absent : contains token text = false)
    (nesting : Nesting) : Nesting.cutAt? token nesting text = none := by
  induction text generalizing nesting with
  | nil => rfl
  | cons head tail induction =>
      rw [contains, Bool.or_eq_false_iff] at absent
      rw [Nesting.cutAt?, absent.1, Bool.and_false, if_neg Bool.false_ne_true,
        induction absent.2, Option.map_none]

theorem not_mem_of_contains {c : Char} {text : Text} (absent : contains [c] text = false) :
    c ∉ text := by
  induction text with
  | nil => exact List.not_mem_nil
  | cons head tail induction =>
      rw [contains, Bool.or_eq_false_iff] at absent
      have different : c ≠ head := by
        rintro rfl
        simp at absent
      simp [different, induction absent.2]

/-- Pieces that do not show a token do not show it when they are joined by another one. -/
theorem cutAt?_joinWith_eq_none {first : Char} {more separator : Text} {pieces : List Text}
    (separated : Nesting.Hides first separator)
    (apart : ∀ c ∈ separator.head?, c ∉ more) (some : separator ≠ [])
    (undivided : ∀ piece ∈ pieces, IsUndivided (first :: more) piece) :
    Nesting.cutAt? (first :: more) .top (joinWith separator pieces) = none := by
  induction pieces with
  | nil => rfl
  | cons piece rest induction =>
      have alone := undivided piece List.mem_cons_self
      cases rest with
      | nil => exact alone.uncut
      | cons next later =>
          have goesOn : ∀ c ∈ (separator ++ joinWith separator (next :: later)).head?,
              c ∉ (first :: more).tail := by
            rwa [List.head?_append_of_ne_nil _ some]
          have behind := induction fun other mem => undivided other (List.mem_cons_of_mem piece mem)
          rw [joinWith_cons_ne_nil (List.cons_ne_nil next later), List.append_assoc,
            Nesting.cutAt?_append_of_uncut alone.uncut goesOn,
            Nesting.behind_of_fault? alone.faultless, Nesting.cutAt?_append separated.passes,
            separated.balanced.behind_top, behind]
          rfl

theorem faultless_joinWith {separator : Text} {pieces : List Text}
    (inert : ∀ c ∈ separator, IsInert c)
    (faultless : ∀ piece ∈ pieces, Nesting.top.fault? piece = none) :
    Nesting.top.fault? (joinWith separator pieces) = none := by
  fun_induction joinWith separator pieces with
  | case1 => rfl
  | case2 piece => exact faultless piece List.mem_cons_self
  | case3 piece next rest induction =>
      have later := induction fun other mem => faultless other (List.mem_cons_of_mem piece mem)
      exact Nesting.fault?_eq_none_of_append (Nesting.fault?_eq_none_of_append
        (faultless piece List.mem_cons_self) (Nesting.fault?_of_isInert inert)) later

end Text

namespace Condition

variable {σ : Type}

theorem isOperand_parenthesized {wrap : Bool} {text : Text}
    (faultless : Nesting.top.fault? text = none) (bare : wrap = false → IsOperand text) :
    IsOperand (parenthesized wrap text) := by
  cases wrap with
  | true => exact Text.isOperand_parenthesized faultless
  | false => exact bare rfl

/-- The condition is no chain. -/
def IsSingle (condition : Condition σ) : Prop :=
  ∀ connective left right, condition ≠ .joined connective left right

theorem isSingle_of_wrapsUnder {connective : Connective} {condition : Condition σ}
    (other : ∀ left right, condition ≠ .joined connective left right)
    (bare : condition.wrapsUnder connective = false) : condition.IsSingle := by
  rintro found left right rfl
  have different : found ≠ connective := fun same => other left right (by rw [same])
  rw [wrapsUnder_joined different] at bare
  cases bare

/-- A leaf has no parts. -/
def IsLeaf : Condition σ → Prop
  | .joined .. => False
  | .negated _ => False
  | .comparison .. => True
  | .call .. => True
  | .raw .. => True

namespace IsLeaf

variable {leaf : Condition σ}

theorem isSingle (isLeaf : leaf.IsLeaf) : leaf.IsSingle := by
  rintro connective left right rfl
  exact isLeaf

theorem ne_negated (isLeaf : leaf.IsLeaf) (inner : Condition σ) : leaf ≠ .negated inner := by
  rintro rfl
  exact isLeaf

end IsLeaf

theorem over_of_isLeaf {kind : Condition σ → Prop} {leaf : Condition σ} (isLeaf : leaf.IsLeaf) :
    Over kind leaf ↔ kind leaf := by
  cases leaf with
  | comparison => exact over_comparison
  | call => exact over_call
  | raw => exact over_raw
  | joined => exact isLeaf.elim
  | negated => exact isLeaf.elim

/-- Induction that does not tell the kinds of leaves apart. -/
@[elab_as_elim]
theorem inductionOnLeaves {motive : Condition σ → Prop}
    (leaf : ∀ found : Condition σ, found.IsLeaf → motive found)
    (negated : ∀ inner : Condition σ, motive inner → motive (.negated inner))
    (joined : ∀ (connective : Connective) (left right : Condition σ), motive left → motive right →
      motive (.joined connective left right))
    (condition : Condition σ) : motive condition := by
  induction condition with
  | joined connective left right leftInduction rightInduction =>
      exact joined connective left right leftInduction rightInduction
  | negated inner induction => exact negated inner induction
  | comparison | call | raw => exact leaf _ trivial

/-- What stands behind the mark of a negation. -/
def negationText (inner : Condition σ) : Text :=
  parenthesized inner.wrapsUnderNegation inner.render

variable [Keyed σ]

/-- As reading a text in the scope leaves a condition. -/
structure IsSettled (scope : StepScope σ) (condition : Condition σ) : Prop where
  leaves : condition.Over (IsParsedLeaf scope)
  worked : condition.IsWorkedOut
  vary : condition.OperandsVary

namespace IsSettled

variable {scope : StepScope σ} {connective : Connective} {condition first second base : Condition σ}

theorem of_parse {text : Text} (parsed : parse scope text = .ok condition) :
    IsSettled scope condition where
  leaves := overParsedLeaves_of_parse parsed
  worked := isWorkedOut_of_parse parsed
  vary := operandsVary_of_parse parsed

theorem left (settled : IsSettled scope (.joined connective first second)) :
    IsSettled scope first :=
  ⟨(over_joined.mp settled.leaves).1, settled.worked.1, settled.vary.1.2⟩

theorem right (settled : IsSettled scope (.joined connective first second)) :
    IsSettled scope second :=
  ⟨(over_joined.mp settled.leaves).2, settled.worked.2, settled.vary.2.2⟩

theorem inner (settled : IsSettled scope (.negated base)) : IsSettled scope base :=
  ⟨over_negated.mp settled.leaves, settled.worked.2, settled.vary⟩

theorem of_mem_operands (settled : IsSettled scope condition)
    (mem : base ∈ condition.operands connective) : IsSettled scope base := by
  have splits : Splits (IsSettled scope) := fun _ _ _ member => ⟨member.left, member.right⟩
  exact splits.of_mem_operands connective settled mem

/-! ## Faultless texts -/

theorem faultless_arguments {name : Text} {arguments : List Text} {sources : List (Source σ)}
    (parsedLeaf : IsParsedLeaf scope (.call name arguments sources)) :
    Nesting.top.fault? (Text.joinWith [',', ' '] arguments) = none :=
  Text.faultless_joinWith (by simp [IsInert])
    fun argument mem => (parsedLeaf.2.2 argument mem).faultless

theorem isPhrase_call {name : Text} {arguments : List Text} {sources : List (Source σ)}
    (parsedLeaf : IsParsedLeaf scope (.call name arguments sources)) :
    IsPhrase .negation (call name arguments sources).render := by
  simpa [render] using IsPhrase.call parsedLeaf.1 (faultless_arguments parsedLeaf)

theorem faultless_parenthesized {wrap : Bool} {text : Text}
    (faultless : Nesting.top.fault? text = none) :
    Nesting.top.fault? (parenthesized wrap text) = none := by
  cases wrap with
  | true => exact Nesting.fault?_parenthesized faultless
  | false => exact faultless

/-- The text of a leaf is an operand. -/
theorem isOperand_leaf {leaf : Condition σ} (parsedLeaf : IsParsedLeaf scope leaf) :
    IsOperand leaf.render := by
  cases leaf with
  | comparison left comparator right sources =>
      rw [render_comparison]
      exact Text.isOperand_comparison parsedLeaf.2.1 parsedLeaf.1 comparator right
  | call name arguments sources => exact Text.isOperand_of_isPhrase (isPhrase_call parsedLeaf)
  | raw => exact parsedLeaf.1
  | joined => exact parsedLeaf.elim
  | negated => exact parsedLeaf.elim

theorem parsedLeaf (settled : IsSettled scope condition) (isLeaf : condition.IsLeaf) :
    IsParsedLeaf scope condition :=
  (over_of_isLeaf isLeaf).mp settled.leaves

theorem faultless_render (settled : IsSettled scope condition) :
    Nesting.top.fault? condition.render = none := by
  induction condition using inductionOnLeaves with
  | leaf found isLeaf => exact (isOperand_leaf (settled.parsedLeaf isLeaf)).faultless
  | negated inner induction => exact faultless_parenthesized (induction settled.inner)
  | joined connective left right leftInduction rightInduction =>
      rw [render_joined_eq]
      have separated : Nesting.top.fault? connective.separator = none := by
        cases connective <;> rfl
      exact Nesting.fault?_eq_none_of_append (Nesting.fault?_eq_none_of_append
        (faultless_parenthesized (leftInduction settled.left)) separated)
          (faultless_parenthesized (rightInduction settled.right))

/-! ## Operands -/

theorem isOperand_negationText (settled : IsSettled scope (.negated base)) :
    IsOperand base.negationText := by
  apply isOperand_parenthesized settled.inner.faultless_render
  intro bare
  cases base using inductionOnLeaves with
  | leaf found isLeaf => exact isOperand_leaf (settled.inner.parsedLeaf isLeaf)
  | negated => exact settled.worked.1.elim
  | joined => cases bare

/-- A condition that is no chain is printed as an operand. -/
theorem isOperand_render (settled : IsSettled scope condition) (single : condition.IsSingle) :
    IsOperand condition.render := by
  cases condition using inductionOnLeaves with
  | leaf found isLeaf => exact isOperand_leaf (settled.parsedLeaf isLeaf)
  | negated inner => exact Text.isOperand_mark settled.isOperand_negationText
  | joined connective left right => exact absurd rfl (single connective left right)

theorem isOperand_operandText (settled : IsSettled scope condition)
    (other : ∀ left right, condition ≠ .joined connective left right) :
    IsOperand (condition.operandText connective) :=
  isOperand_parenthesized settled.faultless_render fun bare =>
    settled.isOperand_render (isSingle_of_wrapsUnder other bare)

theorem isOperand_of_mem_operandTexts (settled : IsSettled scope condition) {piece : Text}
    (mem : piece ∈ (condition.operands connective).map (operandText connective)) :
    IsOperand piece := by
  obtain ⟨operand, operandMem, rfl⟩ := List.mem_map.mp mem
  exact (settled.of_mem_operands operandMem).isOperand_operandText
    (ne_joined_of_mem_operands operandMem)

/-- The operands of a chain are found again in its text. -/
theorem map_trim_splitAround (settled : IsSettled scope (.joined connective first second)) :
    (Text.splitAround connective.token
      (Text.trim (joined connective first second).render)).map Text.trim =
        ((joined connective first second).operands connective).map (operandText connective) := by
  rw [render_joined]
  exact connective.map_trim_splitAround_chain
    (mt List.map_eq_nil_iff.mp (Conjunction.operands_ne_nil connective _))
    fun piece mem => (settled.isOperand_of_mem_operandTexts mem).isUndivided connective

/-- Only the connective of a chain itself stands in its text outside quotes and parentheses. -/
theorem isUncut_render {other : Connective} (different : other ≠ connective)
    (settled : IsSettled scope (.joined connective first second)) :
    Text.IsUncut other (joined connective first second).render := by
  have separated : Nesting.Hides other.mark connective.separator := by
    apply Nesting.Hides.of_forall
    · cases connective <;> simp [Connective.separator, Connective.token, IsInert]
    · revert different
      cases connective <;> cases other <;> decide
  have apart : ∀ c ∈ connective.separator.head?, c ∉ [other.mark] := by
    cases other <;> simp [Connective.separator, Connective.mark]
  have some : connective.separator ≠ [] := List.cons_ne_nil _ _
  rw [Text.IsUncut, render_joined, Connective.token_eq]
  apply Text.cutAt?_joinWith_eq_none separated apart some
  intro piece mem
  rw [← Connective.token_eq]
  exact (settled.isOperand_of_mem_operandTexts mem).isUndivided other

/-- The text of a condition is blank only if it is empty. -/
theorem trim_render_ne_nil (settled : IsSettled scope condition) (nonempty : condition.render ≠ []) :
    Text.trim condition.render ≠ [] := by
  by_cases single : condition.IsSingle
  · rwa [(settled.isOperand_render single).trimmed]
  · simp only [IsSingle, not_forall, ne_eq, not_not] at single
    obtain ⟨connective, first, second, rfl⟩ := single
    intro blank
    obtain ⟨before, after, beforeGap, afterGap, whole⟩ :=
      Text.exists_gaps_around_trim (joined connective first second).render
    have solid : Text.isBlank connective.mark = false := by
      cases connective <;> decide
    have mem : connective.mark ∈ (joined connective first second).render := by
      simp [render, Connective.token_eq]
    rw [whole, blank, List.append_nil, List.mem_append] at mem
    exact mem.elim (beforeGap.not_mem solid) (afterGap.not_mem solid)

end IsSettled

end Condition

end FlowPlan
