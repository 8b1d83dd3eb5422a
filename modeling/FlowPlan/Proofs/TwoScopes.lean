import FlowPlan.Proofs.QuotedText
import FlowPlan.Proofs.Reading
import Mathlib.Data.List.Forall2

/-! # Reading a text in two scopes

Where a text is cut and what kind each part is does not depend on the scope. So
the readers of two scopes go through the same parts of a text, and only what the
leaves read may differ. What relates the two leaves of every part, and still
relates conditions after they have been joined or negated, relates what is read
from the whole text.
-/

namespace FlowPlan

open Text (ClosesQuotes)

namespace Condition

/-! ## Leaves -/

/-- The arguments of a call are parts of it. -/
theorem isPartOf_of_mem_arguments {text inner argument : Text}
    (proper : ∀ c ∈ text.takeWhile (· ≠ '('), Text.isWordChar c = true)
    (unwrapped : Text.unwrap? (text.dropWhile (· ≠ '(')) = some inner)
    (mem : argument ∈ if (Text.trim inner).isEmpty then [] else
      (Text.splitAround [','] (Text.trim inner)).map Text.trim) : argument.IsPartOf text := by
  have innerPart := (isPartOf_of_arguments proper unwrapped).trim
  split at mem
  · cases mem
  · rcases List.mem_map.mp mem with ⟨piece, pieceMem, rfl⟩
    have isPiece : piece.IsPartOf _ := Text.isPartOf_of_mem_splitAround (List.cons_ne_nil _ _)
      (by decide) innerPart.closes pieceMem
    exact isPiece.trim.trans innerPart

/-- A comparison reads what its side that is no literal reads. -/
theorem comparison?_shape (σ : Type) [Keyed σ] {text : Text} (closes : ClosesQuotes text) :
    (∀ scope : StepScope σ, comparison? scope text = none) ∨
      ∃ (left : Text) (comparator : Comparator) (right : Literal), left.IsPartOf text ∧
        ∀ scope : StepScope σ, comparison? scope text =
          some (.comparison left comparator right (Text.sources scope left)) := by
  cases cut : findComparator? text with
  | none => exact .inl fun scope => by rw [comparison?, cut]
  | some found =>
      rcases found with ⟨front, comparator, back⟩
      have parts := isPartOf_of_findComparator? closes cut
      by_cases blank : ((Text.trim front).isEmpty || (Text.trim back).isEmpty) = true
      · exact .inl fun scope => by simp only [comparison?, cut, blank, if_true]
      · cases right : Literal.ofText? (Text.trim back) with
        | some literal =>
            refine .inr ⟨_, comparator, literal, parts.1.trim, fun scope => ?_⟩
            simp only [comparison?, cut, if_neg blank, right]
        | none =>
            cases left : Literal.ofText? (Text.trim front) with
            | none =>
                exact .inl fun scope => by
                  simp only [comparison?, cut, if_neg blank, right, left, Option.map_none]
            | some literal =>
                refine .inr ⟨_, comparator.flipped, literal, parts.2.trim, fun scope => ?_⟩
                simp only [comparison?, cut, if_neg blank, right, left, Option.map_some]

/-- A call reads what its arguments read. -/
theorem call?_shape (σ : Type) [Keyed σ] (text : Text) :
    (∀ scope : StepScope σ, call? scope text = none) ∨
      ∃ (name : Text) (arguments : List Text), (∀ c ∈ name, Text.isWordChar c = true) ∧
        (∀ argument ∈ arguments, argument.IsPartOf text) ∧
        ∀ scope : StepScope σ, call? scope text = some (.call name arguments
          (Sources.ofList ((arguments.flatMap Text.references).filterMap
            (Reference.source? scope)))) := by
  let name := text.takeWhile (· ≠ '(')
  by_cases improper : (name.isEmpty || !name.all Text.isWordChar) = true
  · exact .inl fun scope => if_pos improper
  · cases unwrapped : Text.unwrap? (text.dropWhile (· ≠ '(')) with
    | none => exact .inl fun scope => by simp only [call?, unwrapped, Option.map_none, ite_self]
    | some inner =>
        have word : ∀ c ∈ name, Text.isWordChar c = true := by
          simp only [Bool.or_eq_true, Bool.not_eq_true', not_or, Bool.not_eq_false] at improper
          exact List.all_eq_true.mp improper.2
        refine .inr ⟨name, _, word, fun _ => isPartOf_of_mem_arguments word unwrapped,
          fun scope => ?_⟩
        rw [← Text.foldl_union_sources]
        simp only [call?, unwrapped, Option.map_some]
        exact if_neg improper

/-- What a text is read as that is neither in parentheses nor negated. -/
theorem leaf_shape (σ : Type) [Keyed σ] {text : Text} (closes : ClosesQuotes text) :
    (∃ (left : Text) (comparator : Comparator) (right : Literal), left.IsPartOf text ∧
      ∀ scope : StepScope σ,
        leaf scope text = .comparison left comparator right (Text.sources scope left)) ∨
    (∃ (name : Text) (arguments : List Text), (∀ c ∈ name, Text.isWordChar c = true) ∧
      (∀ argument ∈ arguments, argument.IsPartOf text) ∧
      ∀ scope : StepScope σ, leaf scope text = .call name arguments
        (Sources.ofList ((arguments.flatMap Text.references).filterMap
          (Reference.source? scope)))) ∨
    ∀ scope : StepScope σ, leaf scope text = .raw text (Text.sources scope text) := by
  rcases comparison?_shape σ closes with
    noComparison | ⟨left, comparator, right, isPart, compared⟩
  · rcases call?_shape σ text with noCall | ⟨name, arguments, word, parts, called⟩
    · refine .inr (.inr fun scope => ?_)
      rw [leaf, noComparison, noCall]
      rfl
    · refine .inr (.inl ⟨name, arguments, word, parts, fun scope => ?_⟩)
      rw [leaf, noComparison, called]
      rfl
  · refine .inl ⟨left, comparator, right, isPart, fun scope => ?_⟩
    rw [leaf, compared]
    rfl

/-! ## Whole texts -/

variable {σ : Type} [Keyed σ]

/-- Conditions stay related when they are put together as a text puts them together. -/
structure Compatible (related : Condition σ → Condition σ → Prop) : Prop where
  joinAll : ∀ {connective : Connective} {conditions others : List (Condition σ)}
    {condition : Condition σ}, List.Forall₂ related conditions others →
      connective.joinAll conditions = some condition →
        ∃ another, connective.joinAll others = some another ∧ related condition another
  negate : ∀ {condition other : Condition σ}, related condition other →
    related condition.negate other.negate

section Related

variable {related : Condition σ → Condition σ → Prop} (compatible : Compatible related)
  {scope other : StepScope σ}

include compatible

theorem related_ofChain {connective : Connective} {read readOther : Text → Condition σ}
    {text : Text} (closes : ClosesQuotes text)
    (reads : ∀ part : Text, part.length ≤ text.length → part.IsPartOf text →
      related (read part) (readOther part)) :
    related (ofChain connective read text) (ofChain connective readOther text) := by
  have parts : List.Forall₂ related
      ((Text.splitAround connective.token text).map fun part => read (Text.trim part))
      ((Text.splitAround connective.token text).map fun part => readOther (Text.trim part)) := by
    rw [List.forall₂_map_left_iff, List.forall₂_map_right_iff, List.forall₂_same]
    intro part mem
    have shorter : (Text.trim part).length ≤ text.length :=
      (Text.length_trim_le part).trans (Text.length_le_of_mem_splitAround mem)
    have isPart : part.IsPartOf text := Text.isPartOf_of_mem_splitAround
      (by cases connective <;> decide) (by cases connective <;> decide) closes mem
    exact reads _ shorter isPart.trim
  have nonempty : (Text.splitAround connective.token text).map (fun part => read (Text.trim part)) ≠
      [] := mt List.map_eq_nil_iff.mp (Nesting.splitAround_ne_nil _ _)
  rcases Option.isSome_iff_exists.mp (joinAll_isSome connective nonempty) with ⟨condition, found⟩
  rcases compatible.joinAll parts found with ⟨another, otherFound, holds⟩
  rw [ofChain, ofChain, found, otherFound]
  exact holds

theorem related_ofOperand {text : Text} (closes : ClosesQuotes text)
    (leaves : ∀ part : Text, part.IsPartOf text → related (leaf scope part) (leaf other part)) :
    related (ofOperand scope text) (ofOperand other text) := by
  -- Only the length gets smaller on every way into the text.
  induction length : text.length using Nat.strong_induction_on generalizing text with
  | _ length induction =>
      subst length
      cases unwrapped : Text.unwrap? text with
      | some inner =>
          have shorter : (Text.trim inner).length < text.length :=
            Nat.lt_of_le_of_lt (Text.length_trim_le inner) (Text.length_unwrap? unwrapped)
          have isPart := (Text.isPartOf_of_unwrap? unwrapped).trim
          rw [ofOperand_of_unwrap? unwrapped, ofOperand_of_unwrap? unwrapped, ofExpression_eq,
            ofExpression_eq]
          apply related_ofChain compatible isPart.closes
          intro alternative alternativeLength isAlternative
          apply related_ofChain compatible isAlternative.closes
          intro factor factorLength isFactor
          have inside := isFactor.trans (isAlternative.trans isPart)
          exact induction factor.length (by omega) isFactor.closes
            (fun part isInner => leaves part (isInner.trans inside)) rfl
      | none =>
          cases negated : negatedPart? text with
          | some part =>
              have isPart := isPartOf_of_negatedPart? closes negated
              rw [ofOperand_of_negatedPart? unwrapped negated,
                ofOperand_of_negatedPart? unwrapped negated]
              exact compatible.negate (induction part.length (length_negatedPart? negated)
                isPart.closes (fun inner isInner => leaves inner (isInner.trans isPart)) rfl)
          | none =>
              rw [ofOperand_of_none unwrapped negated, ofOperand_of_none unwrapped negated]
              exact leaves text (.refl closes)

theorem related_ofExpression {text : Text} (closes : ClosesQuotes text)
    (leaves : ∀ part : Text, part.IsPartOf text → related (leaf scope part) (leaf other part)) :
    related (ofExpression scope text) (ofExpression other text) := by
  rw [ofExpression_eq, ofExpression_eq]
  apply related_ofChain compatible closes
  intro alternative _ isAlternative
  apply related_ofChain compatible isAlternative.closes
  intro factor _ isFactor
  have inside := isFactor.trans isAlternative
  exact related_ofOperand compatible isFactor.closes
    fun part isPart => leaves part (isPart.trans inside)

/-- Two scopes refuse a text for the same reason, or read related conditions from it. -/
theorem related_parse {text : Text}
    (leaves : ∀ part : Text, part.IsPartOf text → related (leaf scope part) (leaf other part)) :
    (∃ error, parse scope text = .error error ∧ parse other text = .error error) ∨
      ∃ condition another, parse scope text = .ok condition ∧ parse other text = .ok another ∧
        related condition another := by
  rw [parse, parse]
  split
  · exact .inl ⟨_, rfl, rfl⟩
  · split
    · exact .inl ⟨_, rfl, rfl⟩
    · rename_i faultless
      have closes := ClosesQuotes.of_balanced (Nesting.balanced_of_fault?_eq_none faultless)
      have same := Text.references_expressionBody text
      refine .inr ⟨_, _, rfl, rfl, related_ofExpression compatible closes fun part isPart => ?_⟩
      exact leaves part ⟨isPart.closes, fun _ mem => same ▸ isPart.references mem⟩

end Related

end Condition

end FlowPlan
