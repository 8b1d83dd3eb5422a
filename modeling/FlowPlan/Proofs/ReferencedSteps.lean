import FlowPlan.Proofs.Standing
import FlowPlan.Proofs.TwoScopes
import FlowPlan.Value

/-! # The ids that a text looks up

A text is scanned once for the ids that it refers to, and again in every part
that is cut out of it when it is read. No part refers to an id that the text
does not refer to as a whole, so it makes no difference to what is read whether
the scope knows any other id.
-/

namespace FlowPlan

namespace StepScope

variable {σ : Type}

/-- The part of the scope that knows the given ids alone. -/
def within (scope : StepScope σ) (ids : List String) : StepScope σ := fun id =>
  if id ∈ ids then scope id else .none

/-- Both scopes have the same steps for the ids that the text refers to. -/
def AgreeOn (scope other : StepScope σ) (text : Text) : Prop :=
  ∀ id, ⟨.steps, id⟩ ∈ Text.references text → scope id = other id

theorem agreeOn_within (scope : StepScope σ) (text : Text) :
    AgreeOn (scope.within (Text.referencedSteps text)) scope text := by
  intro id mem
  exact if_pos (Text.mem_referencedSteps.mpr mem)

namespace AgreeOn

variable {scope other : StepScope σ} {text : Text}

theorem of_isPartOf {part : Text} (agree : AgreeOn scope other text) (isPart : part.IsPartOf text) :
    AgreeOn scope other part :=
  fun id mem => agree id (isPart.references mem)

theorem filterMap_eq (agree : AgreeOn scope other text) {references : List Reference}
    (included : references ⊆ Text.references text) :
    references.filterMap (Reference.source? scope) =
      references.filterMap (Reference.source? other) := by
  apply List.filterMap_congr
  rintro ⟨root, name⟩ mem
  cases root with
  | needs => rfl
  | steps => simp only [Reference.source?, agree name (included mem)]

variable [Keyed σ]

theorem sources_eq (agree : AgreeOn scope other text) :
    Text.sources scope text = Text.sources other text :=
  congrArg Sources.ofList (agree.filterMap_eq (List.Subset.refl _))

theorem leaf_eq (agree : AgreeOn scope other text) (closes : Text.ClosesQuotes text) :
    Condition.leaf scope text = Condition.leaf other text := by
  rcases Condition.leaf_shape σ closes with ⟨left, comparator, right, isPart, shape⟩ |
    ⟨name, arguments, _, parts, shape⟩ | shape
  · rw [shape, shape, (agree.of_isPartOf isPart).sources_eq]
  · have included : arguments.flatMap Text.references ⊆ Text.references text := by
      intro reference mem
      rcases List.mem_flatMap.mp mem with ⟨argument, argumentMem, inside⟩
      exact (parts argument argumentMem).references inside
    rw [shape, shape, agree.filterMap_eq included]
  · rw [shape, shape, agree.sources_eq]

end AgreeOn

end StepScope

namespace Condition

variable {σ : Type} [Keyed σ] {scope other : StepScope σ} {text : Text}

theorem compatible_eq : Compatible (Eq : Condition σ → Condition σ → Prop) where
  joinAll both found := by
    rw [List.forall₂_eq_eq_eq] at both
    cases both
    exact ⟨_, found, rfl⟩
  negate same := congrArg Condition.negate same

/-- What a text is read as depends on the ids alone that it refers to. -/
theorem parse_congr (agree : StepScope.AgreeOn scope other text) :
    parse scope text = parse other text := by
  rcases related_parse compatible_eq
    (fun part isPart => (agree.of_isPartOf isPart).leaf_eq isPart.closes) with
      ⟨error, failed, otherFailed⟩ | ⟨condition, _, read, otherRead, rfl⟩
  · rw [failed, otherFailed]
  · rw [read, otherRead]

end Condition

theorem Value.parse_congr {σ : Type} [Keyed σ] {scope other : StepScope σ} {text : Text}
    (agree : StepScope.AgreeOn scope other text) :
    Value.parse scope text = Value.parse other text := by
  have body : StepScope.AgreeOn scope other (Text.expressionBody text) := by
    rw [StepScope.AgreeOn, Text.references_expressionBody]
    exact agree
  rw [Value.parse, Value.parse, body.sources_eq]

/-- The scan of a whole text misses no step that any part of it looks up. -/
theorem StepScope.parse_within_referencedSteps {σ : Type} [Keyed σ] (scope : StepScope σ)
    (text : Text) :
    Condition.parse (scope.within (Text.referencedSteps text)) text = Condition.parse scope text ∧
      Value.parse (scope.within (Text.referencedSteps text)) text = Value.parse scope text :=
  ⟨Condition.parse_congr (scope.agreeOn_within text), Value.parse_congr (scope.agreeOn_within text)⟩

end FlowPlan
