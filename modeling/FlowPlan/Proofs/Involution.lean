import FlowPlan.Proofs.Alternatives
import FlowPlan.Proofs.CoveredConditions
import FlowPlan.Proofs.OperandTexts
import FlowPlan.Proofs.SimplifiedMeaning

/-! # Negating twice

A negation is worked out as far as it goes: taken off, moved into an equality or
a constant, and put in front of everything else. Negating twice gives the same
condition again if no negation stands in front of something that it could have
been worked out on. Reading, joining and simplifying conditions leaves no such
negation behind.
-/

namespace FlowPlan

namespace Condition

variable {σ : Type}

/-- A negation cannot be worked out on the condition, and can only be put in front of it. -/
def TakesNegation : Condition σ → Prop
  | .comparison _ comparator _ _ => comparator ≠ .equal ∧ comparator ≠ .notEqual
  | .negated _ => False
  | .raw text _ => Text.trim text ≠ trueText ∧ Text.trim text ≠ falseText
  | .call .. => True
  | .joined .. => True

/-- Every negation stands in front of what takes it, and opaque texts have no blanks at their
ends. -/
def IsWorkedOut : Condition σ → Prop
  | .joined _ left right => left.IsWorkedOut ∧ right.IsWorkedOut
  | .negated inner => inner.TakesNegation ∧ inner.IsWorkedOut
  | .raw text _ => Text.trim text = text
  | .comparison .. => True
  | .call .. => True

theorem takesNegation_iff {condition : Condition σ} :
    condition.TakesNegation ↔ condition.negate = .negated condition := by
  cases condition with
  | comparison left comparator right sources =>
      cases comparator <;> simp [TakesNegation, negate, Comparator.opposite?]
  | call | joined => simp [TakesNegation, negate]
  | negated inner =>
      have larger : sizeOf inner ≠ sizeOf (negated (negated inner)) := by
        simp only [negated.sizeOf_spec]
        omega
      refine ⟨False.elim, fun equal => larger (congrArg sizeOf ?_)⟩
      rwa [negate] at equal
  | raw text sources =>
      rw [TakesNegation, negate]
      by_cases isTrue : Text.trim text = trueText
      · simp [Condition.isTrue, isTrue]
      · by_cases isFalse : Text.trim text = falseText
        · simp [Condition.isTrue, Condition.isFalse, isFalse, falseText, trueText]
        · simp [Condition.isTrue, Condition.isFalse, isTrue, isFalse]

/-- What a negation is worked out on comes back when it is negated once more. -/
theorem IsWorkedOut.negate_negate {condition : Condition σ} (worked : condition.IsWorkedOut) :
    condition.negate.negate = condition := by
  cases condition with
  | comparison left comparator right sources => cases comparator <;> rfl
  | call | joined => rfl
  | negated inner => exact takesNegation_iff.mp worked.1
  | raw text sources =>
      have trimmed : Text.trim text = text := worked
      rw [negate]
      by_cases isTrue : text = trueText
      · subst isTrue
        rfl
      · by_cases isFalse : text = falseText
        · subst isFalse
          rfl
        · simp [Condition.isTrue, Condition.isFalse, trimmed, isTrue, isFalse, negate]

/-- A negation anywhere in the condition is in front of what takes it. -/
theorem IsWorkedOut.takesNegation {condition inner : Condition σ} (worked : condition.IsWorkedOut)
    (mem : .negated inner ∈ condition.parts) : inner.TakesNegation := by
  induction condition with
  | joined connective left right leftInduction rightInduction =>
      rw [parts, List.mem_cons, List.mem_append] at mem
      obtain equal | inLeft | inRight := mem
      · cases equal
      · exact leftInduction worked.1 inLeft
      · exact rightInduction worked.2 inRight
  | negated other induction =>
      rw [parts, List.mem_cons] at mem
      cases mem with
      | inl equal =>
          cases equal
          exact worked.1
      | inr inside => exact induction worked.2 inside
  | comparison | call | raw => cases List.mem_singleton.mp mem

/-! ## How conditions come about -/

theorem closed_isWorkedOut [Keyed σ] : Closed (IsWorkedOut : Condition σ → Prop) where
  splits _ _ _ worked := worked
  joined _ _ _ leftWorked rightWorked := ⟨leftWorked, rightWorked⟩
  collapsed value _ _ _ _ := trim_booleanText value
  constant value := trim_booleanText value

theorem IsWorkedOut.negate {condition : Condition σ} (worked : condition.IsWorkedOut) :
    condition.negate.IsWorkedOut := by
  rcases negate_cases condition with same | turned | ⟨_, _, _, _, _, _, turned⟩ |
    ⟨_, value, _, _, turned⟩
  · rw [same] at worked
    exact worked.2
  · rw [turned]
    exact ⟨takesNegation_iff.mpr turned, worked⟩
  · rw [turned]
    trivial
  · rw [turned]
    exact trim_booleanText value

variable [Keyed σ]

theorem isWorkedOut_leaf {scope : StepScope σ} {text : Text} (isOperand : Text.IsOperand text) :
    (leaf scope text).IsWorkedOut := by
  have closes := Text.ClosesQuotes.of_balanced
    (Nesting.balanced_of_fault?_eq_none isOperand.faultless)
  rcases leaf_shape σ closes with ⟨_, _, _, _, shape⟩ | ⟨_, _, _, _, shape⟩ | shape
  · rw [shape]
    trivial
  · rw [shape]
    trivial
  · rw [shape]
    exact isOperand.trimmed

theorem isWorkedOut_of_parse {scope : StepScope σ} {text : Text} {condition : Condition σ}
    (parsed : parse scope text = .ok condition) : condition.IsWorkedOut :=
  among_of_parse closed_isWorkedOut.join (fun _ => IsWorkedOut.negate)
    (fun isOperand _ _ => isWorkedOut_leaf isOperand) parsed

/-- Read from a text in some scope, made as a leaf, or put together from such conditions. -/
inductive IsAssembled : Condition σ → Prop
  | parsed {scope : StepScope σ} {text : Text} {condition : Condition σ}
      (read : parse scope text = .ok condition) : IsAssembled condition
  | comparison (left : Text) (comparator : Comparator) (right : Literal)
      (sources : List (Source σ)) : IsAssembled (.comparison left comparator right sources)
  | call (name : Text) (arguments : List Text) (sources : List (Source σ)) :
      IsAssembled (.call name arguments sources)
  | raw {text : Text} (trimmed : Text.trim text = text) (sources : List (Source σ)) :
      IsAssembled (.raw text sources)
  | conj {left right : Condition σ} (leftAssembled : IsAssembled left)
      (rightAssembled : IsAssembled right) : IsAssembled (left.conj right)
  | disj {left right : Condition σ} (leftAssembled : IsAssembled left)
      (rightAssembled : IsAssembled right) : IsAssembled (left.disj right)
  | negate {condition : Condition σ} (assembled : IsAssembled condition) :
      IsAssembled condition.negate
  | allOf {conditions : List (Condition σ)} {condition : Condition σ}
      (assembled : ∀ member ∈ conditions, IsAssembled member)
      (found : Condition.allOf conditions = some condition) : IsAssembled condition
  | anyOf {conditions : List (Condition σ)} {condition : Condition σ}
      (assembled : ∀ member ∈ conditions, IsAssembled member)
      (found : Condition.anyOf conditions = some condition) : IsAssembled condition
  | withDistinctConjuncts {condition : Condition σ} (assembled : IsAssembled condition) :
      IsAssembled condition.withDistinctConjuncts
  | simplifyAny {conditions : List (Condition σ)} {condition : Condition σ}
      (assembled : ∀ member ∈ conditions, IsAssembled member)
      (found : Condition.simplifyAny conditions = some condition) : IsAssembled condition

theorem IsAssembled.isWorkedOut {condition : Condition σ} (assembled : condition.IsAssembled) :
    condition.IsWorkedOut := by
  have closed : Closed (IsWorkedOut : Condition σ → Prop) := closed_isWorkedOut
  induction assembled with
  | parsed read => exact isWorkedOut_of_parse read
  | comparison | call => trivial
  | raw trimmed => exact trimmed
  | conj _ _ leftInduction rightInduction => exact closed.conj leftInduction rightInduction
  | disj _ _ leftInduction rightInduction => exact closed.disj leftInduction rightInduction
  | negate _ induction => exact induction.negate
  | allOf _ found induction => exact closed.allOf induction found
  | anyOf _ found induction => exact closed.anyOf induction found
  | withDistinctConjuncts _ induction => exact closed.withDistinctConjuncts induction
  | simplifyAny _ found induction => exact among_simplifyAny closed induction found

/-- Negating twice gives back the condition with all its sources, for no negation in it stands
directly in front of a negation, of an equality or of a constant. -/
theorem negation_is_involutive {condition : Condition σ} (assembled : condition.IsAssembled) :
    condition.negate.negate = condition ∧
      ∀ inner, .negated inner ∈ condition.parts → inner.TakesNegation :=
  ⟨assembled.isWorkedOut.negate_negate, fun _ => assembled.isWorkedOut.takesNegation⟩

end Condition

namespace Sample

def isOnMain : Condition Step := .comparison ['x'] .equal (.string ['m']) [.job "a"]

def isFewerThanLimit : Condition Step := .comparison ['y'] .less (.boolean true) [.job "b"]

/-- An equality that a negation is worked out on next to an ordering that takes one. -/
def neitherHolds : Condition Step := (isOnMain.disj isFewerThanLimit.negate).negate

theorem negation_is_involutive_neitherHolds :
    neitherHolds = .negated (.joined .or isOnMain (.negated isFewerThanLimit)) ∧
      neitherHolds.negate.negate = neitherHolds ∧ isFewerThanLimit.TakesNegation := by
  have assembled : neitherHolds.IsAssembled :=
    .negate (.disj (.comparison _ _ _ _) (.negate (.comparison _ _ _ _)))
  obtain ⟨twice, takes⟩ := Condition.negation_is_involutive assembled
  exact ⟨rfl, twice, takes isFewerThanLimit (by simp [neitherHolds, isOnMain, isFewerThanLimit,
    Condition.disj, Condition.negate, Comparator.opposite?, Condition.isTrue, Condition.isFalse,
    Condition.parts])⟩

end Sample

end FlowPlan
