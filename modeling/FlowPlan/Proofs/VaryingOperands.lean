import FlowPlan.Proofs.CoveredConditions
import FlowPlan.Proofs.OperandTexts
import FlowPlan.Proofs.Rendering

/-! # Varying operands

The connectives take constants away: an operand that always or never holds is
dropped or takes the place of the whole. So no constant is left under a
connective in a condition that is read from a text, and chains of conditions
that vary have exactly the operands that they are joined from.
-/

namespace FlowPlan

namespace Condition

variable {σ : Type}

/-- The condition is no constant. -/
def Varies (condition : Condition σ) : Prop :=
  condition.isTrue = false ∧ condition.isFalse = false

/-- No operand of a connective is a constant. -/
def OperandsVary : Condition σ → Prop
  | .joined _ left right =>
    (left.Varies ∧ left.OperandsVary) ∧ right.Varies ∧ right.OperandsVary
  | .negated inner => inner.OperandsVary
  | .comparison .. => True
  | .call .. => True
  | .raw .. => True

theorem varies_joined (connective : Connective) (left right : Condition σ) :
    (joined connective left right).Varies :=
  ⟨rfl, rfl⟩

theorem varies_of_mem_operands {connective : Connective} {condition operand : Condition σ}
    (varies : condition.Varies) (operandsVary : condition.OperandsVary)
    (mem : operand ∈ condition.operands connective) : operand.Varies := by
  induction condition with
  | joined found left right leftInduction rightInduction =>
      rw [operands] at mem
      split at mem
      · cases List.mem_append.mp mem with
        | inl inLeft => exact leftInduction operandsVary.1.1 operandsVary.1.2 inLeft
        | inr inRight => exact rightInduction operandsVary.2.1 operandsVary.2.2 inRight
      · exact List.mem_singleton.mp mem ▸ varies
  | comparison | call | negated | raw => exact List.mem_singleton.mp mem ▸ varies

theorem OperandsVary.negate {condition : Condition σ} (operandsVary : condition.OperandsVary) :
    condition.negate.OperandsVary := by
  rcases negate_cases condition with same | turned | ⟨_, _, _, _, _, _, turned⟩ |
    ⟨_, _, _, _, turned⟩
  · rw [same] at operandsVary
    exact operandsVary
  · rw [turned]
    exact operandsVary
  · rw [turned]
    trivial
  · rw [turned]
    trivial

variable [Keyed σ]

theorem OperandsVary.join (connective : Connective) {left right : Condition σ}
    (leftVary : left.OperandsVary) (rightVary : right.OperandsVary) :
    (connective.join left right).OperandsVary := by
  cases connective with
  | and =>
      rw [Connective.join, conj]
      split
      · exact rightVary
      · split
        · exact leftVary
        · split
          · trivial
          · simp_all [OperandsVary, Varies]
  | or =>
      rw [Connective.join, disj]
      split
      · trivial
      · split
        · exact rightVary
        · split
          · exact leftVary
          · simp_all [OperandsVary, Varies]

theorem operandsVary_of_parse {scope : StepScope σ} {text : Text} {condition : Condition σ}
    (parsed : parse scope text = .ok condition) : condition.OperandsVary := by
  refine among_of_parse OperandsVary.join (fun _ => OperandsVary.negate) ?_ parsed
  intro part isOperand _ _
  have closes := Text.ClosesQuotes.of_balanced
    (Nesting.balanced_of_fault?_eq_none isOperand.faultless)
  rcases leaf_shape σ closes with ⟨_, _, _, _, shape⟩ | ⟨_, _, _, _, shape⟩ | shape <;>
    rw [shape] <;> trivial

/-! ## Chains -/

/-- A chain that is joined from varying conditions has their operands. -/
theorem operands_joinAll (connective : Connective) {conditions : List (Condition σ)}
    {whole : Condition σ} (vary : ∀ condition ∈ conditions, condition.Varies)
    (found : connective.joinAll conditions = some whole) :
    whole.Varies ∧ whole.operands connective = conditions.flatMap (operands connective) := by
  cases conditions with
  | nil => cases connective <;> cases found
  | cons head tail =>
      rw [joinAll_cons] at found
      cases found
      induction tail generalizing head with
      | nil => exact ⟨vary head List.mem_cons_self, by simp⟩
      | cons next rest induction =>
          have headVaries := vary head List.mem_cons_self
          have nextVaries := vary next (by simp)
          have both := join_eq_joined connective headVaries nextVaries
          have later := induction (.joined connective head next) (by
            intro condition mem
            cases List.mem_cons.mp mem with
            | inl first => exact first ▸ varies_joined connective head next
            | inr behind => exact vary condition (by simp [behind]))
          rw [List.foldl_cons, both]
          refine ⟨later.1, later.2.trans ?_⟩
          simp [operands]

end Condition

end FlowPlan
