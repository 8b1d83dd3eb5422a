import FlowPlan.Proofs.Complement
import FlowPlan.Step

/-! # When complements are opposites

Exactly one of two complements holds, unless both are chains and one of them
shows the other one behind a mark. Then only the first operands are opposites of
each other, and the operands behind them are the same. So the two conjunctions
both fail as soon as one of those fails, and the two disjunctions both hold as
soon as one of those holds.
-/

namespace FlowPlan

namespace Condition

variable {σ : Type} {truth : Text → Prop}

/-- The operand leaves the outcome of the chain to the other operands. -/
def IsNeutral (connective : Connective) (truth : Text → Prop) (operand : Condition σ) : Prop :=
  operand.HoldsBy truth ↔ connective = .and

theorem forall_isNeutral_iff {connective : Connective} {rest otherRest : List (Condition σ)}
    (tails : List.Forall₂ (fun member same => member.HoldsBy truth ↔ same.HoldsBy truth)
      rest otherRest) :
    (∀ member ∈ rest, IsNeutral connective truth member) ↔
      ∀ member ∈ otherRest, IsNeutral connective truth member :=
  forall_mem_iff_of_forall₂ (tails.imp fun _ _ same => iff_congr same Iff.rfl)

/-- Chains with opposite first operands are opposites where what is behind those decides nothing. -/
theorem opposite_iff_isNeutral {connective : Connective}
    {condition other operand found : Condition σ} {rest foundRest : List (Condition σ)}
    (listed : condition.operands connective = operand :: rest)
    (otherListed : other.operands connective = found :: foundRest)
    (heads : operand.HoldsBy truth ↔ ¬ found.HoldsBy truth)
    (tails : List.Forall₂ (fun member same => member.HoldsBy truth ↔ same.HoldsBy truth)
      rest foundRest) :
    (condition.HoldsBy truth ↔ ¬ other.HoldsBy truth) ↔
      ∀ member ∈ rest, IsNeutral connective truth member := by
  have connectives : RespectsConnectives (HoldsBy truth : Condition σ → Prop) :=
    respectsConnectives_holdsBy truth
  -- What the later operands have in common decides, so it is one proposition in the end.
  cases connective with
  | and =>
      have neutral : (∀ member ∈ rest, IsNeutral .and truth member) ↔
          ∀ member ∈ rest, member.HoldsBy truth := by simp [IsNeutral]
      have sameRest := forall_mem_iff_of_forall₂ tails
      rw [neutral, holds_iff_conjuncts connectives condition,
        holds_iff_conjuncts connectives other, conjuncts, conjuncts, listed, otherListed,
        List.forall_mem_cons, List.forall_mem_cons, ← sameRest, heads]
      generalize (∀ member ∈ rest, member.HoldsBy truth) = undecided
      by_cases leaves : undecided
      · simp [leaves]
      · simp [leaves]
  | or =>
      have neutral : (∀ member ∈ rest, IsNeutral .or truth member) ↔
          ¬ ∃ member ∈ rest, member.HoldsBy truth := by simp [IsNeutral]
      have sameRest := exists_mem_iff_of_forall₂ tails
      rw [neutral, holds_iff_disjuncts connectives condition,
        holds_iff_disjuncts connectives other, disjuncts, disjuncts, listed, otherListed,
        List.exists_mem_cons_iff, List.exists_mem_cons_iff, ← sameRest, heads]
      generalize (∃ member ∈ rest, member.HoldsBy truth) = decided
      by_cases decides : decided
      · simp [decides]
      · simp [decides]

/-- Two chains of one connective count as complements only by a mark. -/
theorem marks_of_chains {connective : Connective} {condition other : Condition σ}
    (plain : condition.IsPlain) (otherPlain : other.IsPlain) (chain : condition.IsChain connective)
    (otherChain : other.IsChain connective) (complement : condition.isComplementOf other = true) :
    Marks connective condition other ∨ Marks connective other condition := by
  have texts : (isNegationText condition.render other.render ||
      isNegationText other.render condition.render) = true := by
    rcases chain with ⟨left, right, rfl⟩
    rcases otherChain with ⟨left', right', rfl⟩
    exact complement
  exact (Bool.or_eq_true_iff.mp texts).imp
    (marks_of_isNegationText plain otherPlain chain)
    (marks_of_isNegationText otherPlain plain otherChain)

/-- Where a mark tells two chains apart, they are opposites if nothing behind the first operand
decides. -/
theorem Marks.opposite_iff {connective : Connective} {condition other : Condition σ}
    (marks : Marks connective condition other) (plain : condition.IsPlain)
    (otherPlain : other.IsPlain) (truth : Text → Prop) :
    ((condition.HoldsBy truth ↔ ¬ other.HoldsBy truth) ↔
        ∀ operand ∈ (condition.operands connective).tail, IsNeutral connective truth operand) ∧
      ((condition.HoldsBy truth ↔ ¬ other.HoldsBy truth) ↔
        ∀ operand ∈ (other.operands connective).tail, IsNeutral connective truth operand) := by
  rcases marks.exists_heads plain otherPlain truth with
    ⟨operand, rest, found, foundRest, listed, otherListed, heads, tails⟩
  have opposite := opposite_iff_isNeutral listed otherListed heads tails
  rw [listed, otherListed, List.tail_cons, List.tail_cons]
  exact ⟨opposite, opposite.trans (forall_isNeutral_iff tails)⟩

theorem complements_are_opposite_iff (turns : TurnsEquality truth) {condition other : Condition σ}
    (plain : condition.IsPlain) (otherPlain : other.IsPlain)
    (complement : condition.isComplementOf other = true) :
    (condition.HoldsBy truth ↔ ¬ other.HoldsBy truth) ↔
      ∀ connective, condition.IsChain connective → other.IsChain connective →
        ∀ operand ∈ (condition.operands connective).tail, IsNeutral connective truth operand := by
  constructor
  · intro opposite connective chain otherChain
    rcases marks_of_chains plain otherPlain chain otherChain complement with marks | marks
    · exact (marks.opposite_iff plain otherPlain truth).1.mp opposite
    · exact (marks.opposite_iff otherPlain plain truth).2.mp (iff_not_comm.mp opposite)
  · intro neutral
    rcases opposite_or_marks turns plain otherPlain complement with
      opposite | ⟨connective, marks | marks⟩
    · exact opposite
    · exact (marks.opposite_iff plain otherPlain truth).1.mpr
        (neutral connective marks.chain marks.otherChain)
    · exact iff_not_comm.mp ((marks.opposite_iff otherPlain plain truth).2.mpr
        (neutral connective marks.otherChain marks.chain))

end Condition

namespace Sample

def isReady : Condition Step := .raw ['x'] []

def isChosen : Condition Step := .comparison ['y'] .equal (.string ['c']) []

def readyAndChosen : Condition Step := .joined .and isReady isChosen

def unreadyAndChosen : Condition Step := .joined .and (.negated isReady) isChosen

theorem complements_are_opposite_iff_chosen :
    unreadyAndChosen.isComplementOf readyAndChosen = true ∧
      ((unreadyAndChosen.HoldsBy Condition.NothingEqual ↔
          ¬ readyAndChosen.HoldsBy Condition.NothingEqual) ↔
        ∀ connective, unreadyAndChosen.IsChain connective → readyAndChosen.IsChain connective →
          ∀ operand ∈ (unreadyAndChosen.operands connective).tail,
            operand.IsNeutral connective Condition.NothingEqual) := by
  have complement : unreadyAndChosen.isComplementOf readyAndChosen = true := by decide
  exact ⟨complement, Condition.complements_are_opposite_iff
    Condition.coherent_nothingEqual.opposite (by decide) (by decide) complement⟩

/-- Both conjunctions fail where nothing is chosen. -/
theorem complements_fail_together :
    ¬ ∀ (condition other : Condition Step) (truth : Text → Prop), Condition.TurnsEquality truth →
      condition.IsPlain → other.IsPlain → condition.isComplementOf other = true →
        (condition.HoldsBy truth ↔ ¬ other.HoldsBy truth) := by
  intro opposites
  have opposite : unreadyAndChosen.HoldsBy Condition.NothingEqual ↔
      ¬ readyAndChosen.HoldsBy Condition.NothingEqual :=
    opposites unreadyAndChosen readyAndChosen Condition.NothingEqual
      Condition.coherent_nothingEqual.opposite (by decide) (by decide) (by decide)
  exact absurd opposite (by decide)

end Sample

end FlowPlan
