import FlowPlan.Proofs.Alternatives
import FlowPlan.Proofs.Complement
import FlowPlan.Step

/-! # What simplified alternatives mean

Simplification compares conditions by their texts, so its result can be trusted
only as far as texts say what conditions mean. For any assignment it is enough
that texts decide among the parts of the alternatives. Plain alternatives need
no such promise: their texts decide whatever the leaves mean.
-/

namespace FlowPlan

namespace Condition

variable {σ : Type}

/-- The condition itself and everything it is put together from. -/
def parts : Condition σ → List (Condition σ)
  | .joined connective left right => .joined connective left right :: (left.parts ++ right.parts)
  | .negated inner => .negated inner :: inner.parts
  | leaf => [leaf]

theorem self_mem_parts (condition : Condition σ) : condition ∈ condition.parts := by
  cases condition <;> exact List.mem_cons_self

theorem operands_mem_parts {condition : Condition σ} {connective : Connective}
    {left right : Condition σ} (mem : joined connective left right ∈ condition.parts) :
    left ∈ condition.parts ∧ right ∈ condition.parts := by
  induction condition with
  | joined found first second firstInduction secondInduction =>
      rw [parts, List.mem_cons, List.mem_append] at mem
      rcases mem with equal | mem | mem
      · cases equal
        exact ⟨List.mem_cons_of_mem _ (List.mem_append_left _ left.self_mem_parts),
          List.mem_cons_of_mem _ (List.mem_append_right _ right.self_mem_parts)⟩
      · exact (firstInduction mem).imp
          (fun inside => List.mem_cons_of_mem _ (List.mem_append_left _ inside))
          (fun inside => List.mem_cons_of_mem _ (List.mem_append_left _ inside))
      · exact (secondInduction mem).imp
          (fun inside => List.mem_cons_of_mem _ (List.mem_append_right _ inside))
          (fun inside => List.mem_cons_of_mem _ (List.mem_append_right _ inside))
  | negated inner induction =>
      rw [parts, List.mem_cons] at mem
      rcases mem with equal | mem
      · cases equal
      · exact (induction mem).imp (List.mem_cons_of_mem _) (List.mem_cons_of_mem _)
  | comparison | call | raw => cases List.mem_singleton.mp mem

theorem splits_parts (conditions : List (Condition σ)) :
    Splits (· ∈ conditions.flatMap parts) := by
  intro connective left right mem
  rcases List.mem_flatMap.mp mem with ⟨condition, conditionMem, inside⟩
  exact (operands_mem_parts inside).imp
    (fun leftMem => List.mem_flatMap.mpr ⟨condition, conditionMem, leftMem⟩)
    (fun rightMem => List.mem_flatMap.mpr ⟨condition, conditionMem, rightMem⟩)

theorem over_of_mem_parts {leaf : Condition σ → Prop} {condition part : Condition σ}
    (built : Over leaf condition) (mem : part ∈ condition.parts) : Over leaf part := by
  induction condition with
  | joined connective left right leftInduction rightInduction =>
      rw [parts, List.mem_cons, List.mem_append] at mem
      rcases mem with rfl | mem | mem
      · exact built
      · exact leftInduction (over_joined.mp built).1 mem
      · exact rightInduction (over_joined.mp built).2 mem
  | negated inner induction =>
      rw [parts, List.mem_cons] at mem
      rcases mem with rfl | mem
      · exact built
      · exact induction (over_negated.mp built) mem
  | comparison | call | raw =>
      rcases List.mem_singleton.mp mem with rfl
      exact built

/-! ## Texts cannot decide among all conditions

The left side of a comparison may show connectives, which a chain of the same
text has in its own right.
-/

section AllTexts

variable {holds : Condition σ → Prop} (respects : Respects holds)

include respects

/-- Behind `true || z == true && `, the text of a comparison belongs to a chain that always
holds. -/
theorem holds_comparison_of_textDecides (decides : TextDecides holds fun _ => True) (left : Text)
    (right : Literal) : holds (comparison left .equal right []) := by
  let opening : Condition σ :=
    comparison "true || z".toList .equal (.boolean true) []
  let later : Condition σ := comparison ("z == true && ".toList ++ left) .equal right []
  have sameText : (joined .and opening (comparison left .equal right [])).render =
      (joined .or (constant true) later).render := rfl
  have always : holds (joined .or (constant true) later) :=
    (respects.or_iff _ _).mpr (Or.inl (respects.of_isTrue _ (isTrue_raw_booleanText [])))
  exact ((respects.and_iff _ _).mp ((decides _ _ trivial trivial sameText).mpr always)).2

theorem not_textDecides_all : ¬ TextDecides holds fun _ => True := by
  intro decides
  let chain : Condition σ :=
    joined .and (negated (constant true)) (comparison ['x'] .equal .null [])
  let single : Condition σ := comparison "!true && x".toList .equal .null []
  have sameText : single.render = chain.render := rfl
  have singleHolds : holds single := holds_comparison_of_textDecides respects decides _ _
  have chainHolds : holds chain := (decides _ _ trivial trivial sameText).mp singleHolds
  have opposite : holds (negated (constant true)) := ((respects.and_iff _ _).mp chainHolds).1
  exact (respects.negated_iff _).mp opposite
    (respects.of_isTrue _ (isTrue_raw_booleanText []))

end AllTexts

/-! ## The meaning of the result -/

/-- The result is never narrower than the alternatives. For plain alternatives it holds exactly
when one of them does. -/
theorem meaning_of_simplifyAny [Keyed σ] (alternatives : List (Condition σ)) :
    (∀ holds : Condition σ → Prop, Respects holds →
      TextDecides holds (· ∈ alternatives.flatMap parts) →
      (∃ alternative ∈ alternatives, holds alternative) →
      Permits holds (simplifyAny alternatives)) ∧
    (∀ truth : Text → Prop, Coherent truth → alternatives ≠ [] →
      (∀ alternative ∈ alternatives, alternative.IsPlain) →
      (Permits (HoldsBy truth) (simplifyAny alternatives) ↔
        ∃ alternative ∈ alternatives, alternative.HoldsBy truth)) := by
  constructor
  · intro holds respects decides any
    apply permits_simplifyAny respects (splits_parts alternatives) decides _ any
    intro alternative mem
    exact List.mem_flatMap.mpr ⟨alternative, mem, alternative.self_mem_parts⟩
  · intro truth coherent nonempty plain
    have respects : Respects (HoldsBy truth : Condition σ → Prop) := respects_of_coherent coherent
    constructor
    · intro permitted
      exact exists_of_permits_simplifyAny respects closed_isPlain (textDecides_holdsBy truth)
        (complementsCover_holdsBy coherent.opposite) plain nonempty permitted
    · intro any
      exact permits_simplifyAny respects closed_isPlain.splits (textDecides_holdsBy truth)
        plain any

/-- A step for two users, of which one wants it on a branch and the other everywhere else. -/
theorem meaning_of_simplifyAny_branch_and_others :
    let onBranch : Condition Step := comparison "github.ref".toList .equal (.string ['b']) []
    let elsewhere : Condition Step := comparison "github.ref".toList .notEqual (.string ['b']) []
    let wanted : Condition Step := raw "inputs.wanted".toList []
    let users := [joined .and wanted onBranch, joined .and wanted elsewhere]
    Permits (HoldsBy NothingEqual) (simplifyAny users) ∧
      ∃ user ∈ users, user.HoldsBy NothingEqual := by
  intro onBranch elsewhere wanted users
  have plain : ∀ user ∈ users, user.IsPlain := by decide
  have any : ∃ user ∈ users, user.HoldsBy NothingEqual := by decide
  have decides : TextDecides (HoldsBy NothingEqual) (· ∈ users.flatMap parts) := by
    apply (textDecides_holdsBy NothingEqual).mono
    intro part mem
    rcases List.mem_flatMap.mp mem with ⟨user, userMem, inside⟩
    exact over_of_mem_parts (plain user userMem) inside
  have meaning := meaning_of_simplifyAny users
  have kept := meaning.1 (HoldsBy NothingEqual) (respects_of_coherent coherent_nothingEqual)
    decides any
  exact ⟨kept, (meaning.2 NothingEqual coherent_nothingEqual (List.cons_ne_nil _ _) plain).mp kept⟩

end Condition

end FlowPlan
