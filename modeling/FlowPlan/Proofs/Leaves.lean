import FlowPlan.Proofs.Merging

/-! # Leaves

A condition is built over its leaves by the connectives and the negation. If
the texts of the leaves are given a truth value each, every condition has one.
-/

namespace FlowPlan

namespace Condition

variable {σ : Type}

/-- The comparisons, calls and opaque texts of a condition, from left to right. -/
def leaves : Condition σ → List (Condition σ)
  | .joined _ left right => left.leaves ++ right.leaves
  | .negated inner => inner.leaves
  | leaf => [leaf]

/-- Every leaf is of one kind. -/
def Over (leaf : Condition σ → Prop) (condition : Condition σ) : Prop :=
  ∀ found ∈ condition.leaves, leaf found

@[simp] theorem over_joined {leaf : Condition σ → Prop} {connective : Connective}
    {left right : Condition σ} :
    Over leaf (.joined connective left right) ↔ Over leaf left ∧ Over leaf right := by
  simp [Over, leaves, or_imp, forall_and]

@[simp] theorem over_negated {leaf : Condition σ → Prop} {inner : Condition σ} :
    Over leaf (.negated inner) ↔ Over leaf inner :=
  Iff.rfl

@[simp] theorem over_raw {leaf : Condition σ → Prop} {text : Text} {sources : List (Source σ)} :
    Over leaf (.raw text sources) ↔ leaf (.raw text sources) := by
  simp [Over, leaves]

@[simp] theorem over_comparison {leaf : Condition σ → Prop} {left : Text}
    {comparator : Comparator} {right : Literal} {sources : List (Source σ)} :
    Over leaf (.comparison left comparator right sources) ↔
      leaf (.comparison left comparator right sources) := by
  simp [Over, leaves]

@[simp] theorem over_call {leaf : Condition σ → Prop} {name : Text} {arguments : List Text}
    {sources : List (Source σ)} :
    Over leaf (.call name arguments sources) ↔ leaf (.call name arguments sources) := by
  simp [Over, leaves]

theorem splits_over (leaf : Condition σ → Prop) : Splits (Over leaf) :=
  fun _ _ _ member => over_joined.mp member

/-- Whatever is put together from conditions over some leaves is over them again, if the constants
are among them. -/
theorem closed_over [Keyed σ] {leaf : Condition σ → Prop}
    (constants : ∀ value sources, leaf (.raw (booleanText value) sources)) :
    Closed (Over leaf) where
  splits := splits_over leaf
  joined _ _ _ leftMem rightMem := over_joined.mpr ⟨leftMem, rightMem⟩
  collapsed value _ _ _ _ := over_raw.mpr (constants value _)
  constant value := over_raw.mpr (constants value [])

/-- Put together from leaves of the given conditions and from constants. -/
def BuiltFrom (conditions : List (Condition σ)) : Condition σ → Prop :=
  Over fun leaf => (∃ value sources, leaf = .raw (booleanText value) sources) ∨
    ∃ condition ∈ conditions, leaf ∈ condition.leaves

theorem closed_builtFrom [Keyed σ] (conditions : List (Condition σ)) :
    Closed (BuiltFrom conditions) :=
  closed_over fun value sources => Or.inl ⟨value, sources, rfl⟩

theorem builtFrom_of_mem {conditions : List (Condition σ)} {condition : Condition σ}
    (mem : condition ∈ conditions) : BuiltFrom conditions condition :=
  fun _ leafMem => Or.inr ⟨condition, mem, leafMem⟩

/-! ## Truth by the texts of leaves -/

/-- Truth of a condition when the texts of its leaves have theirs. Blanks around an opaque text do
not count. -/
def HoldsBy (truth : Text → Prop) : Condition σ → Prop
  | .joined .and left right => left.HoldsBy truth ∧ right.HoldsBy truth
  | .joined .or left right => left.HoldsBy truth ∨ right.HoldsBy truth
  | .negated inner => ¬ inner.HoldsBy truth
  | .raw text _ => truth (Text.trim text)
  | leaf => truth leaf.render

instance decidableHoldsBy (truth : Text → Prop) [DecidablePred truth] :
    (condition : Condition σ) → Decidable (condition.HoldsBy truth)
  | .joined .and left right =>
    @instDecidableAnd _ _ (decidableHoldsBy truth left) (decidableHoldsBy truth right)
  | .joined .or left right =>
    @instDecidableOr _ _ (decidableHoldsBy truth left) (decidableHoldsBy truth right)
  | .negated inner => @instDecidableNot _ (decidableHoldsBy truth inner)
  | .raw text _ => inferInstanceAs (Decidable (truth (Text.trim text)))
  | .comparison left comparator right sources =>
    inferInstanceAs (Decidable (truth (comparison left comparator right sources).render))
  | .call name arguments sources =>
    inferInstanceAs (Decidable (truth (call name arguments sources).render))

theorem respectsConnectives_holdsBy (truth : Text → Prop) :
    RespectsConnectives (HoldsBy truth : Condition σ → Prop) where
  and_iff _ _ := Iff.rfl
  or_iff _ _ := Iff.rfl
  negated_iff _ := Iff.rfl

theorem respects_holdsBy {truth : Text → Prop} (trueHolds : truth trueText)
    (falseFails : ¬ truth falseText) :
    Respects (HoldsBy truth : Condition σ → Prop) where
  and_iff _ _ := Iff.rfl
  or_iff _ _ := Iff.rfl
  negated_iff _ := Iff.rfl
  of_isTrue condition isTrue := by
    cases condition with
    | raw text sources =>
        have equal : Text.trim text = trueText := of_decide_eq_true isTrue
        rw [HoldsBy, equal]
        exact trueHolds
    | _ => cases isTrue
  not_of_isFalse condition isFalse := by
    cases condition with
    | raw text sources =>
        have equal : Text.trim text = falseText := of_decide_eq_true isFalse
        rw [HoldsBy, equal]
        exact falseFails
    | _ => cases isFalse

end Condition

end FlowPlan
