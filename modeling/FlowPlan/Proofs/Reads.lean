import FlowPlan.Proofs.Leaves
import FlowPlan.Graph.RunCondition

/-! # What conditions read

The sources of a condition are those of its leaves, except that of several steps
with one key a single one is kept. Putting conditions together adds no source.
-/

namespace FlowPlan

namespace Sources

variable {σ : Type} [Keyed σ]

theorem eq_or_mem_of_mem_insert {source member : Source σ} {sources : Sources σ}
    (mem : member ∈ insert source sources) : member = source ∨ member ∈ sources := by
  induction sources with
  | nil => exact Or.inl (List.mem_singleton.mp mem)
  | cons head tail induction =>
      rw [insert] at mem
      split at mem
      · exact List.mem_cons.mp mem
      · split at mem
        · rcases List.mem_cons.mp mem with rfl | later
          · exact Or.inr List.mem_cons_self
          · exact (induction later).imp_right (List.mem_cons_of_mem head)
        · exact Or.inr mem

theorem mem_insert_of_mem {source member : Source σ} {sources : Sources σ}
    (mem : member ∈ sources) : member ∈ insert source sources := by
  induction sources with
  | nil => cases mem
  | cons head tail induction =>
      rw [insert]
      split
      · exact List.mem_cons_of_mem source mem
      · split
        · rcases List.mem_cons.mp mem with rfl | later
          · exact List.mem_cons_self
          · exact List.mem_cons_of_mem head (induction later)
        · exact mem

/-- A step is not added if one with its key is there. -/
theorem exists_key_mem_insert (step : σ) (sources : Sources σ) :
    ∃ kept, .step kept ∈ insert (.step step) sources ∧ key kept = key step := by
  induction sources with
  | nil => exact ⟨step, List.mem_singleton_self _, rfl⟩
  | cons head tail induction =>
      rw [insert]
      split
      · exact ⟨step, List.mem_cons_self, rfl⟩
      · rename_i notBefore
        split
        · rcases induction with ⟨kept, mem, equal⟩
          exact ⟨kept, List.mem_cons_of_mem head mem, equal⟩
        · rename_i notBehind
          cases head with
          | job id => exact absurd rfl notBefore
          | step other =>
              simp only [Source.before, decide_eq_true_eq] at notBefore notBehind
              exact ⟨other, List.mem_cons_self, Nat.le_antisymm (by omega) (by omega)⟩

theorem union_cons (head : Source σ) (left tail : Sources σ) :
    union left (head :: tail) = union (insert head left) tail := rfl

theorem mem_or_mem_of_mem_union {member : Source σ} {left right : Sources σ}
    (mem : member ∈ union left right) : member ∈ left ∨ member ∈ right := by
  induction right generalizing left with
  | nil => exact Or.inl mem
  | cons head tail induction =>
      rcases induction mem with inLeft | inTail
      · rcases eq_or_mem_of_mem_insert inLeft with rfl | inLeft
        · exact Or.inr List.mem_cons_self
        · exact Or.inl inLeft
      · exact Or.inr (List.mem_cons_of_mem head inTail)

theorem mem_union_of_mem_left {member : Source σ} {left right : Sources σ} (mem : member ∈ left) :
    member ∈ union left right := by
  induction right generalizing left with
  | nil => exact mem
  | cons head tail induction => exact induction (mem_insert_of_mem mem)

theorem exists_key_mem_union_of_mem_right {step : σ} (left : Sources σ) {right : Sources σ}
    (mem : .step step ∈ right) : ∃ kept, .step kept ∈ union left right ∧ key kept = key step := by
  induction right generalizing left with
  | nil => cases mem
  | cons head tail induction =>
      rcases List.mem_cons.mp mem with rfl | later
      · rcases exists_key_mem_insert step left with ⟨kept, keptMem, equal⟩
        rw [union_cons]
        exact ⟨kept, mem_union_of_mem_left keptMem, equal⟩
      · exact induction (insert head left) later

omit [Keyed σ] in
theorem mem_steps {step : σ} {sources : Sources σ} :
    step ∈ sources.steps ↔ .step step ∈ sources := by
  simp only [steps, List.mem_filterMap]
  constructor
  · rintro ⟨source, mem, found⟩
    cases source with
    | step => cases found; exact mem
    | job => cases found
  · intro mem
    exact ⟨.step step, mem, rfl⟩

end Sources

namespace Condition

variable {σ : Type} [Keyed σ]

/-- Everything that a leaf reads is of one kind. -/
def ReadsOnly (property : Source σ → Prop) (condition : Condition σ) : Prop :=
  condition.Over fun leaf => ∀ source ∈ leaf.sources, property source

theorem ReadsOnly.of_mem_sources {property : Source σ → Prop} {condition : Condition σ}
    (only : condition.ReadsOnly property) {source : Source σ} (mem : source ∈ condition.sources) :
    property source := by
  induction condition with
  | comparison | call | raw => exact only _ List.mem_cons_self source mem
  | negated inner induction => exact induction (over_negated.mp only) mem
  | joined connective left right leftInduction rightInduction =>
      have parts := over_joined.mp only
      rcases Sources.mem_or_mem_of_mem_union mem with inLeft | inRight
      · exact leftInduction parts.1 inLeft
      · exact rightInduction parts.2 inRight

theorem ReadsOnly.mono {fewer more : Source σ → Prop} {condition : Condition σ}
    (only : condition.ReadsOnly fewer) (included : ∀ source, fewer source → more source) :
    condition.ReadsOnly more :=
  fun leaf leafMem source mem => included source (only leaf leafMem source mem)

theorem closed_readsOnly (property : Source σ → Prop) :
    Closed (ReadsOnly property : Condition σ → Prop) where
  splits := splits_over _
  joined _ _ _ leftOnly rightOnly := over_joined.mpr ⟨leftOnly, rightOnly⟩
  collapsed _ left right leftOnly rightOnly := by
    rw [collapsed, ReadsOnly, over_raw]
    intro source mem
    rcases Sources.mem_or_mem_of_mem_union mem with inLeft | inRight
    · exact leftOnly.of_mem_sources inLeft
    · exact rightOnly.of_mem_sources inRight
  constant value := by
    rw [constant, ReadsOnly, over_raw]
    intro source mem
    cases mem

theorem Closed.and {first second : Condition σ → Prop} (firstClosed : Closed first)
    (secondClosed : Closed second) :
    Closed fun condition => first condition ∧ second condition where
  splits _ _ _ member :=
    ⟨⟨(firstClosed.splits _ _ _ member.1).1, (secondClosed.splits _ _ _ member.2).1⟩,
      ⟨(firstClosed.splits _ _ _ member.1).2, (secondClosed.splits _ _ _ member.2).2⟩⟩
  joined _ _ _ leftMem rightMem :=
    ⟨firstClosed.joined _ _ _ leftMem.1 rightMem.1, secondClosed.joined _ _ _ leftMem.2 rightMem.2⟩
  collapsed _ _ _ leftMem rightMem :=
    ⟨firstClosed.collapsed _ _ _ leftMem.1 rightMem.1,
      secondClosed.collapsed _ _ _ leftMem.2 rightMem.2⟩
  constant _ := ⟨firstClosed.constant _, secondClosed.constant _⟩

/-- A step that a leaf reads is among the sources, at least by its key. -/
theorem exists_key_mem_sources {condition leaf : Condition σ} (leafMem : leaf ∈ condition.leaves)
    {step : σ} (mem : .step step ∈ leaf.sources) :
    ∃ kept, .step kept ∈ condition.sources ∧ key kept = key step := by
  induction condition with
  | comparison | call | raw =>
      cases List.mem_singleton.mp leafMem
      exact ⟨step, mem, rfl⟩
  | negated inner induction => exact induction leafMem
  | joined connective left right leftInduction rightInduction =>
      rcases List.mem_append.mp leafMem with inLeft | inRight
      · rcases leftInduction inLeft with ⟨kept, keptMem, equal⟩
        exact ⟨kept, Sources.mem_union_of_mem_left keptMem, equal⟩
      · rcases rightInduction inRight with ⟨kept, keptMem, equal⟩
        rcases Sources.exists_key_mem_union_of_mem_right left.sources keptMem with
          ⟨second, secondMem, same⟩
        exact ⟨second, secondMem, same.trans equal⟩


theorem readsOnly_of_isPropagatable {condition : Condition σ}
    (propagatable : condition.isPropagatable = true) :
    condition.ReadsOnly fun source => source.step? = none := by
  intro leaf leafMem source mem
  cases source with
  | job => rfl
  | step step =>
      rcases exists_key_mem_sources leafMem mem with ⟨kept, keptMem, _⟩
      have inSteps := Sources.mem_steps.mpr keptMem
      rw [List.isEmpty_iff.mp propagatable] at inSteps
      cases inSteps

theorem steps_of_readsOnly {condition : Condition σ}
    (only : condition.ReadsOnly fun source => source.step? = none) :
    condition.sources.steps = [] := by
  apply List.eq_nil_iff_forall_not_mem.mpr
  intro step mem
  cases only.of_mem_sources (Sources.mem_steps.mp mem)

end Condition

end FlowPlan
