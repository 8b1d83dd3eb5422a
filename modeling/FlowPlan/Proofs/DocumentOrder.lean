import FlowPlan.Definition.Position
import Mathlib.Data.List.Lex

/-! # Document order

The steps below a position are listed in the order in which they are written: a
step in front of the steps below it, and all of these in front of whatever is
written behind the step. For the paths to the steps this is the lexicographic
order, so the first step of a kind in the list is the one with the least path.
-/

namespace FlowPlan

namespace StepDefinition

@[simp] theorem within?_nil (path : List Nat) : within? [] path = none := by
  cases path with
  | nil => rfl
  | cons number path => cases path <;> simp [within?]

/-- The first number of a path leads to a step, and the rest of it leads on from its children. -/
theorem within?_cons_eq_some_iff {steps : List StepDefinition} {number : Nat} {path : List Nat}
    {found : StepDefinition} :
    within? steps (number :: path) = some found ↔ ∃ step, steps[number]? = some step ∧
      ((path = [] ∧ found = step) ∨ within? (step.children.getD []) path = some found) := by
  cases path with
  | nil => simp [within?, eq_comm]
  | cons next rest =>
      cases atNumber : steps[number]? with
      | none => simp [within?, atNumber]
      | some step => cases isGroup : step.children <;> simp [within?, atNumber, isGroup]

mutual

theorem exists_of_mem_withPositions {scope : Scope} {base : List Nat}
    {entry : Position × StepDefinition} : ∀ {step : StepDefinition},
      entry ∈ withPositions ⟨scope, base⟩ step → ∃ path, entry.1 = ⟨scope, base ++ path⟩ ∧
        ((path = [] ∧ entry.2 = step) ∨ within? (step.children.getD []) path = some entry.2)
  | ⟨settings, none⟩, mem => by
      cases List.mem_singleton.mp mem
      exact ⟨[], by simp, Or.inl ⟨rfl, rfl⟩⟩
  | ⟨settings, some children⟩, mem => by
      rw [withPositions, List.mem_cons] at mem
      cases mem with
      | inl itself =>
          cases itself
          exact ⟨[], by simp, Or.inl ⟨rfl, rfl⟩⟩
      | inr below =>
          obtain ⟨number, path, isThere, found⟩ := exists_of_mem_allWithPositions below
          rw [Nat.zero_add] at isThere
          exact ⟨number :: path, isThere, Or.inr found⟩

/-- A step in the list stands where its path leads. -/
theorem exists_of_mem_allWithPositions {scope : Scope} {base : List Nat} {index : Nat}
    {entry : Position × StepDefinition} : ∀ {steps : List StepDefinition},
      entry ∈ allWithPositions ⟨scope, base⟩ index steps →
        ∃ number path, entry.1 = ⟨scope, base ++ (index + number) :: path⟩ ∧
          within? steps (number :: path) = some entry.2
  | [], mem => by cases mem
  | step :: rest, mem => by
      rw [allWithPositions, List.mem_append] at mem
      cases mem with
      | inl inFirst =>
          obtain ⟨path, isThere, found⟩ := exists_of_mem_withPositions inFirst
          refine ⟨0, path, by simpa [Position.child] using isThere, ?_⟩
          exact within?_cons_eq_some_iff.mpr ⟨step, rfl, found⟩
      | inr later =>
          obtain ⟨number, path, isThere, found⟩ := exists_of_mem_allWithPositions later
          refine ⟨number + 1, path, ?_, ?_⟩
          · rw [isThere, Nat.add_assoc, Nat.add_comm 1]
          · rw [within?_cons_eq_some_iff] at found ⊢
            exact found

end

theorem mem_allWithPositions_iff {scope : Scope} {base : List Nat} {steps : List StepDefinition}
    {entry : Position × StepDefinition} :
    entry ∈ allWithPositions ⟨scope, base⟩ 0 steps ↔
      ∃ path, entry.1 = ⟨scope, base ++ path⟩ ∧ within? steps path = some entry.2 := by
  constructor
  · intro mem
    obtain ⟨number, path, isThere, found⟩ := exists_of_mem_allWithPositions mem
    exact ⟨number :: path, by simpa using isThere, found⟩
  · intro leads
    obtain ⟨path, isThere, found⟩ := leads
    have mem := mem_of_within? scope base found
    rwa [← isThere] at mem

/-! ## The order of paths -/

theorem path_lt_of_mem {scope : Scope} {base : List Nat} {index : Nat}
    {steps : List StepDefinition} {entry : Position × StepDefinition}
    (mem : entry ∈ allWithPositions ⟨scope, base⟩ index steps) : base < entry.1.path := by
  obtain ⟨number, path, isThere, _⟩ := exists_of_mem_allWithPositions mem
  rw [isThere]
  simpa using List.append_left_lt (List.nil_lt_cons (index + number) path)

mutual

theorem pairwise_withPositions (scope : Scope) (base : List Nat) : ∀ step : StepDefinition,
    (withPositions ⟨scope, base⟩ step).Pairwise fun first second => first.1.path < second.1.path
  | ⟨settings, none⟩ => List.pairwise_singleton _ _
  | ⟨settings, some children⟩ => by
      rw [withPositions, List.pairwise_cons]
      exact ⟨fun _ mem => path_lt_of_mem mem, pairwise_allWithPositions scope base 0 children⟩

/-- The steps are listed in the order of their paths. -/
theorem pairwise_allWithPositions (scope : Scope) (base : List Nat) (index : Nat) :
    ∀ steps : List StepDefinition, (allWithPositions ⟨scope, base⟩ index steps).Pairwise
      fun first second => first.1.path < second.1.path
  | [] => .nil
  | step :: rest => by
      rw [allWithPositions, List.pairwise_append]
      refine ⟨pairwise_withPositions scope (base ++ [index]) step,
        pairwise_allWithPositions scope base (index + 1) rest, ?_⟩
      intro first firstMem second secondMem
      obtain ⟨front, isFirst, _⟩ := exists_of_mem_withPositions firstMem
      obtain ⟨number, back, isSecond, _⟩ := exists_of_mem_allWithPositions secondMem
      rw [isFirst, isSecond, List.append_assoc]
      refine List.append_left_lt (List.cons_lt_cons_iff.mpr (Or.inl ?_))
      omega

end

end StepDefinition

end FlowPlan
