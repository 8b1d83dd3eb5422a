import FlowPlan.Proofs.Alternatives
import FlowPlan.Proofs.Walk

/-! # Which actions an item demands

An item holds if it has no condition or its condition does. It demands its own
action, and whatever is demanded by the children of its group and by its
dependencies. This is read off the items alone, without a graph. The contexts
that the walk carries along say the same, as far as they are not narrowed to
what may be handed to a dependency.
-/

namespace FlowPlan

open Condition (Permits Respects TextDecides Closed ComplementsCover Splits)

/-- A group whose children all have a condition does something only if one of those holds. -/
def Step.DoesSomething (holds : Condition Step → Prop) (step : Step) : Prop :=
  step.children ≠ [] → (∀ child ∈ step.children, child.condition ≠ none) →
    ∃ child ∈ step.children, ∃ condition ∈ child.condition, holds condition

inductive Item.Demands (holds : Condition Step → Prop) : Item → Step → Prop where
  | action {item : Item} (permitted : Permits holds item.condition)
      (single : item.step.isGroup = false) : Demands holds item item.step
  | child {item child : Item} {action : Step} (permitted : Permits holds item.condition)
      (mem : child ∈ item.step.children) (demands : Demands holds child action) :
      Demands holds item action
  | dependency {item dependency : Item} {action : Step} (permitted : Permits holds item.condition)
      (useful : item.step.DoesSomething holds) (mem : dependency ∈ item.dependencies)
      (demands : Demands holds dependency action) : Demands holds item action

/-! ## What is handed to dependencies -/

namespace Step

/-- The conditions of the children, if each of them has one that may be handed on. -/
def alternatives (step : Step) : Option (List (Condition Step)) :=
  step.children.mapM fun child => child.condition.filter Condition.isPropagatable

theorem mem_dependencyScope {step : Step} {scope : List (Condition Step)}
    {factor : Condition Step} :
    factor ∈ step.dependencyScope scope ↔
      (factor.isPropagatable = true ∧ ∃ condition ∈ scope, factor ∈ condition.conjuncts) ∨
        (step.children ≠ [] ∧ ∃ alternatives, step.alternatives = some alternatives ∧
          Condition.simplifyAny alternatives = some factor) := by
  rw [dependencyScope]
  change factor ∈ (if step.children.isEmpty then _ else
    _ ++ (step.alternatives.bind Condition.simplifyAny).toList) ↔ _
  cases children : step.children with
  | nil => simp [and_comm]
  | cons head tail => simp [and_comm, Option.bind_eq_some_iff]

theorem child_of_mem_alternatives {step : Step} {alternatives : List (Condition Step)}
    (found : step.alternatives = some alternatives) {condition : Condition Step}
    (mem : condition ∈ alternatives) :
    ∃ child ∈ step.children, child.condition = some condition := by
  rcases exists_member_of_mapM found mem with ⟨child, childMem, filtered⟩
  exact ⟨child, childMem, (Option.filter_eq_some_iff.mp filtered).1⟩

theorem mem_alternatives_of_child {step : Step} {alternatives : List (Condition Step)}
    (found : step.alternatives = some alternatives) {child : Item}
    (childMem : child ∈ step.children) :
    ∃ condition ∈ alternatives, child.condition = some condition := by
  rcases exists_image_of_mapM found childMem with ⟨condition, mem, filtered⟩
  exact ⟨condition, mem, (Option.filter_eq_some_iff.mp filtered).1⟩

theorem among_dependencyScope {among : Condition Step → Prop} (closed : Closed among)
    {step : Step} (children : ∀ child ∈ step.children, ∀ condition ∈ child.condition,
      among condition)
    {scope : List (Condition Step)} (members : ∀ condition ∈ scope, among condition) :
    ∀ condition ∈ step.dependencyScope scope, among condition := by
  intro factor mem
  rcases mem_dependencyScope.mp mem with
    ⟨_, condition, conditionMem, operandMem⟩ | ⟨_, alternatives, found, simplified⟩
  · exact closed.splits.of_mem_operands .and (members condition conditionMem) operandMem
  · apply Condition.among_simplifyAny closed _ simplified
    intro alternative alternativeMem
    rcases child_of_mem_alternatives found alternativeMem with ⟨child, childMem, equal⟩
    exact children child childMem alternative equal

/-- Whoever needs the step for something lets its dependencies run. -/
theorem holds_dependencyScope {holds among : Condition Step → Prop} (respects : Respects holds)
    (splits : Splits among) (decides : TextDecides holds among) {step : Step}
    (children : ∀ child ∈ step.children, ∀ condition ∈ child.condition, among condition)
    {scope : List (Condition Step)} (stands : ∀ condition ∈ scope, holds condition)
    (useful : step.DoesSomething holds) :
    ∀ condition ∈ step.dependencyScope scope, holds condition := by
  intro factor mem
  rcases mem_dependencyScope.mp mem with
    ⟨_, condition, conditionMem, operandMem⟩ | ⟨nonempty, alternatives, found, simplified⟩
  · exact (Condition.holds_iff_conjuncts respects.connectives condition).mp
      (stands condition conditionMem) factor operandMem
  · have conditioned : ∀ child ∈ step.children, child.condition ≠ none := by
      intro child childMem
      rcases mem_alternatives_of_child found childMem with ⟨condition, _, equal⟩
      exact equal ▸ Option.some_ne_none condition
    rcases useful nonempty conditioned with ⟨child, childMem, condition, conditionMem, met⟩
    have any : ∃ alternative ∈ alternatives, holds alternative := by
      rcases mem_alternatives_of_child found childMem with ⟨alternative, alternativeMem, equal⟩
      cases equal.symm.trans conditionMem
      exact ⟨condition, alternativeMem, met⟩
    have permitted := Condition.permits_simplifyAny respects splits decides
      (fun alternative alternativeMem => by
        rcases child_of_mem_alternatives found alternativeMem with ⟨other, otherMem, equal⟩
        exact children other otherMem alternative equal) any
    rwa [simplified, Condition.permits_some] at permitted

/-- If no condition reads a step, dependencies are handed everything. -/
theorem holds_of_dependencyScope {holds among : Condition Step → Prop} (respects : Respects holds)
    (closed : Closed among) (decides : TextDecides holds among)
    (covers : ComplementsCover holds among)
    (propagatable : ∀ condition, among condition → condition.isPropagatable = true) {step : Step}
    (children : ∀ child ∈ step.children, ∀ condition ∈ child.condition, among condition)
    {scope : List (Condition Step)} (members : ∀ condition ∈ scope, among condition)
    (stands : ∀ condition ∈ step.dependencyScope scope, holds condition) :
    (∀ condition ∈ scope, holds condition) ∧ step.DoesSomething holds := by
  constructor
  · intro condition mem
    apply (Condition.holds_iff_conjuncts respects.connectives condition).mpr
    intro operand operandMem
    have operandAmong := closed.splits.of_mem_operands .and (members condition mem) operandMem
    exact stands operand (mem_dependencyScope.mpr
      (Or.inl ⟨propagatable operand operandAmong, condition, mem, operandMem⟩))
  · intro nonempty conditioned
    cases found : step.alternatives with
    | none =>
        rcases exists_none_of_mapM_eq_none found with ⟨child, childMem, filtered⟩
        cases present : child.condition with
        | none => exact absurd present (conditioned child childMem)
        | some condition =>
            have handed := propagatable condition (children child childMem condition present)
            simp [present, handed] at filtered
    | some alternatives =>
        have members : ∀ alternative ∈ alternatives, among alternative := by
          intro alternative alternativeMem
          rcases child_of_mem_alternatives found alternativeMem with ⟨child, childMem, equal⟩
          exact children child childMem alternative equal
        have someAlternative : alternatives ≠ [] := by
          rcases List.exists_mem_of_ne_nil step.children nonempty with ⟨child, childMem⟩
          rcases mem_alternatives_of_child found childMem with ⟨alternative, alternativeMem, _⟩
          exact List.ne_nil_of_mem alternativeMem
        have permitted : Permits holds (Condition.simplifyAny alternatives) := by
          intro factor simplified
          exact stands factor
            (mem_dependencyScope.mpr (Or.inr ⟨nonempty, alternatives, found, simplified⟩))
        rcases Condition.exists_of_permits_simplifyAny respects closed decides covers members
          someAlternative permitted with ⟨alternative, alternativeMem, met⟩
        rcases child_of_mem_alternatives found alternativeMem with ⟨child, childMem, equal⟩
        exact ⟨child, childMem, alternative, equal, met⟩

end Step

/-! ## Visits and demands -/

namespace Item

variable {holds among : Condition Step → Prop}

/-- What is asked of the conditions of all items behind an item. -/
def WalkAmong (among : Condition Step → Prop) (item : Item) : Prop :=
  ∀ found ∈ item.walk, ∀ condition ∈ found.condition, among condition

namespace WalkAmong

variable {item : Item} (members : item.WalkAmong among)

include members

theorem own : ∀ condition ∈ item.condition, among condition := members item item.self_mem_walk

theorem child {child : Item} (mem : child ∈ item.step.children) : child.WalkAmong among :=
  fun found inside => members found (mem_walk_of_child mem inside)

theorem dependency {dependency : Item} (mem : dependency ∈ item.dependencies) :
    dependency.WalkAmong among :=
  fun found inside => members found (mem_walk_of_dependency mem inside)

theorem children : ∀ child ∈ item.step.children, ∀ condition ∈ child.condition, among condition :=
  fun _ mem => (members.child mem).own

theorem innerScope {scope : List (Condition Step)}
    (scopeMembers : ∀ condition ∈ scope, among condition) :
    ∀ condition ∈ item.innerScope scope, among condition := by
  intro condition mem
  rcases List.mem_append.mp mem with mem | mem
  · exact scopeMembers condition mem
  · exact members.own condition (Option.mem_toList.mp mem)

end WalkAmong

theorem forall_mem_innerScope {item : Item} {scope : List (Condition Step)} :
    (∀ condition ∈ item.innerScope scope, holds condition) ↔
      (∀ condition ∈ scope, holds condition) ∧ Permits holds item.condition := by
  simp [innerScope, Permits, or_imp, forall_and]

theorem among_of_visit (closed : Closed among) {item : Item} (members : item.WalkAmong among)
    {scope : List (Condition Step)} (scopeMembers : ∀ condition ∈ scope, among condition)
    {action : Step} {context : Condition Step}
    (visited : .visit action (some context) ∈ item.encounters scope) : among context := by
  induction item using Item.induction generalizing scope with
  | walk item childInduction dependencyInduction =>
      have inner := members.innerScope scopeMembers
      rcases visit_mem_encounters.mp visited with
        ⟨_, _, equal⟩ | ⟨child, childMem, inside⟩ | ⟨dependency, dependencyMem, inside⟩
      · exact closed.allOf inner equal.symm
      · exact childInduction child childMem (members.child childMem) inner inside
      · exact dependencyInduction dependency dependencyMem (members.dependency dependencyMem)
          (Step.among_dependencyScope closed members.children inner) inside

/-- A demanded action is visited in a context that holds. -/
theorem exists_visit_of_demands (respects : Respects holds) (splits : Splits among)
    (decides : TextDecides holds among) {item : Item} {action : Step}
    (demands : item.Demands holds action) (members : item.WalkAmong among)
    {scope : List (Condition Step)} (stands : ∀ condition ∈ scope, holds condition) :
    ∃ context, .visit action context ∈ item.encounters scope ∧ Permits holds context := by
  induction demands generalizing scope with
  | @action item permitted single =>
      refine ⟨_, visit_mem_encounters.mpr (Or.inl ⟨single, rfl, rfl⟩), ?_⟩
      rw [Condition.permits_allOf respects]
      exact forall_mem_innerScope.mpr ⟨stands, permitted⟩
  | @child item child action permitted mem demands induction =>
      rcases induction (members.child mem) (forall_mem_innerScope.mpr ⟨stands, permitted⟩) with
        ⟨context, visited, met⟩
      exact ⟨context, visit_mem_encounters.mpr (Or.inr (Or.inl ⟨child, mem, visited⟩)), met⟩
  | @dependency item dependency action permitted useful mem demands induction =>
      have handed := Step.holds_dependencyScope respects splits decides members.children
        (forall_mem_innerScope.mpr ⟨stands, permitted⟩) useful
      rcases induction (members.dependency mem) handed with ⟨context, visited, met⟩
      exact ⟨context, visit_mem_encounters.mpr (Or.inr (Or.inr ⟨dependency, mem, visited⟩)), met⟩

theorem mem_walk_of_demands {item : Item} {action : Step} (demands : item.Demands holds action) :
    action.isGroup = false ∧ ∃ found ∈ item.walk, found.step = action := by
  induction demands with
  | @action item permitted single => exact ⟨single, item, item.self_mem_walk, rfl⟩
  | child permitted mem demands induction =>
      rcases induction with ⟨single, found, foundMem, equal⟩
      exact ⟨single, found, mem_walk_of_child mem foundMem, equal⟩
  | dependency permitted useful mem demands induction =>
      rcases induction with ⟨single, found, foundMem, equal⟩
      exact ⟨single, found, mem_walk_of_dependency mem foundMem, equal⟩

theorem mem_actionsMet_of_demands {items : List Item} {item : Item} (itemMem : item ∈ items)
    {action : Step} (demands : item.Demands holds action) : action ∈ actionsMet items := by
  rcases mem_walk_of_demands demands with ⟨single, found, foundMem, equal⟩
  exact mem_actionsMet.mpr ⟨single, found, mem_walkAll.mpr ⟨item, itemMem, foundMem⟩, equal⟩

/-- An action that is visited in a context that holds is demanded, if no condition reads a step. -/
theorem demands_of_visit (respects : Respects holds) (closed : Closed among)
    (decides : TextDecides holds among) (covers : ComplementsCover holds among)
    (propagatable : ∀ condition, among condition → condition.isPropagatable = true) {item : Item}
    (members : item.WalkAmong among) {scope : List (Condition Step)}
    (scopeMembers : ∀ condition ∈ scope, among condition) {action : Step}
    {context : Option (Condition Step)} (visited : .visit action context ∈ item.encounters scope)
    (met : Permits holds context) :
    (∀ condition ∈ scope, holds condition) ∧ item.Demands holds action := by
  induction item using Item.induction generalizing scope with
  | walk item childInduction dependencyInduction =>
      have inner := members.innerScope scopeMembers
      rcases visit_mem_encounters.mp visited with
        ⟨single, rfl, rfl⟩ | ⟨child, childMem, inside⟩ | ⟨dependency, dependencyMem, inside⟩
      · have stands := (Condition.permits_allOf respects _).mp met
        have parts := forall_mem_innerScope.mp stands
        exact ⟨parts.1, .action parts.2 single⟩
      · rcases childInduction child childMem (members.child childMem) inner inside with
          ⟨stands, demands⟩
        have parts := forall_mem_innerScope.mp stands
        exact ⟨parts.1, .child parts.2 childMem demands⟩
      · have handed := Step.among_dependencyScope closed members.children inner
        rcases dependencyInduction dependency dependencyMem (members.dependency dependencyMem)
          handed inside with ⟨stands, demands⟩
        rcases Step.holds_of_dependencyScope respects closed decides covers propagatable
          members.children inner stands with ⟨innerStands, useful⟩
        have parts := forall_mem_innerScope.mp innerStands
        exact ⟨parts.1, .dependency parts.2 useful dependencyMem demands⟩

end Item

end FlowPlan
