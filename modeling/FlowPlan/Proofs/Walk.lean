import FlowPlan.Graph.Encounter
import FlowPlan.Proofs.Members

/-! # The items of a walk

The walk through a job comes to the children of groups and to the dependencies
of items, at any depth. What it meets from an item on is put together from what
it meets from those.
-/

namespace FlowPlan

mutual

/-- The item and all items behind it, in the order of the walk. -/
def Item.walk : Item → List Item
  | .place step condition dependencies predecessors =>
    .place step condition dependencies predecessors :: (step.walk ++ Item.walkAll dependencies)

def Step.walk : Step → List Item
  | .action .. => []
  | .group _ _ _ _ children => Item.walkAll children

def Item.walkAll : List Item → List Item
  | [] => []
  | item :: rest => item.walk ++ Item.walkAll rest

end

namespace Item

theorem mem_walkAll {items : List Item} {found : Item} :
    found ∈ walkAll items ↔ ∃ item ∈ items, found ∈ item.walk := by
  induction items with
  | nil => simp [walkAll]
  | cons head tail induction => simp [walkAll, induction]

theorem mem_walk {item found : Item} :
    found ∈ item.walk ↔ found = item ∨ (∃ child ∈ item.step.children, found ∈ child.walk) ∨
      ∃ dependency ∈ item.dependencies, found ∈ dependency.walk := by
  cases item with
  | place step condition dependencies predecessors =>
      cases step with
      | action => simp [walk, Step.walk, mem_walkAll, Item.step, Item.dependencies, Step.children]
      | group => simp [walk, Step.walk, mem_walkAll, Item.step, Item.dependencies, Step.children]

theorem self_mem_walk (item : Item) : item ∈ item.walk := mem_walk.mpr (Or.inl rfl)

theorem mem_walk_of_child {item child found : Item} (childMem : child ∈ item.step.children)
    (mem : found ∈ child.walk) : found ∈ item.walk :=
  mem_walk.mpr (Or.inr (Or.inl ⟨child, childMem, mem⟩))

theorem mem_walk_of_dependency {item dependency found : Item}
    (dependencyMem : dependency ∈ item.dependencies) (mem : found ∈ dependency.walk) :
    found ∈ item.walk :=
  mem_walk.mpr (Or.inr (Or.inr ⟨dependency, dependencyMem, mem⟩))

/-! ## Induction along the walk -/

theorem sizeOf_child_lt {item child : Item} (mem : child ∈ item.step.children) :
    sizeOf child < sizeOf item := by
  cases item with
  | place step condition dependencies predecessors =>
      cases step with
      | action => cases mem
      | group key id outputs name children =>
          have inside := List.sizeOf_lt_of_mem (show child ∈ children from mem)
          simp only [place.sizeOf_spec, Step.group.sizeOf_spec]
          omega

theorem sizeOf_dependency_lt {item dependency : Item} (mem : dependency ∈ item.dependencies) :
    sizeOf dependency < sizeOf item := by
  cases item with
  | place step condition dependencies predecessors =>
      have inside := List.sizeOf_lt_of_mem (show dependency ∈ dependencies from mem)
      simp only [place.sizeOf_spec]
      omega

theorem induction {motive : Item → Prop}
    (walk : ∀ item, (∀ child ∈ item.step.children, motive child) →
      (∀ dependency ∈ item.dependencies, motive dependency) → motive item)
    (item : Item) : motive item :=
  walk item (fun child _ => induction walk child) (fun dependency _ => induction walk dependency)
termination_by sizeOf item
decreasing_by
  · exact sizeOf_child_lt ‹_›
  · exact sizeOf_dependency_lt ‹_›

/-! ## What the walk meets -/

theorem mem_encountersAll {scope : List (Condition Step)} {items : List Item}
    {encounter : Encounter} :
    encounter ∈ encountersAll scope items ↔ ∃ item ∈ items, encounter ∈ item.encounters scope := by
  induction items with
  | nil => simp [encountersAll]
  | cons head tail induction => simp [encountersAll, induction]

theorem mem_dependencyEncounters {dependent : Step} {scope : List (Condition Step)}
    {items : List Item} {encounter : Encounter} :
    encounter ∈ dependencyEncounters dependent scope items ↔
      ∃ item ∈ items, encounter ∈ item.encounters scope ∨
        encounter ∈ dependent.edgesTo item.step .dependency := by
  induction items with
  | nil => simp [dependencyEncounters]
  | cons head tail induction => simp [dependencyEncounters, induction, or_assoc]

/-- The conditions under which the step of the item is met. -/
def innerScope (scope : List (Condition Step)) (item : Item) : List (Condition Step) :=
  scope ++ item.condition.toList

theorem visit_mem_step_encounters {scope : List (Condition Step)} {step action : Step}
    {context : Option (Condition Step)} :
    .visit action context ∈ step.encounters scope ↔
      (step.isGroup = false ∧ action = step ∧ context = Condition.allOf scope) ∨
        ∃ child ∈ step.children, .visit action context ∈ child.encounters scope := by
  cases step with
  | action => simp [Step.encounters, Step.isGroup, Step.children]
  | group => simp [Step.encounters, Step.isGroup, Step.children, mem_encountersAll]

theorem visit_mem_encounters {scope : List (Condition Step)} {item : Item} {action : Step}
    {context : Option (Condition Step)} :
    .visit action context ∈ item.encounters scope ↔
      (item.step.isGroup = false ∧ action = item.step ∧
        context = Condition.allOf (item.innerScope scope)) ∨
      (∃ child ∈ item.step.children,
        .visit action context ∈ child.encounters (item.innerScope scope)) ∨
      ∃ dependency ∈ item.dependencies, .visit action context ∈
        dependency.encounters (item.step.dependencyScope (item.innerScope scope)) := by
  cases item with
  | place step condition dependencies predecessors =>
      simp [encounters, visit_mem_step_encounters, mem_dependencyEncounters, Step.edgesTo,
        innerScope, Item.step, Item.condition, Item.dependencies, or_assoc]

/-! ## Conditions and actions of the walk -/

/-- The conditions of all items of the walk and of their actions. -/
def conditions (items : List Item) : List (Condition Step) :=
  (walkAll items).flatMap fun item => item.condition.toList ++ item.step.ownCondition?.toList

def actionsMet (items : List Item) : List Step :=
  ((walkAll items).map Item.step).filter fun step => !step.isGroup

theorem mem_conditions {items : List Item} {condition : Condition Step} :
    condition ∈ conditions items ↔ ∃ item ∈ walkAll items,
      condition ∈ item.condition ∨ condition ∈ item.step.ownCondition? := by
  simp [conditions]

theorem mem_actionsMet {items : List Item} {action : Step} :
    action ∈ actionsMet items ↔
      action.isGroup = false ∧ ∃ item ∈ walkAll items, item.step = action := by
  simp [actionsMet, and_comm]

theorem mem_walk_of_visit {item : Item} {scope : List (Condition Step)} {action : Step}
    {context : Option (Condition Step)} (visited : .visit action context ∈ item.encounters scope) :
    action.isGroup = false ∧ ∃ found ∈ item.walk, found.step = action := by
  induction item using Item.induction generalizing scope with
  | walk item childInduction dependencyInduction =>
      rcases visit_mem_encounters.mp visited with
        ⟨single, rfl, _⟩ | ⟨child, childMem, inside⟩ | ⟨dependency, dependencyMem, inside⟩
      · exact ⟨single, item, item.self_mem_walk, rfl⟩
      · rcases childInduction child childMem inside with ⟨single, found, mem, equal⟩
        exact ⟨single, found, mem_walk_of_child childMem mem, equal⟩
      · rcases dependencyInduction dependency dependencyMem inside with ⟨single, found, mem, equal⟩
        exact ⟨single, found, mem_walk_of_dependency dependencyMem mem, equal⟩

theorem mem_actionsMet_of_visit {items : List Item} {scope : List (Condition Step)} {action : Step}
    {context : Option (Condition Step)}
    (visited : .visit action context ∈ encountersAll scope items) : action ∈ actionsMet items := by
  rcases mem_encountersAll.mp visited with ⟨item, itemMem, inside⟩
  rcases mem_walk_of_visit inside with ⟨single, found, mem, equal⟩
  exact mem_actionsMet.mpr ⟨single, found, mem_walkAll.mpr ⟨item, itemMem, mem⟩, equal⟩

theorem exists_visit_of_mem_walk {item found : Item} (mem : found ∈ item.walk)
    (single : found.step.isGroup = false) (scope : List (Condition Step)) :
    ∃ context, .visit found.step context ∈ item.encounters scope := by
  induction item using Item.induction generalizing scope with
  | walk item childInduction dependencyInduction =>
      rcases mem_walk.mp mem with
        rfl | ⟨child, childMem, inside⟩ | ⟨dependency, dependencyMem, inside⟩
      · exact ⟨_, visit_mem_encounters.mpr (Or.inl ⟨single, rfl, rfl⟩)⟩
      · rcases childInduction child childMem inside (item.innerScope scope) with
          ⟨context, visited⟩
        exact ⟨context, visit_mem_encounters.mpr (Or.inr (Or.inl ⟨child, childMem, visited⟩))⟩
      · rcases dependencyInduction dependency dependencyMem inside
          (item.step.dependencyScope (item.innerScope scope)) with ⟨context, visited⟩
        exact ⟨context, visit_mem_encounters.mpr
          (Or.inr (Or.inr ⟨dependency, dependencyMem, visited⟩))⟩

theorem exists_visit_of_mem_actionsMet {items : List Item} {action : Step}
    (mem : action ∈ actionsMet items) (scope : List (Condition Step)) :
    ∃ context, .visit action context ∈ encountersAll scope items := by
  rcases mem_actionsMet.mp mem with ⟨single, found, foundMem, rfl⟩
  rcases mem_walkAll.mp foundMem with ⟨item, itemMem, inside⟩
  rcases exists_visit_of_mem_walk inside single scope with ⟨context, visited⟩
  exact ⟨context, mem_encountersAll.mpr ⟨item, itemMem, visited⟩⟩

end Item

end FlowPlan
