import FlowPlan.Proofs.ItemGraph

/-! # Edges between the nodes

The walk comes to a dependency before it draws the edges to it, an edge that
only orders is dropped unless its target is there, and a step that a condition
reads is pulled in. So every edge of a node leads to a node.
-/

namespace FlowPlan

/-! ## The actions inside an item are met -/

theorem Item.mem_actionsAll {items : List Item} {action : Step} :
    action ∈ actionsAll items ↔ ∃ item ∈ items, action ∈ item.step.actions := by
  induction items with
  | nil => simp [actionsAll]
  | cons head tail induction =>
      cases head
      simp [actionsAll, induction, Item.step]

theorem Step.mem_actions {step action : Step} :
    action ∈ step.actions ↔ (step.isGroup = false ∧ action = step) ∨
      ∃ child ∈ step.children, action ∈ child.step.actions := by
  cases step with
  | action => simp [Step.actions, Step.isGroup, Step.children]
  | group => simp [Step.actions, Step.isGroup, Step.children, Item.mem_actionsAll]

/-- An action comes down to itself. -/
theorem Step.leaves_eq_singleton {step : Step} (single : step.isGroup = false) :
    step.leaves = [step] := by
  cases step with
  | action => rfl
  | group => cases single

namespace Item

/-- Whatever the step of an item comes down to is met from the item on. -/
theorem exists_visit_of_mem_actions {item : Item} {action : Step}
    (mem : action ∈ item.step.actions) (scope : List (Condition Step)) :
    ∃ context, .visit action context ∈ item.encounters scope := by
  induction item using Item.induction generalizing scope with
  | walk item childInduction _ =>
      rcases Step.mem_actions.mp mem with ⟨single, rfl⟩ | ⟨child, childMem, inside⟩
      · exact ⟨_, visit_mem_encounters.mpr (Or.inl ⟨single, rfl, rfl⟩)⟩
      · rcases childInduction child childMem inside (item.innerScope scope) with
          ⟨context, visited⟩
        exact ⟨context, visit_mem_encounters.mpr (Or.inr (Or.inl ⟨child, childMem, visited⟩))⟩

/-! ## Edges of the walk -/

theorem dependency_mem_step_encounters {scope : List (Condition Step)} {step : Step}
    {dependent target : Nat} :
    .dependency dependent target ∈ step.encounters scope ↔
      ∃ child ∈ step.children, .dependency dependent target ∈ child.encounters scope := by
  cases step with
  | action => simp [Step.encounters, Step.children]
  | group => simp [Step.encounters, Step.children, mem_encountersAll]

theorem dependency_mem_edgesTo {step other : Step} {dependent target : Nat} :
    .dependency dependent target ∈ step.edgesTo other .dependency ↔
      (∃ leaf ∈ step.leaves, leaf.key = dependent) ∧ ∃ leaf ∈ other.leaves, leaf.key = target := by
  simp only [Step.edgesTo, List.mem_flatMap, List.mem_map, Encounter.dependency.injEq]
  constructor
  · rintro ⟨leaf, leafMem, source, sourceMem, equal, same⟩
    exact ⟨⟨source, sourceMem, equal⟩, leaf, leafMem, same⟩
  · rintro ⟨⟨source, sourceMem, equal⟩, leaf, leafMem, same⟩
    exact ⟨leaf, leafMem, source, sourceMem, equal, same⟩

theorem dependency_mem_encounters {scope : List (Condition Step)} {item : Item}
    {dependent target : Nat} :
    .dependency dependent target ∈ item.encounters scope ↔
      (∃ child ∈ item.step.children,
        .dependency dependent target ∈ child.encounters (item.innerScope scope)) ∨
      ∃ dependency ∈ item.dependencies,
        .dependency dependent target ∈
          dependency.encounters (item.step.dependencyScope (item.innerScope scope)) ∨
        .dependency dependent target ∈ item.step.edgesTo dependency.step .dependency := by
  cases item with
  | place step condition dependencies predecessors =>
      have noOrdering : ∀ other, .dependency dependent target ∉ step.edgesTo other .ordering := by
        simp [Step.edgesTo]
      simp [encounters, dependency_mem_step_encounters, mem_dependencyEncounters, innerScope,
        Item.step, Item.condition, Item.dependencies, noOrdering]

/-- What an action depends on is met. -/
theorem exists_visit_of_dependency {item : Item} {scope : List (Condition Step)}
    {dependent target : Nat} (edge : .dependency dependent target ∈ item.encounters scope) :
    ∃ action context, action.key = target ∧ .visit action context ∈ item.encounters scope := by
  induction item using Item.induction generalizing scope with
  | walk item childInduction dependencyInduction =>
      rcases dependency_mem_encounters.mp edge with
        ⟨child, childMem, inside⟩ | ⟨dependency, dependencyMem, inside | direct⟩
      · rcases childInduction child childMem inside with ⟨action, context, equal, visited⟩
        exact ⟨action, context, equal,
          visit_mem_encounters.mpr (Or.inr (Or.inl ⟨child, childMem, visited⟩))⟩
      · rcases dependencyInduction dependency dependencyMem inside with
          ⟨action, context, equal, visited⟩
        exact ⟨action, context, equal,
          visit_mem_encounters.mpr (Or.inr (Or.inr ⟨dependency, dependencyMem, visited⟩))⟩
      · rcases (dependency_mem_edgesTo.mp direct).2 with ⟨leaf, leafMem, equal⟩
        rcases exists_visit_of_mem_actions (mem_of_mem_distinctBy leafMem)
          (item.step.dependencyScope (item.innerScope scope)) with ⟨context, visited⟩
        exact ⟨leaf, context, equal,
          visit_mem_encounters.mpr (Or.inr (Or.inr ⟨dependency, dependencyMem, visited⟩))⟩

end Item

/-! ## Edges of the nodes -/

namespace Node

/-- Each dependency was drawn by an encounter, and each edge that only orders leads to a node. -/
structure Linked (seen : List Encounter) (nodes : List Node) : Prop where
  drawn : ∀ node ∈ nodes, ∀ target ∈ node.dependencies, .dependency node.key target ∈ seen
  present : ∀ node ∈ nodes, ∀ target ∈ node.orderings, target ∈ nodes.map Node.key

theorem linked_nil : Linked [] [] where
  drawn _ mem := nomatch mem
  present _ mem := nomatch mem

@[simp] theorem dependencies_addContext (node : Node) (context : Option (Condition Step)) :
    (node.addContext context).dependencies = node.dependencies := by
  cases context with
  | none => rfl
  | some context =>
      rw [addContext]
      split <;> rfl

@[simp] theorem orderings_addContext (node : Node) (context : Option (Condition Step)) :
    (node.addContext context).orderings = node.orderings := by
  cases context with
  | none => rfl
  | some context =>
      rw [addContext]
      split <;> rfl

theorem mem_keys_record {nodes : List Node} {key : Nat} (mem : key ∈ nodes.map Node.key)
    (encounter : Encounter) : key ∈ (record nodes encounter).map Node.key := by
  cases encounter with
  | visit action context =>
      rw [record]
      split
      · rw [keys_update fun node => node.key_addContext context]
        exact mem
      · rw [List.map_append]
        exact List.mem_append_left _ mem
  | dependency dependent target =>
      rw [record, keys_update fun node => (node.sameDemand_addDependency target).key]
      exact mem
  | ordering dependent target =>
      rw [record]
      split
      · rw [keys_update fun node => (node.sameDemand_addOrdering target).key]
        exact mem
      · exact mem

/-- Recording changes a node in one of these ways, or adds one. -/
theorem mem_record {nodes : List Node} {encounter : Encounter} {node : Node}
    (mem : node ∈ record nodes encounter) :
    node ∈ nodes ∨
    (∃ action context, encounter = .visit action context ∧
      ∃ before, (before ∈ nodes ∨ before = { step := action }) ∧
        node = before.addContext context) ∨
    (∃ before ∈ nodes, ∃ target, encounter = .dependency before.key target ∧
      node = before.addDependency target) ∨
    ∃ before ∈ nodes, ∃ target, encounter = .ordering before.key target ∧
      target ∈ nodes.map Node.key ∧ node = before.addOrdering target := by
  cases encounter with
  | visit action context =>
      rw [record] at mem
      split at mem
      · rcases mem_update.mp mem with ⟨before, beforeMem, rfl⟩
        split
        · exact Or.inr (Or.inl ⟨action, context, rfl, before, Or.inl beforeMem, rfl⟩)
        · exact Or.inl beforeMem
      · rcases List.mem_append.mp mem with old | fresh
        · exact Or.inl old
        · exact Or.inr (Or.inl
            ⟨action, context, rfl, _, Or.inr rfl, List.mem_singleton.mp fresh⟩)
  | dependency dependent target =>
      rw [record] at mem
      rcases mem_update.mp mem with ⟨before, beforeMem, rfl⟩
      split
      · rename_i same
        exact Or.inr (Or.inr (Or.inl ⟨before, beforeMem, target, by rw [same], rfl⟩))
      · exact Or.inl beforeMem
  | ordering dependent target =>
      rw [record] at mem
      split at mem
      · rename_i present
        rcases mem_update.mp mem with ⟨before, beforeMem, rfl⟩
        split
        · rename_i same
          exact Or.inr (Or.inr (Or.inr
            ⟨before, beforeMem, target, by rw [same], hasKey_iff.mp present, rfl⟩))
        · exact Or.inl beforeMem
      · exact Or.inl mem

namespace Linked

variable {seen : List Encounter} {nodes : List Node} (linked : Linked seen nodes)

include linked

theorem record (encounter : Encounter) :
    Linked (seen ++ [encounter]) (record nodes encounter) := by
  constructor
  · intro node mem target targetMem
    rcases mem_record mem with old | ⟨action, context, rfl, before, origin, rfl⟩ |
      ⟨before, beforeMem, added, rfl, rfl⟩ | ⟨before, beforeMem, added, rfl, _, rfl⟩
    · exact List.mem_append_left _ (linked.drawn node old target targetMem)
    · rw [dependencies_addContext] at targetMem
      rw [key_addContext]
      rcases origin with old | rfl
      · exact List.mem_append_left _ (linked.drawn before old target targetMem)
      · cases targetMem
    · rcases mem_addOnce.mp targetMem with old | rfl
      · exact List.mem_append_left _ (linked.drawn before beforeMem target old)
      · exact List.mem_append_right _ List.mem_cons_self
    · exact List.mem_append_left _ (linked.drawn before beforeMem target targetMem)
  · intro node mem target targetMem
    apply mem_keys_record
    rcases mem_record mem with old | ⟨action, context, rfl, before, origin, rfl⟩ |
      ⟨before, beforeMem, added, rfl, rfl⟩ | ⟨before, beforeMem, added, rfl, present, rfl⟩
    · exact linked.present node old target targetMem
    · rw [orderings_addContext] at targetMem
      rcases origin with old | rfl
      · exact linked.present before old target targetMem
      · cases targetMem
    · exact linked.present before beforeMem target targetMem
    · rcases mem_addOnce.mp targetMem with old | rfl
      · exact linked.present before beforeMem target old
      · exact present

theorem foldl (encounters : List Encounter) :
    Linked (seen ++ encounters) (encounters.foldl Node.record nodes) := by
  apply foldl_keeps Linked _ linked
  intro seen nodes encounter _ linked
  exact linked.record encounter

end Linked

theorem linked_ofEncounters (encounters : List Encounter) :
    (∀ node ∈ ofEncounters encounters, ∀ target ∈ node.dependencies,
      .dependency node.key target ∈ encounters) ∧
    ∀ node ∈ ofEncounters encounters, ∀ target ∈ node.orderings,
      target ∈ (ofEncounters encounters).map Node.key := by
  have linked := (linked_nil.foldl (encounters.filter fun encounter => !encounter.isOrdering)).foldl
    (encounters.filter Encounter.isOrdering)
  refine ⟨?_, linked.present⟩
  intro node mem target targetMem
  have drawn := linked.drawn node mem target targetMem
  rcases List.mem_append.mp drawn with first | second
  · exact (List.mem_filter.mp first).1
  · exact (List.mem_filter.mp second).1

theorem orderings_withReads (node : Node) : node.withReads.orderings = node.orderings := by
  rw [withReads, addDependencies_eq]

end Node

namespace Graph

/-- Whatever a node stands behind is a node. -/
theorem mem_keys_of_mem_predecessors {items : List Item} {node : Node}
    (nodeMem : node ∈ (ofItems items).nodes) {key : Nat} (mem : key ∈ node.predecessors) :
    key ∈ (ofItems items).nodes.map Node.key := by
  rcases exists_pulls_ofItems items with ⟨pulled, pulls⟩
  have linked := Node.linked_ofEncounters (Item.encountersAll [] items)
  have metKeys : ∀ {key}, key ∈ (Node.ofEncounters (Item.encountersAll [] items)).map Node.key →
      key ∈ (ofItems items).nodes.map Node.key := by
    intro key keyMem
    rw [nodes_ofItems pulls, Node.keys_withReads, List.map_append]
    exact List.mem_append_left _ keyMem
  rw [nodes_ofItems pulls] at nodeMem
  rcases List.mem_map.mp nodeMem with ⟨before, beforeMem, rfl⟩
  rcases Node.mem_predecessors.mp mem with dependency | ordering
  · rcases Node.mem_addDependencies.mp dependency with drawn | read
    · rcases List.mem_append.mp beforeMem with met | fresh
      · have edge := linked.1 before met key drawn
        rcases Item.mem_encountersAll.mp edge with ⟨item, itemMem, inside⟩
        rcases Item.exists_visit_of_dependency inside with ⟨action, context, rfl, visited⟩
        have visitedAll := Item.mem_encountersAll.mpr ⟨item, itemMem, visited⟩
        rcases exists_node_of_visit visitedAll with ⟨node, nodeMem, sameKey, _⟩
        exact sameKey ▸ List.mem_map_of_mem nodeMem
      · rcases List.mem_map.mp fresh with ⟨action, _, rfl⟩
        cases drawn
    · rcases List.mem_map.mp read with ⟨action, actionMem, rfl⟩
      rw [nodes_ofItems pulls, Node.keys_withReads]
      exact pulls.covered before beforeMem action actionMem
  · rw [Node.orderings_withReads] at ordering
    rcases List.mem_append.mp beforeMem with met | fresh
    · exact metKeys (linked.2 before met key ordering)
    · rcases List.mem_map.mp fresh with ⟨action, _, rfl⟩
      cases ordering

end Graph

end FlowPlan
