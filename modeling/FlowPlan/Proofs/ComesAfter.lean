import FlowPlan.Proofs.Acyclic
import FlowPlan.Proofs.EarlierReads

/-! # Predecessors that the job has anyway

An edge that only orders is kept if its target is known when the walk is over.
Whatever the walk has met by then stands before all that comes after it, no
matter which place of the walk asks for the edge and which one meets the target.
A target that is only pulled in later, for a condition that reads it, is too
late for its edge.
-/

namespace FlowPlan

/-! ## The edges of the walk -/

theorem Step.mem_edgesTo {step target : Step} {edge : Nat → Nat → Encounter} {action dependent : Step}
    (actionMem : action ∈ target.leaves) (dependentMem : dependent ∈ step.leaves) :
    edge dependent.key action.key ∈ step.edgesTo target edge :=
  List.mem_flatMap.mpr ⟨action, actionMem, List.mem_map.mpr ⟨dependent, dependentMem, rfl⟩⟩

namespace Item

theorem walk_subset {item found : Item} (mem : found ∈ item.walk) : found.walk ⊆ item.walk := by
  induction item using Item.induction with
  | walk item childInduction dependencyInduction =>
      rcases mem_walk.mp mem with
        rfl | ⟨child, childMem, inside⟩ | ⟨dependency, dependencyMem, inside⟩
      · exact List.Subset.refl _
      · exact fun _ innerMem =>
          mem_walk_of_child childMem (childInduction child childMem inside innerMem)
      · exact fun _ innerMem => mem_walk_of_dependency dependencyMem
          (dependencyInduction dependency dependencyMem inside innerMem)

/-- All that an item of the walk comes down to is met. -/
theorem mem_actionsMet_of_mem_leaves {items : List Item} {item : Item} (mem : item ∈ walkAll items)
    {action : Step} (actionMem : action ∈ item.step.leaves) : action ∈ actionsMet items := by
  rcases exists_visit_of_mem_actions (mem_of_mem_distinctBy actionMem) [] with ⟨_, visited⟩
  rcases mem_walk_of_visit visited with ⟨single, inner, innerMem, equal⟩
  rcases mem_walkAll.mp mem with ⟨top, topMem, itemMem⟩
  exact mem_actionsMet.mpr
    ⟨single, inner, mem_walkAll.mpr ⟨top, topMem, walk_subset itemMem innerMem⟩, equal⟩

theorem mem_step_encounters_of_child {scope : List (Condition Step)} {step : Step} {child : Item}
    (childMem : child ∈ step.children) {encounter : Encounter}
    (inside : encounter ∈ child.encounters scope) : encounter ∈ step.encounters scope := by
  cases step with
  | action => cases childMem
  | group => exact mem_encountersAll.mpr ⟨child, childMem, inside⟩

theorem ordering_mem_encounters {item found predecessor : Item} (mem : found ∈ item.walk)
    (predecessorMem : predecessor ∈ found.predecessors) {encounter : Encounter}
    (edge : encounter ∈ found.step.edgesTo predecessor.step .ordering)
    (scope : List (Condition Step)) : encounter ∈ item.encounters scope := by
  induction item using Item.induction generalizing scope with
  | walk item childInduction dependencyInduction =>
      cases item with
      | place step condition dependencies predecessors =>
          rw [encounters, List.mem_append, List.mem_append, or_assoc]
          rcases mem_walk.mp mem with
            rfl | ⟨child, childMem, inside⟩ | ⟨dependency, dependencyMem, inside⟩
          · exact Or.inr (Or.inr (List.mem_flatMap.mpr ⟨predecessor, predecessorMem, edge⟩))
          · exact Or.inl (mem_step_encounters_of_child childMem
              (childInduction child childMem inside _))
          · exact Or.inr (Or.inl (mem_dependencyEncounters.mpr ⟨dependency, dependencyMem,
              Or.inl (dependencyInduction dependency dependencyMem inside _)⟩))

end Item

/-! ## The edges that are kept -/

namespace Node

/-- Each edge seen so far that leads to a node has been recorded with the node it starts from. -/
def Ordered (seen : List Encounter) (nodes : List Node) : Prop :=
  ∀ node ∈ nodes, ∀ target ∈ nodes.map Node.key,
    .ordering node.key target ∈ seen → target ∈ node.orderings

theorem ordered_nil (nodes : List Node) : Ordered [] nodes :=
  fun _ _ _ _ seen => nomatch seen

theorem Ordered.record {seen : List Encounter} {nodes : List Node} (ordered : Ordered seen nodes)
    {encounter : Encounter} (orders : encounter.isOrdering = true) :
    Ordered (seen ++ [encounter]) (record nodes encounter) := by
  cases encounter with
  | visit => cases orders
  | dependency => cases orders
  | ordering dependent added =>
      rw [Node.record]
      split
      · intro node mem target targetMem drawn
        rw [keys_update fun node => (node.sameDemand_addOrdering added).key] at targetMem
        rcases mem_update.mp mem with ⟨before, beforeMem, rfl⟩
        by_cases same : before.key = dependent
        · rw [if_pos same] at drawn ⊢
          apply mem_addOnce.mpr
          rcases List.mem_append.mp drawn with earlier | last
          · exact Or.inl (ordered before beforeMem target targetMem earlier)
          · cases List.mem_singleton.mp last
            exact Or.inr rfl
        · rw [if_neg same] at drawn ⊢
          rcases List.mem_append.mp drawn with earlier | last
          · exact ordered before beforeMem target targetMem earlier
          · cases List.mem_singleton.mp last
            exact absurd rfl same
      · rename_i absent
        intro node mem target targetMem drawn
        rcases List.mem_append.mp drawn with earlier | last
        · exact ordered node mem target targetMem earlier
        · cases List.mem_singleton.mp last
          exact absurd (hasKey_iff.mpr targetMem) absent

theorem ordered_ofEncounters (encounters : List Encounter) :
    Ordered encounters (ofEncounters encounters) := by
  let reached := (encounters.filter fun encounter => !encounter.isOrdering).foldl record []
  have kept : Ordered ([] ++ encounters.filter Encounter.isOrdering) (ofEncounters encounters) := by
    apply foldl_keeps Ordered _ (ordered_nil reached)
    intro seen nodes encounter mem ordered
    exact ordered.record (List.mem_filter.mp mem).2
  intro node mem target targetMem drawn
  exact kept node mem target targetMem (List.mem_filter.mpr ⟨drawn, rfl⟩)

end Node

namespace Graph

variable {items : List Item}

/-- An edge that only orders holds between two actions that are both met. -/
theorem precedes_of_ordering {dependent target : Nat}
    (drawn : .ordering dependent target ∈ Item.encountersAll [] items)
    (dependentMet : ∃ action ∈ Item.actionsMet items, action.key = dependent)
    (targetMet : ∃ action ∈ Item.actionsMet items, action.key = target) :
    (ofItems items).Precedes target dependent := by
  have metNode : ∀ {key : Nat}, (∃ action ∈ Item.actionsMet items, action.key = key) →
      ∃ node ∈ Node.ofEncounters (Item.encountersAll [] items), node.key = key := by
    rintro key ⟨action, actionMem, rfl⟩
    rcases Item.exists_visit_of_mem_actionsMet actionMem [] with ⟨context, visited⟩
    rcases (Node.recorded_ofEncounters _).kept action context visited with ⟨node, mem, sameKey, _⟩
    exact ⟨node, mem, sameKey⟩
  rcases metNode dependentMet with ⟨node, nodeMem, rfl⟩
  rcases metNode targetMet with ⟨other, otherMem, rfl⟩
  rcases exists_pulls_ofItems items with ⟨pulled, pulls⟩
  have withReadsMem : ∀ met ∈ Node.ofEncounters (Item.encountersAll [] items),
      met.withReads ∈ (ofItems items).nodes := by
    intro met mem
    rw [nodes_ofItems pulls]
    exact List.mem_map_of_mem (List.mem_append_left _ mem)
  refine ⟨List.mem_map.mpr ⟨other.withReads, withReadsMem other otherMem,
    (Node.sameDemand_withReads other).key⟩, node.withReads, withReadsMem node nodeMem,
    (Node.sameDemand_withReads node).key, Or.inr ?_⟩
  rw [Node.orderings_withReads]
  exact Node.ordered_ofEncounters _ node nodeMem other.key (List.mem_map_of_mem otherMem) drawn

/-- Whatever an item of the walk comes after stands before it, as far as the walk meets it. -/
theorem predecessors_come_first {order : List Nat} (resolved : (ofItems items).order = .ok order)
    {item : Item} (itemMem : item ∈ Item.walkAll items) {predecessor : Item}
    (predecessorMem : predecessor ∈ item.predecessors) {action : Step}
    (actionMem : action ∈ predecessor.step.leaves)
    (met : ∃ other ∈ Item.actionsMet items, other.key = action.key) {dependent : Step}
    (dependentMem : dependent ∈ item.step.leaves) :
    IsBefore order action.key dependent.key := by
  apply isBefore_of_precedes resolved (isIndexed_ofItems items)
  apply precedes_of_ordering _ ⟨dependent, Item.mem_actionsMet_of_mem_leaves itemMem dependentMem,
    rfl⟩ met
  rcases Item.mem_walkAll.mp itemMem with ⟨top, topMem, inside⟩
  exact Item.mem_encountersAll.mpr ⟨top, topMem, Item.ordering_mem_encounters inside predecessorMem
    (Step.mem_edgesTo actionMem dependentMem) []⟩

end Graph

/-! ## A step after a check -/

namespace Sample

def cleanUp : Step := .action 6 none [] {} []

/-- Only a later item depends on the check. -/
def dependentItems : List Item :=
  [.place cleanUp none [] [.ofStep check], .place prepare none [.ofStep check] []]

theorem predecessors_come_first_sample :
    (Graph.ofItems dependentItems).order = .ok [1, 6, 2] ∧
      Graph.IsBefore [1, 6, 2] check.key cleanUp.key := by
  have resolved : (Graph.ofItems dependentItems).order = .ok [1, 6, 2] := by
    decide +kernel
  have met : ∃ other ∈ Item.actionsMet dependentItems, other.key = check.key :=
    ⟨check, .tail _ (.tail _ (.head _)), rfl⟩
  refine ⟨resolved, ?_⟩
  exact Graph.predecessors_come_first resolved (Item.mem_walkAll.mpr
    ⟨_, List.mem_cons_self, Item.self_mem_walk _⟩) List.mem_cons_self List.mem_cons_self met
    List.mem_cons_self

/-- Only the condition of a later item reads the check. -/
def readingItems : List Item :=
  [.place cleanUp none [] [.ofStep check],
    .place prepare (some (succeeded check "steps.check.outcome")) [] []]

/-- The check is pulled in when the edges that only order have been decided. -/
theorem read_predecessor_comes_too_late :
    (Graph.ofItems readingItems).order = .ok [6, 1, 2] ∧
      (∃ item ∈ Item.walkAll readingItems, ∃ predecessor ∈ item.predecessors,
        check ∈ predecessor.step.leaves ∧ cleanUp ∈ item.step.leaves) ∧
      check.key ∈ [6, 1, 2] ∧ ¬ Graph.IsBefore [6, 1, 2] check.key cleanUp.key := by
  have resolved : (Graph.ofItems readingItems).order = .ok [6, 1, 2] := by
    decide +kernel
  refine ⟨resolved, ⟨_, Item.mem_walkAll.mpr ⟨_, List.mem_cons_self, Item.self_mem_walk _⟩, _,
    List.mem_cons_self, List.mem_cons_self, List.mem_cons_self⟩, .tail _ (.head _), ?_⟩
  rintro ⟨earlier, later, before, checkAt, cleanUpAt⟩
  match later with
  | 0 => cases before
  | 1 => cases cleanUpAt
  | 2 => cases cleanUpAt
  | _ + 3 => cases cleanUpAt

end Sample

end FlowPlan
