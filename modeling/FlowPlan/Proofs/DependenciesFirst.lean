import FlowPlan.Proofs.ComesAfter

/-! # Dependencies come first

The walk visits the actions of an item before it draws edges from them, so each
of those edges finds the node that it starts from, wherever in the walk the item
stands. The edges lead to actions that the walk has visited as well. So whatever
an item depends on is in the order, and before all that the item comes down to.
-/

namespace FlowPlan

namespace Encounter

/-- Each edge to a dependency starts from an action that is known or has been visited before. -/
def AreAnnounced (known : List Nat) : List Encounter → Prop
  | [] => True
  | .visit action _ :: rest => AreAnnounced (action.key :: known) rest
  | .dependency dependent _ :: rest => dependent ∈ known ∧ AreAnnounced known rest
  | .ordering .. :: rest => AreAnnounced known rest

theorem areAnnounced_of_known {known : List Nat} {encounters : List Encounter}
    (starts : ∀ dependent target, .dependency dependent target ∈ encounters → dependent ∈ known) :
    AreAnnounced known encounters := by
  induction encounters generalizing known with
  | nil => trivial
  | cons head tail induction =>
      have later : ∀ dependent target, .dependency dependent target ∈ tail → dependent ∈ known :=
        fun dependent target mem => starts dependent target (List.mem_cons_of_mem head mem)
      cases head with
      | visit action context =>
          exact induction fun dependent target mem =>
            List.mem_cons_of_mem action.key (later dependent target mem)
      | dependency dependent target =>
          exact ⟨starts dependent target List.mem_cons_self, induction later⟩
      | ordering => exact induction later

namespace AreAnnounced

variable {known : List Nat} {encounters : List Encounter}
  (announced : AreAnnounced known encounters)

include announced

/-- The second part may rely on all that the first one visits. -/
theorem append {others : List Encounter}
    (more : ∀ wider, known ⊆ wider →
      (∀ action context, .visit action context ∈ encounters → action.key ∈ wider) →
      AreAnnounced wider others) :
    AreAnnounced known (encounters ++ others) := by
  induction encounters generalizing known with
  | nil => exact more known (List.Subset.refl known) fun _ _ mem => nomatch mem
  | cons head tail induction =>
      cases head with
      | visit action context =>
          apply induction announced
          intro wider subset visits
          apply more wider (fun key mem => subset (List.mem_cons_of_mem _ mem))
          intro other met mem
          rcases List.mem_cons.mp mem with same | later
          · cases same
            exact subset List.mem_cons_self
          · exact visits other met later
      | dependency dependent target =>
          refine ⟨announced.1, induction announced.2 ?_⟩
          intro wider subset visits
          exact more wider subset fun other met mem =>
            visits other met ((List.mem_cons.mp mem).resolve_left Encounter.noConfusion)
      | ordering dependent target =>
          apply induction announced
          intro wider subset visits
          exact more wider subset fun other met mem =>
            visits other met ((List.mem_cons.mp mem).resolve_left Encounter.noConfusion)

theorem without_orderings :
    AreAnnounced known (encounters.filter fun encounter => !encounter.isOrdering) := by
  induction encounters generalizing known with
  | nil => trivial
  | cons head tail induction =>
      cases head with
      | visit => exact induction announced
      | dependency => exact ⟨announced.1, induction announced.2⟩
      | ordering => exact induction announced

end AreAnnounced

end Encounter

/-! ## The walk announces its edges -/

theorem Step.exists_visit_of_mem_actions {step action : Step} (mem : action ∈ step.actions)
    (scope : List (Condition Step)) : ∃ context, .visit action context ∈ step.encounters scope := by
  rcases Step.mem_actions.mp mem with ⟨single, rfl⟩ | ⟨child, childMem, inside⟩
  · exact ⟨_, Item.visit_mem_step_encounters.mpr (Or.inl ⟨single, rfl, rfl⟩)⟩
  · rcases Item.exists_visit_of_mem_actions inside scope with ⟨context, visited⟩
    exact ⟨context, Item.mem_step_encounters_of_child childMem visited⟩

namespace Item

open Encounter (AreAnnounced)

theorem areAnnounced_encountersAll {scope : List (Condition Step)} {items : List Item}
    (each : ∀ item ∈ items, ∀ known, AreAnnounced known (item.encounters scope))
    (known : List Nat) : AreAnnounced known (encountersAll scope items) := by
  induction items generalizing known with
  | nil => trivial
  | cons head tail induction =>
      rw [encountersAll]
      apply (each head List.mem_cons_self known).append
      intro wider _ _
      exact induction (fun item mem => each item (List.mem_cons_of_mem head mem)) wider

theorem areAnnounced_dependencyEncounters {dependent : Step} {scope : List (Condition Step)}
    {items : List Item}
    (each : ∀ item ∈ items, ∀ known, AreAnnounced known (item.encounters scope))
    {known : List Nat} (visited : ∀ leaf ∈ dependent.leaves, leaf.key ∈ known) :
    AreAnnounced known (dependencyEncounters dependent scope items) := by
  induction items generalizing known with
  | nil => trivial
  | cons head tail induction =>
      rw [dependencyEncounters, List.append_assoc]
      apply (each head List.mem_cons_self known).append
      intro wider subset _
      have edges : AreAnnounced wider (dependent.edgesTo head.step .dependency) := by
        apply Encounter.areAnnounced_of_known
        intro source target drawn
        rcases (dependency_mem_edgesTo.mp drawn).1 with ⟨leaf, leafMem, rfl⟩
        exact subset (visited leaf leafMem)
      apply edges.append
      intro widest moreSubset _
      exact induction (fun item mem => each item (List.mem_cons_of_mem head mem))
        fun leaf mem => moreSubset (subset (visited leaf mem))

theorem areAnnounced_encounters (item : Item) (scope : List (Condition Step)) (known : List Nat) :
    AreAnnounced known (item.encounters scope) := by
  induction item using Item.induction generalizing scope known with
  | walk item childInduction dependencyInduction =>
      cases item with
      | place step condition dependencies predecessors =>
          have own : AreAnnounced known (step.encounters (scope ++ condition.toList)) := by
            cases step with
            | action => trivial
            | group =>
                exact areAnnounced_encountersAll
                  (fun child mem known => childInduction child mem _ known) known
          rw [encounters, List.append_assoc]
          apply own.append
          intro wider _ visits
          have leavesVisited : ∀ leaf ∈ step.leaves, leaf.key ∈ wider := by
            intro leaf mem
            rcases Step.exists_visit_of_mem_actions (mem_of_mem_distinctBy mem)
              (scope ++ condition.toList) with ⟨context, visited⟩
            exact visits leaf context visited
          have edges := areAnnounced_dependencyEncounters
            (fun dependency mem known => dependencyInduction dependency mem
              (step.dependencyScope (scope ++ condition.toList)) known) leavesVisited
          apply edges.append
          intro widest _ _
          apply Encounter.areAnnounced_of_known
          simp [Step.edgesTo]

/-- The edge to a dependency is drawn wherever the item stands. -/
theorem dependency_mem_encounters_of_mem_walk {item found dependency : Item}
    (mem : found ∈ item.walk) (dependencyMem : dependency ∈ found.dependencies)
    {encounter : Encounter}
    (edge : encounter ∈ found.step.edgesTo dependency.step .dependency)
    (scope : List (Condition Step)) : encounter ∈ item.encounters scope := by
  induction item using Item.induction generalizing scope with
  | walk item childInduction dependencyInduction =>
      cases item with
      | place step condition dependencies predecessors =>
          rw [encounters, List.mem_append, List.mem_append, or_assoc]
          rcases mem_walk.mp mem with
            rfl | ⟨child, childMem, inside⟩ | ⟨other, otherMem, inside⟩
          · exact Or.inr (Or.inl (mem_dependencyEncounters.mpr
              ⟨dependency, dependencyMem, Or.inr edge⟩))
          · exact Or.inl (mem_step_encounters_of_child childMem
              (childInduction child childMem inside _))
          · exact Or.inr (Or.inl (mem_dependencyEncounters.mpr
              ⟨other, otherMem, Or.inl (dependencyInduction other otherMem inside _)⟩))

end Item

/-! ## Edges that find their nodes -/

namespace Node

def HasEdge (nodes : List Node) (dependent target : Nat) : Prop :=
  ∃ node ∈ nodes, node.key = dependent ∧ target ∈ node.dependencies

theorem HasEdge.update {nodes : List Node} {dependent target : Nat}
    (edge : HasEdge nodes dependent target) (key : Nat) {change : Node → Node}
    (sameKey : ∀ node, (change node).key = node.key)
    (keeps : ∀ node, target ∈ node.dependencies → target ∈ (change node).dependencies) :
    HasEdge (update key change nodes) dependent target := by
  rcases edge with ⟨node, mem, rfl, targetMem⟩
  refine ⟨_, mem_update.mpr ⟨node, mem, rfl⟩, ?_, ?_⟩
  · split
    · exact sameKey node
    · rfl
  · split
    · exact keeps node targetMem
    · exact targetMem

theorem HasEdge.record {nodes : List Node} {dependent target : Nat}
    (edge : HasEdge nodes dependent target) (encounter : Encounter) :
    HasEdge (record nodes encounter) dependent target := by
  cases encounter with
  | visit action context =>
      rw [Node.record]
      split
      · exact edge.update _ (fun node => node.key_addContext context)
          fun node mem => (node.dependencies_addContext context).symm ▸ mem
      · exact edge.imp fun _ => And.imp_left (List.mem_append_left _)
  | dependency =>
      exact edge.update _ (fun node => (node.sameDemand_addDependency _).key)
        fun _ mem => mem_addOnce.mpr (Or.inl mem)
  | ordering =>
      rw [Node.record]
      split
      · exact edge.update _ (fun node => (node.sameDemand_addOrdering _).key) fun _ mem => mem
      · exact edge

theorem HasEdge.foldl {nodes : List Node} {dependent target : Nat}
    (edge : HasEdge nodes dependent target) (encounters : List Encounter) :
    HasEdge (encounters.foldl Node.record nodes) dependent target := by
  induction encounters generalizing nodes with
  | nil => exact edge
  | cons head tail induction => exact induction (edge.record head)

theorem hasEdge_record {nodes : List Node} {dependent : Nat}
    (present : dependent ∈ nodes.map Node.key) (target : Nat) :
    HasEdge (record nodes (.dependency dependent target)) dependent target := by
  rcases List.mem_map.mp present with ⟨node, mem, rfl⟩
  refine ⟨_, mem_update.mpr ⟨node, mem, if_pos rfl⟩, (node.sameDemand_addDependency target).key, ?_⟩
  exact mem_addOnce.mpr (Or.inr rfl)

theorem key_mem_record (nodes : List Node) (action : Step) (context : Option (Condition Step)) :
    action.key ∈ (record nodes (.visit action context)).map Node.key := by
  rw [record]
  split
  · rename_i present
    rw [keys_update fun node => node.key_addContext context]
    exact hasKey_iff.mp present
  · rw [List.map_append]
    have sameKey := key_addContext { step := action } context
    exact List.mem_append_right _ (List.mem_singleton.mpr sameKey.symm)

theorem hasEdge_foldl {encounters : List Encounter} {known : List Nat}
    (announced : Encounter.AreAnnounced known encounters) {nodes : List Node}
    (present : known ⊆ nodes.map Node.key) {dependent target : Nat}
    (drawn : .dependency dependent target ∈ encounters) :
    HasEdge (encounters.foldl record nodes) dependent target := by
  induction encounters generalizing known nodes with
  | nil => cases drawn
  | cons head tail induction =>
      have stillPresent : known ⊆ (record nodes head).map Node.key :=
        fun key mem => mem_keys_record (present mem) head
      cases head with
      | visit action context =>
          refine induction announced ?_ ((List.mem_cons.mp drawn).resolve_left Encounter.noConfusion)
          exact List.cons_subset.mpr ⟨key_mem_record nodes action context, stillPresent⟩
      | dependency =>
          rcases List.mem_cons.mp drawn with same | later
          · cases same
            exact (hasEdge_record (present announced.1) target).foldl tail
          · exact induction announced.2 stillPresent later
      | ordering =>
          exact induction announced stillPresent
            ((List.mem_cons.mp drawn).resolve_left Encounter.noConfusion)

theorem hasEdge_ofEncounters {encounters : List Encounter}
    (announced : Encounter.AreAnnounced [] encounters) {dependent target : Nat}
    (drawn : .dependency dependent target ∈ encounters) :
    HasEdge (ofEncounters encounters) dependent target :=
  (hasEdge_foldl announced.without_orderings (List.nil_subset _)
    (List.mem_filter.mpr ⟨drawn, rfl⟩)).foldl _

end Node

namespace Graph

variable {items : List Item}

theorem precedes_of_dependency {dependent target : Nat}
    (drawn : .dependency dependent target ∈ Item.encountersAll [] items) :
    (ofItems items).Precedes target dependent := by
  have announced := Item.areAnnounced_encountersAll
    (fun item (_ : item ∈ items) known => item.areAnnounced_encounters [] known) []
  rcases Node.hasEdge_ofEncounters announced drawn with ⟨node, nodeMem, rfl, targetMem⟩
  rcases exists_pulls_ofItems items with ⟨pulled, pulls⟩
  have mem : node.withReads ∈ (ofItems items).nodes := by
    rw [nodes_ofItems pulls]
    exact List.mem_map_of_mem (List.mem_append_left _ nodeMem)
  have edge : target ∈ node.withReads.dependencies :=
    Node.mem_addDependencies.mpr (Or.inl targetMem)
  exact ⟨mem_keys_of_mem_predecessors mem (Node.mem_predecessors.mpr (Or.inl edge)),
    node.withReads, mem, (Node.sameDemand_withReads node).key, Or.inl edge⟩

/-- Whatever an item of the walk depends on is in the order, and before all that the item comes
down to. -/
theorem dependencies_come_first {order : List Nat} (resolved : (ofItems items).order = .ok order)
    {item : Item} (itemMem : item ∈ Item.walkAll items) {dependency : Item}
    (dependencyMem : dependency ∈ item.dependencies) {action : Step}
    (actionMem : action ∈ dependency.step.leaves) :
    action.key ∈ order ∧
      ∀ dependent ∈ item.step.leaves, IsBefore order action.key dependent.key := by
  rcases Item.mem_walkAll.mp itemMem with ⟨top, topMem, inside⟩
  constructor
  · have met : action ∈ Item.actionsMet items := by
      apply Item.mem_actionsMet_of_mem_leaves _ actionMem
      exact Item.mem_walkAll.mpr ⟨top, topMem, Item.walk_subset inside
        (Item.mem_walk_of_dependency dependencyMem dependency.self_mem_walk)⟩
    rcases Item.exists_visit_of_mem_actionsMet met [] with ⟨context, visited⟩
    rcases exists_node_of_visit visited with ⟨node, nodeMem, sameKey, _⟩
    rw [mem_order_iff resolved, ← sameKey]
    exact List.mem_map_of_mem nodeMem
  · intro dependent dependentMem
    apply isBefore_of_precedes resolved (isIndexed_ofItems items)
    apply precedes_of_dependency
    exact Item.mem_encountersAll.mpr ⟨top, topMem,
      Item.dependency_mem_encounters_of_mem_walk inside dependencyMem
        (Step.mem_edgesTo actionMem dependentMem) []⟩

end Graph

/-! ## A step inside a group that depends on a group -/

namespace Sample

def checks : Step := .group 7 none [] none [.ofStep check, .ofStep prepare]

def checkedCleanUp : Item := .place cleanUp none [.ofStep checks] []

def releaseItems : List Item := [.ofStep (.group 8 none [] none [checkedCleanUp])]

theorem dependencies_come_first_sample :
    (Graph.ofItems releaseItems).order = .ok [1, 2, 6] ∧ prepare.key ∈ [1, 2, 6] ∧
      ∀ dependent ∈ cleanUp.leaves, Graph.IsBefore [1, 2, 6] prepare.key dependent.key := by
  have resolved : (Graph.ofItems releaseItems).order = .ok [1, 2, 6] := by
    decide +kernel
  have itemMem : checkedCleanUp ∈ Item.walkAll releaseItems := .tail _ (.head _)
  exact ⟨resolved, Graph.dependencies_come_first resolved itemMem List.mem_cons_self
    (.tail _ (.head _))⟩

end Sample

end FlowPlan
