import FlowPlan.Proofs.Edges
import FlowPlan.Proofs.EarlierReads

/-! # Graphs are closed

The nodes of a job have different keys, and the index leads from each key to the
place of its node. Whatever the walk meets, whatever an edge leads to and
whatever a condition reads has such a place, also if only a pulled-in step asks
for it. A node is there because something asks for it, and it has each of its
contexts once.
-/

namespace FlowPlan

/-! ## Contexts are told apart by their texts -/

namespace Node

def HasDistinctContexts (node : Node) : Prop := (node.contexts.map Condition.render).Nodup

theorem hasDistinctContexts_of_eq_nil {node : Node} (none : node.contexts = []) :
    node.HasDistinctContexts := by
  rw [HasDistinctContexts, none]
  exact List.nodup_nil

theorem HasDistinctContexts.addContext {node : Node} (distinct : node.HasDistinctContexts)
    (context : Option (Condition Step)) : (node.addContext context).HasDistinctContexts := by
  cases context with
  | none => exact distinct
  | some context =>
      rw [Node.addContext]
      split
      · exact distinct
      · rename_i absent
        change ((node.contexts ++ [context]).map Condition.render).Nodup
        rw [List.map_append, List.map_singleton, List.nodup_append]
        refine ⟨distinct, List.pairwise_singleton _ _, ?_⟩
        intro text mem other otherMem equal
        rcases List.mem_map.mp mem with ⟨kept, keptMem, rfl⟩
        rw [List.mem_singleton.mp otherMem] at equal
        exact absent (List.any_eq_true.mpr ⟨kept, keptMem, decide_eq_true equal⟩)

theorem hasDistinctContexts_record {nodes : List Node}
    (distinct : ∀ node ∈ nodes, node.HasDistinctContexts) (encounter : Encounter) :
    ∀ node ∈ record nodes encounter, node.HasDistinctContexts := by
  intro node mem
  rcases mem_record mem with old | ⟨action, context, _, before, origin, rfl⟩ |
    ⟨before, beforeMem, added, _, rfl⟩ | ⟨before, beforeMem, added, _, _, rfl⟩
  · exact distinct node old
  · rcases origin with old | rfl
    · exact (distinct before old).addContext context
    · exact (hasDistinctContexts_of_eq_nil rfl).addContext context
  · exact distinct before beforeMem
  · exact distinct before beforeMem

theorem hasDistinctContexts_ofEncounters (encounters : List Encounter) :
    ∀ node ∈ ofEncounters encounters, node.HasDistinctContexts := by
  have keeps : ∀ (more : List Encounter) (nodes : List Node),
      (∀ node ∈ nodes, node.HasDistinctContexts) →
      ∀ node ∈ more.foldl record nodes, node.HasDistinctContexts := by
    intro more nodes start
    induction more generalizing nodes with
    | nil => exact start
    | cons head tail induction =>
        exact induction (record nodes head) (hasDistinctContexts_record start head)
  exact keeps _ _ (keeps _ _ (List.forall_mem_nil _))

theorem contexts_withReads (node : Node) : node.withReads.contexts = node.contexts := by
  rw [withReads, addDependencies_eq]

theorem hasDistinctContexts_of_mem_nodes {items : List Item} {node : Node}
    (mem : node ∈ (Graph.ofItems items).nodes) : node.HasDistinctContexts := by
  rcases Graph.exists_pulls_ofItems items with ⟨pulled, pulls⟩
  rw [Graph.nodes_ofItems pulls] at mem
  rcases List.mem_map.mp mem with ⟨before, beforeMem, rfl⟩
  rw [HasDistinctContexts, contexts_withReads]
  rcases List.mem_append.mp beforeMem with met | fresh
  · exact hasDistinctContexts_ofEncounters _ before met
  · rcases List.mem_map.mp fresh with ⟨action, _, rfl⟩
    exact List.nodup_nil

/-- No node is there for nothing. -/
theorem wanted_of_mem_nodes {items : List Item} {node : Node}
    (mem : node ∈ (Graph.ofItems items).nodes) :
    node.unconditional = true ∨ node.contexts ≠ [] := by
  rcases Graph.exists_pulls_ofItems items with ⟨pulled, pulls⟩
  rw [Graph.nodes_ofItems pulls] at mem
  rcases List.mem_map.mp mem with ⟨before, beforeMem, rfl⟩
  have wanted : ∃ context, before.withReads.Asks context := by
    rcases List.mem_append.mp beforeMem with met | fresh
    · have isMet := Graph.isMet_of_mem_ofEncounters met
      exact (isMet.of_sameDemand (sameDemand_withReads before)).wanted
    · rcases List.mem_map.mp fresh with ⟨action, _, rfl⟩
      exact ⟨none, ((sameDemand_withReads _).asks none).mpr rfl⟩
  rcases wanted with ⟨context | context, asks⟩
  · exact Or.inl asks
  · exact Or.inr (List.ne_nil_of_mem asks)

end Node

/-! ## Closed graphs -/

namespace Graph

/-- The graph holds together and has all that the items ask for. Its index leads from the key of each
node to the place of that node, and nowhere else. -/
structure IsClosed (items : List Item) (graph : Graph) : Prop where
  distinct : (graph.nodes.map Node.key).Nodup
  indexed : ∀ key position, graph.position? key = some position ↔
    ∃ node, graph.nodes[position]? = some node ∧ node.key = key
  found : ∀ key node, graph.node? key = some node ↔ node ∈ graph.nodes ∧ node.key = key
  met : ∀ action ∈ Item.actionsMet items, ∃ node ∈ graph.nodes, node.key = action.key
  linked : ∀ node ∈ graph.nodes, ∀ target, target ∈ node.dependencies ∨ target ∈ node.orderings →
    ∃ other ∈ graph.nodes, other.key = target
  covered : ∀ node ∈ graph.nodes, ∀ condition,
    condition ∈ node.contexts ∨ condition ∈ node.step.ownCondition? →
    ∀ read, .step read ∈ condition.sources → ∀ action ∈ read.leaves,
      (∃ other ∈ graph.nodes, other.key = action.key) ∧
      (action.key = node.key ∨ action.key ∈ node.dependencies)
  wanted : ∀ node ∈ graph.nodes, node.unconditional = true ∨ node.contexts ≠ []
  texts : ∀ node ∈ graph.nodes, (node.contexts.map Condition.render).Nodup

theorem isClosed_ofItems (items : List Item) : IsClosed items (ofItems items) where
  distinct := nodup_keys_ofItems items
  indexed _ _ := (isIndexed_ofItems items).position?_eq_some_iff
  found _ _ := (isIndexed_ofItems items).node?_eq_some_iff
  met := by
    intro action mem
    rcases Item.exists_visit_of_mem_actionsMet mem [] with ⟨context, visited⟩
    rcases exists_node_of_visit visited with ⟨node, nodeMem, sameKey, _⟩
    exact ⟨node, nodeMem, sameKey⟩
  linked := by
    intro node mem target edge
    exact List.mem_map.mp (mem_keys_of_mem_predecessors mem (Node.mem_predecessors.mpr edge))
  covered := by
    intro node mem condition conditionMem read readMem action actionMem
    have reads := (isInvolved_of_mem_nodes mem).reads condition
      (List.mem_append.mpr (conditionMem.imp_right Option.mem_toList.mpr)) action
      (Condition.mem_readActions.mpr ⟨read, readMem, actionMem⟩)
    by_cases same : action.key = node.key
    · exact ⟨⟨node, mem, same.symm⟩, Or.inl same⟩
    · exact ⟨List.mem_map.mp (reads same).2, Or.inr (reads same).1⟩
  wanted _ mem := Node.wanted_of_mem_nodes mem
  texts _ mem := Node.hasDistinctContexts_of_mem_nodes mem

end Graph

end FlowPlan
