import FlowPlan.Proofs.Acyclic
import FlowPlan.Proofs.EarlierReads

/-! # Items without edges that only order

Edges that only order are recorded last, and nothing but the order looks at
them. Without them the same nodes ask for the same actions in the same contexts.
The actions may move, but everything that the conditions of a node read, its own
action apart, stands before it in every order. So no run condition changes.
-/

namespace FlowPlan

mutual

/-- The step with no predecessors in any of the places inside it. -/
def Step.unordered : Step → Step
  | .action key id outputs content consumes => .action key id outputs content consumes
  | .group key id outputs name children => .group key id outputs name (Item.unorderedAll children)

/-- The item without predecessors, like all items of its walk. -/
def Item.unordered : Item → Item
  | .place step condition dependencies _ =>
    .place step.unordered condition (Item.unorderedAll dependencies) []

def Item.unorderedAll : List Item → List Item
  | [] => []
  | item :: rest => item.unordered :: Item.unorderedAll rest

end

namespace Item

@[simp] theorem step_unordered (item : Item) : item.unordered.step = item.step.unordered := by
  cases item
  rfl

@[simp] theorem condition_unordered (item : Item) : item.unordered.condition = item.condition := by
  cases item
  rfl

theorem unorderedAll_eq_map (items : List Item) : unorderedAll items = items.map unordered := by
  induction items with
  | nil => rfl
  | cons head tail induction => rw [unorderedAll, induction, List.map_cons]

end Item

namespace Step

@[simp] theorem key_unordered (step : Step) : step.unordered.key = step.key := by
  cases step <;> rfl

@[simp] theorem children_unordered (step : Step) :
    step.unordered.children = step.children.map Item.unordered := by
  cases step with
  | action => rfl
  | group key id outputs name children => exact Item.unorderedAll_eq_map children

@[simp] theorem isGroup_unordered (step : Step) : step.unordered.isGroup = step.isGroup := by
  cases step <;> rfl

@[simp] theorem ownCondition?_unordered (step : Step) :
    step.unordered.ownCondition? = step.ownCondition? := by
  cases step <;> rfl

theorem unordered_of_single {step : Step} (single : step.isGroup = false) :
    step.unordered = step := by
  cases step with
  | action => rfl
  | group => cases single

end Step

/-! ## The walk -/

mutual

theorem Step.actions_unordered (step : Step) : step.unordered.actions = step.actions := by
  cases step with
  | action => rfl
  | group key id outputs name children =>
      rw [Step.unordered, Step.actions, Step.actions, Item.actionsAll_unorderedAll children]

theorem Item.actionsAll_unorderedAll (items : List Item) :
    Item.actionsAll (Item.unorderedAll items) = Item.actionsAll items := by
  match items with
  | [] => rfl
  | .place step condition dependencies predecessors :: rest =>
      rw [Item.unorderedAll, Item.unordered, Item.actionsAll, Item.actionsAll,
        Step.actions_unordered step, Item.actionsAll_unorderedAll rest]

end

@[simp] theorem Step.leaves_unordered (step : Step) : step.unordered.leaves = step.leaves := by
  rw [leaves, leaves, step.actions_unordered]

@[simp] theorem Step.edgesTo_unordered (step target : Step) (edge : Nat → Nat → Encounter) :
    step.unordered.edgesTo target.unordered edge = step.edgesTo target edge := by
  simp [edgesTo]

theorem Step.dependencyScope_unordered (step : Step) (scope : List (Condition Step)) :
    step.unordered.dependencyScope scope = step.dependencyScope scope := by
  simp [dependencyScope, List.mapM_map, Function.comp_def]

theorem Step.filter_edgesTo_dependency (step target : Step) :
    (step.edgesTo target .dependency).filter (!·.isOrdering) =
      step.edgesTo target .dependency := by
  rw [List.filter_eq_self, edgesTo]
  intro encounter mem
  rcases List.mem_flatMap.mp mem with ⟨leaf, _, inside⟩
  rcases List.mem_map.mp inside with ⟨dependent, _, rfl⟩
  rfl

theorem Step.filter_edgesTo_ordering (step target : Step) :
    (step.edgesTo target .ordering).filter (!·.isOrdering) = [] := by
  rw [List.filter_eq_nil_iff, edgesTo]
  intro encounter mem
  rcases List.mem_flatMap.mp mem with ⟨leaf, _, inside⟩
  rcases List.mem_map.mp inside with ⟨dependent, _, rfl⟩
  exact Bool.false_ne_true

mutual

theorem Item.encounters_unordered (scope : List (Condition Step)) (item : Item) :
    item.unordered.encounters scope = (item.encounters scope).filter (!·.isOrdering) := by
  match item with
  | .place step condition dependencies predecessors =>
      have inner := Step.encounters_unordered (scope ++ condition.toList) step
      have behind := Item.dependencyEncounters_unorderedAll step
        (step.dependencyScope (scope ++ condition.toList)) dependencies
      simp [Item.unordered, Item.encounters, Step.dependencyScope_unordered, inner, behind,
        List.filter_flatMap, Step.filter_edgesTo_ordering]

theorem Step.encounters_unordered (scope : List (Condition Step)) (step : Step) :
    step.unordered.encounters scope = (step.encounters scope).filter (!·.isOrdering) := by
  match step with
  | .action .. => rfl
  | .group _ _ _ _ children => exact Item.encountersAll_unorderedAll scope children

theorem Item.encountersAll_unorderedAll (scope : List (Condition Step)) (items : List Item) :
    Item.encountersAll scope (Item.unorderedAll items) =
      (Item.encountersAll scope items).filter (!·.isOrdering) := by
  match items with
  | [] => rfl
  | item :: rest =>
      rw [Item.unorderedAll, Item.encountersAll, Item.encountersAll, List.filter_append,
        Item.encounters_unordered scope item, Item.encountersAll_unorderedAll scope rest]

theorem Item.dependencyEncounters_unorderedAll (dependent : Step) (scope : List (Condition Step))
    (items : List Item) :
    Item.dependencyEncounters dependent.unordered scope (Item.unorderedAll items) =
      (Item.dependencyEncounters dependent scope items).filter (!·.isOrdering) := by
  match items with
  | [] => rfl
  | item :: rest =>
      rw [Item.unorderedAll, Item.dependencyEncounters, Item.dependencyEncounters,
        List.filter_append, List.filter_append, Item.encounters_unordered scope item,
        Item.dependencyEncounters_unorderedAll dependent scope rest, Item.step_unordered,
        Step.edgesTo_unordered, Step.filter_edgesTo_dependency]

end

/-! ## The nodes -/

namespace Node

def unordered (node : Node) : Node := { node with orderings := [] }

@[simp] theorem step_unordered (node : Node) : node.unordered.step = node.step := rfl

@[simp] theorem key_unordered (node : Node) : node.unordered.key = node.key := rfl

theorem unordered_addContext (node : Node) (context : Option (Condition Step)) :
    (node.addContext context).unordered = node.unordered.addContext context := by
  cases context with
  | none => rfl
  | some context =>
      rw [addContext, addContext]
      exact apply_ite unordered _ _ _

theorem map_unordered_update {key : Nat} {change : Node → Node}
    (commutes : ∀ node, (change node).unordered = change node.unordered) (nodes : List Node) :
    (update key change nodes).map unordered = update key change (nodes.map unordered) := by
  rw [update, update, List.map_map, List.map_map]
  apply List.map_congr_left
  intro node _
  change (if node.key = key then change node else node).unordered =
    if node.key = key then change node.unordered else node.unordered
  rw [← commutes]
  exact apply_ite unordered _ _ _

theorem hasKey_map_unordered (nodes : List Node) (key : Nat) :
    hasKey (nodes.map unordered) key = hasKey nodes key := by
  rw [hasKey, hasKey, List.any_map]
  rfl

theorem record_map_unordered (nodes : List Node) {encounter : Encounter}
    (binding : encounter.isOrdering = false) :
    record (nodes.map unordered) encounter = (record nodes encounter).map unordered := by
  cases encounter with
  | visit action context =>
      rw [record, record, hasKey_map_unordered]
      split
      · rw [map_unordered_update fun node => node.unordered_addContext context]
      · rw [List.map_append, List.map_singleton, unordered_addContext]
        rfl
  | dependency dependent target =>
      have commutes : ∀ node : Node, (node.addDependency target).unordered =
          node.unordered.addDependency target := fun _ => rfl
      exact (map_unordered_update commutes nodes).symm
  | ordering => cases binding

theorem map_unordered_record_ordering (nodes : List Node) {encounter : Encounter}
    (orders : encounter.isOrdering = true) :
    (record nodes encounter).map unordered = nodes.map unordered := by
  cases encounter with
  | ordering dependent target =>
      rw [record]
      split
      · rw [update, List.map_map]
        apply List.map_congr_left
        intro node _
        change (if node.key = dependent then node.addOrdering target else node).unordered = _
        split <;> rfl
      · rfl
  | visit => cases orders
  | dependency => cases orders

theorem map_unordered_foldl_record (encounters : List Encounter) (nodes : List Node) :
    (encounters.foldl record nodes).map unordered =
      (encounters.filter (!·.isOrdering)).foldl record (nodes.map unordered) := by
  induction encounters generalizing nodes with
  | nil => rfl
  | cons head tail induction =>
      rw [List.foldl_cons, induction]
      cases orders : head.isOrdering with
      | true => simp [orders, map_unordered_record_ordering nodes orders]
      | false => simp [orders, record_map_unordered nodes orders]

theorem ofEncounters_filter (encounters : List Encounter) :
    ofEncounters (encounters.filter (!·.isOrdering)) =
      (ofEncounters encounters).map unordered := by
  rw [ofEncounters, ofEncounters, map_unordered_foldl_record, map_unordered_foldl_record]
  simp

@[simp] theorem readActions_unordered (node : Node) :
    node.unordered.readActions = node.readActions := rfl

theorem unordered_addDependencies (targets : List Nat) (node : Node) :
    targets.foldl addDependency node.unordered = (targets.foldl addDependency node).unordered :=
  List.foldl_hom unordered fun _ _ => rfl

theorem closeOverReads_map_unordered (settled pending : List Node) :
    closeOverReads (settled.map unordered) (pending.map unordered) =
      (closeOverReads settled pending).map unordered := by
  induction settled, pending using closeOverReads.induct with
  | case1 settled => rw [closeOverReads, List.map_nil, closeOverReads]
  | case2 settled node rest read fresh induction =>
      have sameFresh : missing (settled.map unordered ++ (node :: rest).map unordered)
          node.unordered.readActions = fresh := by
        rw [← List.map_append, missing]
        simp only [hasKey_map_unordered]
        rfl
      rw [List.map_append, List.map_append, List.map_singleton] at induction
      rw [List.map_cons, closeOverReads, ← List.map_cons, sameFresh, closeOverReads]
      simp only [readActions_unordered, unordered_addDependencies]
      rw [List.map_map] at induction
      exact induction

end Node

/-! ## The graph -/

namespace Graph

def unordered (graph : Graph) : Graph := { graph with nodes := graph.nodes.map Node.unordered }

theorem declare_unordered (leaves : List DeclaredLeaf) (item : Item) :
    DeclaredLeaf.declare leaves item.unordered = DeclaredLeaf.declare leaves item := by
  simp [DeclaredLeaf.declare, Item.declaredCondition]

theorem ofItems_unorderedAll (items : List Item) :
    ofItems (Item.unorderedAll items) = (ofItems items).unordered := by
  have nodes := Node.closeOverReads_map_unordered [] (Node.ofEncounters (Item.encountersAll [] items))
  rw [← Node.ofEncounters_filter, ← Item.encountersAll_unorderedAll, List.map_nil,
    ← nodes_ofItems_eq, ← nodes_ofItems_eq] at nodes
  have index : (ofItems (Item.unorderedAll items)).index = (ofItems items).index := by
    rw [(isIndexed_ofItems _).index, (isIndexed_ofItems _).index, nodes]
    simp [Function.comp_def]
  have roots : (Item.unorderedAll items).map (fun item => item.step.leaves.map Step.key) =
      items.map fun item => item.step.leaves.map Step.key := by
    simp [Item.unorderedAll_eq_map, Function.comp_def]
  have declared : (Item.unorderedAll items).foldl DeclaredLeaf.declare [] =
      items.foldl DeclaredLeaf.declare [] := by
    rw [Item.unorderedAll_eq_map, List.foldl_map]
    simp only [declare_unordered]
  exact Graph.ext nodes index roots declared

end Graph

/-! ## What the job has to do with -/

mutual

theorem Item.walk_unordered (item : Item) : item.unordered.walk = item.walk.map Item.unordered := by
  match item with
  | .place step condition dependencies predecessors =>
      rw [Item.unordered, Item.walk, Item.walk, Step.walk_unordered step,
        Item.walkAll_unorderedAll dependencies, List.map_cons, List.map_append, Item.unordered]

theorem Step.walk_unordered (step : Step) : step.unordered.walk = step.walk.map Item.unordered := by
  match step with
  | .action .. => rfl
  | .group _ _ _ _ children => exact Item.walkAll_unorderedAll children

theorem Item.walkAll_unorderedAll (items : List Item) :
    Item.walkAll (Item.unorderedAll items) = (Item.walkAll items).map Item.unordered := by
  match items with
  | [] => rfl
  | item :: rest =>
      rw [Item.unorderedAll, Item.walkAll, Item.walkAll, List.map_append, Item.walk_unordered item,
        Item.walkAll_unorderedAll rest]

end

namespace Item

theorem actionsMet_unorderedAll (items : List Item) :
    actionsMet (unorderedAll items) = actionsMet items := by
  have single : ∀ steps : List Step,
      (steps.map Step.unordered).filter (!·.isGroup) = steps.filter (!·.isGroup) := by
    intro steps
    induction steps with
    | nil => rfl
    | cons head tail induction =>
        cases grouped : head.isGroup with
        | true => simpa [grouped] using induction
        | false => simpa [grouped, Step.unordered_of_single grouped] using induction
  have steps : (walkAll (unorderedAll items)).map Item.step =
      ((walkAll items).map Item.step).map Step.unordered := by
    simp [walkAll_unorderedAll]
  rw [actionsMet, actionsMet, steps, single]

theorem conditions_unorderedAll (items : List Item) :
    conditions (unorderedAll items) = conditions items := by
  simp [conditions, walkAll_unorderedAll, List.flatMap_map]

theorem Involves.of_unorderedAll {items : List Item} {step : Step}
    (involved : Involves (unorderedAll items) step) : Involves items step := by
  induction involved with
  | met mem => exact .met (actionsMet_unorderedAll items ▸ mem)
  | read mem leafMem reads => exact .read (conditions_unorderedAll items ▸ mem) leafMem reads
  | own _ mem leafMem reads involved => exact .own involved mem leafMem reads
  | inside _ mem involved => exact .inside involved mem

end Item

/-! ## Orders -/

namespace Graph

variable {items : List Item} {order : List Nat}

theorem Precedes.of_unordered {graph : Graph} {earlier later : Nat}
    (precedes : graph.unordered.Precedes earlier later) : graph.Precedes earlier later := by
  rcases precedes with ⟨present, other, otherMem, rfl, edge⟩
  rcases List.mem_map.mp otherMem with ⟨node, mem, rfl⟩
  refine ⟨?_, node, mem, rfl, Or.inl (edge.resolve_right List.not_mem_nil)⟩
  simpa [unordered, Function.comp_def] using present

theorem keys_unordered (graph : Graph) :
    graph.unordered.nodes.map Node.key = graph.nodes.map Node.key := by
  simp [unordered, Function.comp_def]

theorem exists_order_unordered (resolved : (ofItems items).order = .ok order) :
    ∃ other, (ofItems items).unordered.order = .ok other ∧ other.Perm order := by
  have indexed := isIndexed_ofItems items
  have acyclic : ∀ key, ¬ Relation.TransGen (ofItems items).unordered.Precedes key key := by
    intro key circle
    exact acyclic_of_order resolved indexed key
      (Relation.TransGen.mono (fun _ _ => Precedes.of_unordered) key key circle)
  have unorderedIndexed : (ofItems items).unordered.IsIndexed :=
    ofItems_unorderedAll items ▸ isIndexed_ofItems (Item.unorderedAll items)
  rcases order_isOk_iff.mpr (not_isStuck unorderedIndexed acyclic) with ⟨other, otherResolved⟩
  refine ⟨other, otherResolved, ?_⟩
  rw [List.perm_ext_iff_of_nodup (nodup_order otherResolved unorderedIndexed)
    (nodup_order resolved indexed)]
  intro key
  rw [mem_order_iff otherResolved, mem_order_iff resolved, keys_unordered]

/-! ## Run conditions -/

/-- Whatever an operand of a context reads has been placed, its node's own action apart. -/
theorem isKnown_of_mem_contexts (keys : Step.KeysIdentify (Item.Involves items))
    (resolved : (ofItems items).order = .ok order) {node : Node}
    (nodeMem : node ∈ (ofItems items).nodes) {position : Nat}
    (placed : order[position]? = some node.key) {context : Condition Step}
    (asks : context ∈ node.contexts) {operand : Condition Step}
    (operandMem : operand ∈ context.conjuncts) :
    isKnown (order.take position) operand =
      operand.readActions.all fun action => decide (action.key ≠ node.key) := by
  have reads := (isInvolved_of_mem_nodes nodeMem).contexts context asks
  have behind : ∀ action ∈ context.readActions,
      action.key ≠ node.key → action.key ∈ order.take position :=
    fun _ => mem_take_of_mem_readActions resolved nodeMem placed (List.mem_append_left _ asks)
  have operandBehind :=
    (Condition.splits_over _).of_mem_operands .and (reads.throughout keys behind) operandMem
  rw [isKnown, Bool.eq_iff_iff, List.all_eq_true, List.all_eq_true]
  apply forall₂_congr
  intro action read
  rcases Condition.mem_readActions.mp read with ⟨step, stepMem, inside⟩
  rw [List.contains_iff_mem, decide_eq_true_eq]
  constructor
  · intro earlier same
    exact IsBefore.irrefl (nodup_order resolved (isIndexed_ofItems items)) node.key
      (.of_mem_take placed (same ▸ earlier))
  · exact Condition.ReadsSteps.of_mem_sources operandBehind stepMem action inside

theorem runCondition_congr {graph : Graph} {node : Node} {placed others : List Nat}
    (same : ∀ context ∈ node.contexts, ∀ operand ∈ context.conjuncts,
      isKnown placed operand = isKnown others operand) :
    graph.runCondition placed node = graph.runCondition others node := by
  have parts : ∀ context ∈ node.contexts, knownPart placed context = knownPart others context := by
    intro context asks
    rw [knownPart, knownPart, List.filter_congr (same context asks)]
  rw [runCondition, runCondition, anyContext, anyContext, mapM_congr parts]

/-- Without edges that only order, the graph of a job keeps its nodes and everything but these
edges, the same actions are ordered, and each runs under the same condition. -/
theorem orderings_change_only_the_order (keys : Step.KeysIdentify (Item.Involves items))
    (resolved : (ofItems items).order = .ok order) :
    ofItems (Item.unorderedAll items) = (ofItems items).unordered ∧
    ∃ other, (ofItems (Item.unorderedAll items)).order = .ok other ∧ other.Perm order ∧
      ∀ (position place key : Nat), order[position]? = some key → other[place]? = some key →
        ((ofItems (Item.unorderedAll items)).runConditions [] other)[place]? =
          ((ofItems items).runConditions [] order)[position]? := by
  have sameGraph := ofItems_unorderedAll items
  rcases exists_order_unordered resolved with ⟨other, otherResolved, sameKeys⟩
  refine ⟨sameGraph, other, sameGraph ▸ otherResolved, sameKeys, ?_⟩
  intro position place key atPosition atPlace
  have present := (mem_order_iff resolved key).mp (List.mem_of_getElem? atPosition)
  rcases List.mem_map.mp present with ⟨node, nodeMem, rfl⟩
  have otherMem : node.unordered ∈ (ofItems (Item.unorderedAll items)).nodes := by
    rw [sameGraph]
    exact List.mem_map_of_mem nodeMem
  have otherKeys : Step.KeysIdentify (Item.Involves (Item.unorderedAll items)) :=
    fun left right leftMem rightMem => keys left right leftMem.of_unorderedAll
      rightMem.of_unorderedAll
  have sameRun : (ofItems items).runCondition (other.take place) node =
      (ofItems items).runCondition (order.take position) node := by
    apply runCondition_congr
    intro context asks operand operandMem
    rw [isKnown_of_mem_contexts keys resolved nodeMem atPosition asks operandMem]
    exact isKnown_of_mem_contexts otherKeys (sameGraph ▸ otherResolved) otherMem atPlace asks
      operandMem
  have otherNode : (ofItems (Item.unorderedAll items)).node? node.key = some node.unordered :=
    node?_eq_some (isIndexed_ofItems _) otherMem
  rw [getElem?_runConditions, getElem?_runConditions, atPosition, atPlace, Option.map_some,
    Option.map_some, otherNode, node?_eq_some (isIndexed_ofItems items) nodeMem, Option.bind_some,
    Option.bind_some, List.nil_append, List.nil_append, ← sameRun, sameGraph]
  rfl

end Graph

/-! ## A job whose announcement waits for the publication -/

namespace Sample

def announce : Step := .action 5 none [] {} []

def announcedItems : List Item :=
  .place announce none [] [.ofStep publication] :: publicationItems

theorem announce_or_involved {step : Step} (involved : Item.Involves announcedItems step) :
    step = announce ∨ Item.Involves publicationItems step := by
  induction involved with
  | met mem => exact (List.mem_cons.mp mem).imp_right .met
  | read mem leafMem reads => exact Or.inr (.read mem leafMem reads)
  | own _ mem leafMem reads induction =>
      rcases induction with rfl | involved
      · cases mem
      · exact Or.inr (.own involved mem leafMem reads)
  | inside _ mem induction =>
      rcases induction with rfl | involved
      · exact Or.inl (List.mem_singleton.mp mem)
      · exact Or.inr (.inside involved mem)

theorem announced_resolved : (Graph.ofItems announcedItems).order = .ok [1, 2, 3, 5] := by
  decide +kernel

/-- Without the edge the announcement comes first, and the publication still runs under its
condition. -/
theorem orderings_change_only_the_order_sample :
    (Graph.ofItems (Item.unorderedAll announcedItems)).order = .ok [5, 1, 2, 3] ∧
      ((Graph.ofItems (Item.unorderedAll announcedItems)).runConditions [] [5, 1, 2, 3])[3]? =
        ((Graph.ofItems announcedItems).runConditions [] [1, 2, 3, 5])[2]? := by
  have listed : ∀ step, Item.Involves announcedItems step →
      step ∈ [announce, check, prepare, publish] := fun step involved =>
    List.mem_cons.mpr ((announce_or_involved involved).imp_right mem_of_involves)
  have keys := Step.keysIdentify_of_nodup listed (by decide)
  have freed : (Graph.ofItems (Item.unorderedAll announcedItems)).order = .ok [5, 1, 2, 3] := by
    decide +kernel
  rcases Graph.orderings_change_only_the_order keys announced_resolved with
    ⟨_, other, otherResolved, _, sameConditions⟩
  cases freed.symm.trans otherResolved
  exact ⟨freed, sameConditions 2 3 publish.key rfl rfl⟩

end Sample

end FlowPlan
