import FlowPlan.Proofs.Arrangement
import FlowPlan.Proofs.Declared
import FlowPlan.Proofs.Demand

/-! # The graph of the items of a job

A node of the graph stands for an action that the walk has visited, or for one
that was pulled in because a condition reads it. Its place in the order and the
condition it runs under there are what the graph says about the action.
-/

namespace FlowPlan

open Condition (Permits Respects TextDecides Closed)

/-- What is asked of the conditions of a job is asked of those of all its items. -/
theorem Item.conditionsAmong_of_conditions {among : Condition Step → Prop} {items : List Item}
    (all : ∀ condition ∈ conditions items, among condition) :
    ∀ item ∈ walkAll items, item.ConditionsAmong among := by
  intro item mem
  constructor
  · intro condition found
    exact all condition (mem_conditions.mpr ⟨item, mem, Or.inl found⟩)
  · intro condition found
    exact all condition (mem_conditions.mpr ⟨item, mem, Or.inr found⟩)

/-- Steps with one key are one step, as when every new step is numbered on its own. -/
def Step.KeysIdentify (members : Step → Prop) : Prop :=
  ∀ left right, members left → members right → left.key = right.key → left = right

theorem Step.keysIdentify_of_nodup {members : Step → Prop} {steps : List Step}
    (listed : ∀ step, members step → step ∈ steps) (distinct : (steps.map Step.key).Nodup) :
    Step.KeysIdentify members := by
  intro left right leftMem rightMem sameKey
  exact List.inj_on_of_nodup_map distinct (listed left leftMem) (listed right rightMem) sameKey

/-- The node stands for a visited action and asks for it in contexts of its visits. -/
structure Node.IsMet (items : List Item) (node : Node) : Prop where
  met : ∃ context, .visit node.step context ∈ Item.encountersAll [] items
  asked : ∀ context, node.Asks context →
    ∃ action, action.key = node.key ∧ .visit action context ∈ Item.encountersAll [] items
  wanted : ∃ context, node.Asks context

namespace Node.IsMet

variable {items : List Item} {node : Node} (isMet : node.IsMet items)

include isMet

theorem of_sameDemand {other : Node} (same : SameDemand node other) : other.IsMet items where
  met := same.step ▸ isMet.met
  asked context asks := same.key ▸ isMet.asked context ((same.asks context).mp asks)
  wanted := isMet.wanted.imp fun context => (same.asks context).mpr

theorem mem_actionsMet : node.step ∈ Item.actionsMet items :=
  isMet.met.elim fun _ visited => Item.mem_actionsMet_of_visit visited

/-- If keys tell the actions of the walk apart, the node asks for nothing but its own action. -/
theorem visit_of_asks (keys : Step.KeysIdentify (· ∈ Item.actionsMet items))
    {context : Option (Condition Step)} (asks : node.Asks context) :
    .visit node.step context ∈ Item.encountersAll [] items := by
  rcases isMet.asked context asks with ⟨action, sameKey, visited⟩
  have same : action = node.step :=
    keys action node.step (Item.mem_actionsMet_of_visit visited) isMet.mem_actionsMet sameKey
  exact same ▸ visited

end Node.IsMet

namespace Graph

/-! ## The nodes -/

theorem exists_pulls_ofItems (items : List Item) :
    ∃ pulled, Node.Pulls [] (Node.ofEncounters (Item.encountersAll [] items)) pulled :=
  Node.exists_pulls [] _ (Node.recorded_ofEncounters _).distinct

theorem nodes_ofItems {items : List Item} {pulled : List Step}
    (pulls : Node.Pulls [] (Node.ofEncounters (Item.encountersAll [] items)) pulled) :
    (ofItems items).nodes =
      (Node.ofEncounters (Item.encountersAll [] items) ++ pulled.map Node.pulledIn).map
        Node.withReads :=
  (nodes_ofItems_eq items).trans pulls.result

theorem nodup_keys_ofItems (items : List Item) : ((ofItems items).nodes.map Node.key).Nodup :=
  (isIndexed_ofItems items).distinct

theorem mem_of_node?_eq_some {items : List Item} {key : Nat} {node : Node}
    (found : (ofItems items).node? key = some node) :
    node ∈ (ofItems items).nodes ∧ node.key = key :=
  (isIndexed_ofItems items).node?_eq_some_iff.mp found

theorem isMet_of_mem_ofEncounters {items : List Item} {node : Node}
    (mem : node ∈ Node.ofEncounters (Item.encountersAll [] items)) : node.IsMet items := by
  have recorded := Node.recorded_ofEncounters (Item.encountersAll [] items)
  rcases recorded.met node mem with ⟨context, visited⟩
  rcases recorded.kept node.step context visited with ⟨other, otherMem, sameKey, asked, asks, _⟩
  cases List.inj_on_of_nodup_map recorded.distinct otherMem mem sameKey
  exact ⟨⟨context, visited⟩, recorded.asked node mem, asked, asks⟩

/-- Each visited action has a node, which asks for it in the context of the visit. -/
theorem exists_node_of_visit {items : List Item} {action : Step}
    {context : Option (Condition Step)}
    (visited : .visit action context ∈ Item.encountersAll [] items) :
    ∃ node ∈ (ofItems items).nodes, node.key = action.key ∧ node.IsMet items ∧
      ∃ asked, node.Asks asked ∧ asked.map Condition.render = context.map Condition.render := by
  rcases exists_pulls_ofItems items with ⟨pulled, pulls⟩
  rcases (Node.recorded_ofEncounters _).kept action context visited with
    ⟨node, mem, sameKey, asked, asks, sameText⟩
  have same := Node.sameDemand_withReads node
  refine ⟨node.withReads, ?_, same.key.trans sameKey,
    (isMet_of_mem_ofEncounters mem).of_sameDemand same, asked, (same.asks asked).mpr asks, sameText⟩
  rw [nodes_ofItems pulls]
  exact List.mem_map_of_mem (List.mem_append_left _ mem)

/-- Each action of the walk has a node of its own. -/
theorem exists_node_of_mem_actionsMet {items : List Item}
    (keys : Step.KeysIdentify (· ∈ Item.actionsMet items)) {action : Step}
    (mem : action ∈ Item.actionsMet items) :
    ∃ node ∈ (ofItems items).nodes, node.step = action ∧ node.IsMet items := by
  rcases Item.exists_visit_of_mem_actionsMet mem [] with ⟨context, visited⟩
  rcases exists_node_of_visit visited with ⟨node, nodeMem, sameKey, isMet, _⟩
  exact ⟨node, nodeMem, keys node.step action isMet.mem_actionsMet mem sameKey, isMet⟩

/-- Each action that an item declares has a node. -/
theorem exists_node_of_declares {items : List Item} {item : Item} (itemMem : item ∈ items)
    {key : Nat} (declares : item.Declares key) :
    ∃ node ∈ (ofItems items).nodes, node.key = key := by
  have visited : .visit item.step (Condition.allOf (item.innerScope [])) ∈
      Item.encountersAll [] items :=
    Item.mem_encountersAll.mpr ⟨item, itemMem,
      Item.visit_mem_encounters.mpr (Or.inl ⟨declares.1, rfl, rfl⟩)⟩
  rcases exists_node_of_visit visited with ⟨node, nodeMem, sameKey, _⟩
  exact ⟨node, nodeMem, sameKey.trans declares.2⟩

/-! ## The order -/

/-- The key is in the order, and wherever it stands, the condition there has the property. -/
def RunsUnder (graph : Graph) (order : List Nat) (key : Nat)
    (property : Option (Condition Step) → Prop) : Prop :=
  key ∈ order ∧ ∀ position : Nat, order[position]? = some key →
    ∃ condition, (graph.runConditions [] order)[position]? = some condition ∧ property condition

theorem runsUnder_of_node {graph : Graph} {order : List Nat} (resolved : graph.order = .ok order)
    (indexed : graph.IsIndexed) {node : Node} (mem : node ∈ graph.nodes)
    {property : Option (Condition Step) → Prop}
    (stands : ∀ placed, property (graph.runCondition placed node)) :
    graph.RunsUnder order node.key property := by
  constructor
  · exact (mem_order_iff resolved node.key).mpr (List.mem_map_of_mem mem)
  · intro position found
    refine ⟨graph.runCondition (order.take position) node, ?_, stands _⟩
    rw [getElem?_runConditions, found, Option.map_some, node?_eq_some indexed mem,
      Option.bind_some, List.nil_append]

/-! ## What met actions run under -/

section Met

variable {holds among : Condition Step → Prop} (respects : Respects holds) (closed : Closed among)
  (decides : TextDecides holds among) {items : List Item}
  (members : ∀ item ∈ Item.walkAll items, item.ConditionsAmong among)

include members

theorem walkAmong_of_mem {item : Item} (mem : item ∈ items) : item.WalkAmong among :=
  fun found inside => (members found (Item.mem_walkAll.mpr ⟨item, mem, inside⟩)).1

theorem ownAmong_of_mem {action : Step} (mem : action ∈ Item.actionsMet items) :
    ∀ condition ∈ action.ownCondition?, among condition := by
  rcases Item.mem_actionsMet.mp mem with ⟨_, item, itemMem, rfl⟩
  exact (members item itemMem).2

include closed

theorem among_of_asks {node : Node} (isMet : node.IsMet items) {context : Condition Step}
    (asks : node.Asks (some context)) : among context := by
  rcases isMet.asked (some context) asks with ⟨action, _, visited⟩
  rcases Item.mem_encountersAll.mp visited with ⟨item, itemMem, inside⟩
  exact Item.among_of_visit closed (walkAmong_of_mem members itemMem) (List.forall_mem_nil _)
    inside

theorem among_demand_of_isMet {node : Node} (isMet : node.IsMet items) (placed : List Nat) :
    ∀ condition ∈ demand placed node, among condition := by
  apply among_demand closed
  intro context asks operand mem _
  exact closed.splits.of_mem_operands .and (among_of_asks closed members isMet asks) mem

include respects decides

/-- What a met action runs under without a declaration: its demand and its own condition. -/
theorem permits_runCondition_of_undeclared {graph : Graph} {node : Node}
    (isMet : node.IsMet items) (undeclared : graph.declared? node.key = none)
    (placed : List Nat) :
    Permits holds (graph.runCondition placed node) ↔
      Permits holds (demand placed node) ∧ Permits holds node.step.ownCondition? := by
  rw [runCondition_of_undeclared undeclared]
  exact Condition.permits_narrowedBy respects closed decides
    (among_demand_of_isMet closed members isMet placed)
    (ownAmong_of_mem members isMet.mem_actionsMet)

/-- What a declared action runs under permits whatever its declarations do. -/
theorem permits_runCondition_of_declared {node : Node}
    (declared : ∃ item ∈ items, item.Declares node.key) (placed : List Nat) :
    ((∃ item ∈ items, item.Declares node.key ∧ item.IsPermitted holds) →
      Permits holds ((ofItems items).runCondition placed node)) ∧
    (Condition.ComplementsCover holds among →
      Permits holds ((ofItems items).runCondition placed node) →
      ∃ item ∈ items, item.Declares node.key ∧ item.IsPermitted holds) := by
  have topMembers : ∀ item ∈ items, item.ConditionsAmong among :=
    fun item mem => members item (Item.mem_walkAll.mpr ⟨item, mem, item.self_mem_walk⟩)
  have tracks := tracks_declared respects closed decides topMembers
  cases found : (ofItems items).declared? node.key with
  | none => exact absurd declared (declared?_ofItems_eq_none.mp found)
  | some leaf =>
      rcases mem_of_declared? found with ⟨leafMem, sameKey⟩
      rw [← sameKey] at found ⊢
      have runs : (ofItems items).runCondition placed node = leaf.condition := by
        rw [runCondition, ← sameKey, found]
      rw [runs]
      exact ⟨tracks.permits leaf leafMem, fun covers => tracks.exact covers leaf leafMem⟩

/-- The node of a demanded action permits it. -/
theorem permits_demand_of_demands {node : Node} (nodeMem : node ∈ (ofItems items).nodes)
    (demanded : ∃ item ∈ items, item.Demands holds node.step) (placed : List Nat) :
    Permits holds (demand placed node) := by
  rcases demanded with ⟨item, itemMem, demands⟩
  have walkMembers := walkAmong_of_mem members itemMem
  rcases Item.exists_visit_of_demands respects closed.splits decides demands walkMembers
    (List.forall_mem_nil holds) with ⟨context, inside, met⟩
  have visited := Item.mem_encountersAll.mpr ⟨item, itemMem, inside⟩
  rcases exists_node_of_visit visited with
    ⟨other, otherMem, sameKey, isMet, asked, asks, sameText⟩
  cases List.inj_on_of_nodup_map (nodup_keys_ofItems items) otherMem nodeMem sameKey
  have askedAmong : ∀ found, node.Asks (some found) → among found :=
    fun found => among_of_asks closed members isMet
  apply permits_demand respects closed decides askedAmong asks
  cases asked with
  | none => exact Condition.permits_none holds
  | some first =>
      cases context with
      | none => cases sameText
      | some second =>
          have secondAmong := Item.among_of_visit closed walkMembers (List.forall_mem_nil _) inside
          have secondHolds := (Condition.permits_some holds second).mp met
          rw [Condition.permits_some]
          exact (decides first second (askedAmong first asks) secondAmong
            (Option.some.inj sameText)).mpr secondHolds

end Met

end Graph

end FlowPlan
