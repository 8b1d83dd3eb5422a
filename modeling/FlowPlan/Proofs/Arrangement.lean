import FlowPlan.Graph.RunCondition
import FlowPlan.Proofs.Index
import FlowPlan.Proofs.Placing
import Mathlib.Data.List.Perm.Subperm

/-! # The order of a graph

The nodes are placed by where they stand, and the order names them by their
keys. Since the index leads from a key to the one node that has it, what holds
of the places holds of the keys: an order has all nodes, each once, and a node
stands behind all that it has to run after.
-/

namespace FlowPlan

namespace Node

theorem mem_foldl_addOnce {targets members : List Nat} {member : Nat} :
    member ∈ targets.foldl addOnce members ↔ member ∈ members ∨ member ∈ targets := by
  induction targets generalizing members with
  | nil => simp
  | cons head tail induction =>
      rw [List.foldl_cons, induction, List.mem_cons, ← or_assoc]
      exact or_congr_left mem_addOnce

theorem mem_predecessors {node : Node} {key : Nat} :
    key ∈ node.predecessors ↔ key ∈ node.dependencies ∨ key ∈ node.orderings :=
  mem_foldl_addOnce

end Node

theorem getElem?_filterMap_of_isSome {α β : Type} {f : α → Option β} {members : List α}
    (all : ∀ member ∈ members, (f member).isSome) (position : Nat) :
    (members.filterMap f)[position]? = members[position]?.bind f := by
  induction members generalizing position with
  | nil => rfl
  | cons head tail induction =>
      rcases Option.isSome_iff_exists.mp (all head List.mem_cons_self) with ⟨image, isImage⟩
      rw [List.filterMap_cons_some isImage]
      cases position with
      | zero => simp [isImage]
      | succ position =>
          exact induction (fun member mem => all member (List.mem_cons_of_mem head mem)) position

namespace Graph

variable {graph : Graph} {order : List Nat}

/-! ## Places and keys -/

theorem isSound_placing (graph : Graph) :
    Placing.IsSound graph.priorities graph.predecessorPositions graph.placing :=
  Placing.isSound_ofPredecessors _ _

@[simp] theorem length_predecessorPositions (graph : Graph) :
    graph.predecessorPositions.length = graph.nodes.length :=
  List.length_map _

/-- The node at a place waits for the nodes with the keys of its predecessors. -/
theorem mem_predecessorPositions (indexed : graph.IsIndexed) {place other : Nat} {node : Node}
    (found : graph.nodes[place]? = some node) :
    other ∈ graph.predecessorPositions.getD place [] ↔
      ∃ another, graph.nodes[other]? = some another ∧ another.key ∈ node.predecessors := by
  rw [predecessorPositions, List.getD_eq_getElem?_getD, List.getElem?_map, found]
  exact indexed.mem_positions_iff

/-- Only nodes of the graph are placed. -/
theorem lt_length_of_mem_placing {place : Nat} (mem : place ∈ graph.placing.order) :
    place < graph.nodes.length := by
  rcases List.mem_iff_getElem?.mp mem with ⟨count, found⟩
  have inside := (graph.isSound_placing.greedy count place found).isFree.inside
  rwa [length_predecessorPositions] at inside

theorem order_eq_ok (resolved : graph.order = .ok order) :
    graph.nodes.length ≤ graph.placing.order.length ∧
      order = graph.placing.order.filterMap fun place => graph.nodes[place]?.map Node.key := by
  rw [Graph.order] at resolved
  dsimp only at resolved
  split at resolved
  · cases resolved
  · cases resolved
    exact ⟨by omega, rfl⟩

/-- All places are in order if there are as many. -/
theorem mem_placing_iff (complete : graph.nodes.length ≤ graph.placing.order.length)
    {place : Nat} : place ∈ graph.placing.order ↔ place < graph.nodes.length := by
  have inside : graph.placing.order ⊆ List.range graph.nodes.length :=
    fun _ mem => List.mem_range.mpr (lt_length_of_mem_placing mem)
  have all := (graph.isSound_placing.distinct.subperm inside).perm_of_length_le (by simpa)
  rw [all.mem_iff, List.mem_range]

/-- The order has at each position the key of the node that was placed there. -/
theorem getElem?_order (resolved : graph.order = .ok order) (position : Nat) :
    order[position]? = graph.placing.order[position]?.bind fun place =>
      graph.nodes[place]?.map Node.key := by
  rw [(order_eq_ok resolved).2]
  apply getElem?_filterMap_of_isSome
  intro place mem
  simp [lt_length_of_mem_placing mem]

theorem getElem?_order_eq_some_iff (resolved : graph.order = .ok order) {position key : Nat} :
    order[position]? = some key ↔ ∃ place node, graph.placing.order[position]? = some place ∧
      graph.nodes[place]? = some node ∧ node.key = key := by
  rw [getElem?_order resolved]
  simp [Option.bind_eq_some_iff]

/-- The keys of the order are those of the nodes. -/
theorem mem_order_iff (resolved : graph.order = .ok order) (key : Nat) :
    key ∈ order ↔ key ∈ graph.nodes.map Node.key := by
  have complete := (order_eq_ok resolved).1
  rw [List.mem_iff_getElem?, List.mem_map]
  simp only [getElem?_order_eq_some_iff resolved]
  constructor
  · intro ⟨_, place, node, _, found, sameKey⟩
    exact ⟨node, List.mem_of_getElem? found, sameKey⟩
  · intro ⟨node, mem, sameKey⟩
    rcases List.mem_iff_getElem?.mp mem with ⟨place, found⟩
    have inside := (List.getElem?_eq_some_iff.mp found).1
    rcases List.mem_iff_getElem?.mp ((mem_placing_iff complete).mpr inside) with ⟨position, placed⟩
    exact ⟨position, place, node, placed, found, sameKey⟩

/-- A key has been placed before a position if the node with that key has. -/
theorem mem_take_order_iff (resolved : graph.order = .ok order) (indexed : graph.IsIndexed)
    {position place : Nat} {node : Node} (found : graph.nodes[place]? = some node) :
    node.key ∈ order.take position ↔ place ∈ graph.placing.order.take position := by
  rw [List.mem_iff_getElem?, List.mem_iff_getElem?]
  simp only [List.getElem?_take, Option.ite_none_right_eq_some,
    getElem?_order_eq_some_iff resolved]
  constructor
  · intro ⟨earlier, before, other, another, placed, otherFound, sameKey⟩
    cases indexed.position_inj otherFound found sameKey
    exact ⟨earlier, before, placed⟩
  · intro ⟨earlier, before, placed⟩
    exact ⟨earlier, before, place, node, placed, found, rfl⟩

/-- Every key is placed once. -/
theorem nodup_order (resolved : graph.order = .ok order) (indexed : graph.IsIndexed) :
    order.Nodup := by
  rw [List.nodup_iff_getElem?_ne_getElem?]
  intro earlier later less inside same
  have atLater := List.getElem?_eq_getElem inside
  rcases (getElem?_order_eq_some_iff resolved).mp (same.trans atLater) with
    ⟨place, node, placed, found, sameKey⟩
  rcases (getElem?_order_eq_some_iff resolved).mp atLater with
    ⟨other, another, otherPlaced, otherFound, otherKey⟩
  cases indexed.position_inj found otherFound (sameKey.trans otherKey.symm)
  have bound := (List.getElem?_eq_some_iff.mp placed).1
  have := (List.getElem?_inj bound graph.isSound_placing.distinct).mp
    (placed.trans otherPlaced.symm)
  omega

theorem node?_eq_some (indexed : graph.IsIndexed) {node : Node} (mem : node ∈ graph.nodes) :
    graph.node? node.key = some node :=
  indexed.node?_eq_some_iff.mpr ⟨mem, rfl⟩

/-! ## What comes next -/

/-- Everything that the node has to run after and that has a node has been placed, but not the node
itself. -/
structure IsFree (graph : Graph) (placed : List Nat) (node : Node) : Prop where
  left : node.key ∉ placed
  behind : ∀ key ∈ node.predecessors, key ∈ graph.nodes.map Node.key → key ∈ placed

theorem isFree_iff (resolved : graph.order = .ok order) (indexed : graph.IsIndexed)
    {position place : Nat} {node : Node} (found : graph.nodes[place]? = some node) :
    Placing.IsFree graph.predecessorPositions (graph.placing.order.take position) place ↔
      graph.IsFree (order.take position) node := by
  constructor
  · intro isFree
    refine ⟨mt (mem_take_order_iff resolved indexed found).mp isFree.left, ?_⟩
    intro key isPredecessor present
    rcases List.mem_map.mp present with ⟨another, mem, rfl⟩
    rcases List.mem_iff_getElem?.mp mem with ⟨other, otherFound⟩
    apply (mem_take_order_iff resolved indexed otherFound).mpr
    exact isFree.behind other
      ((mem_predecessorPositions indexed found).mpr ⟨another, otherFound, isPredecessor⟩)
  · intro isFree
    have inside := (List.getElem?_eq_some_iff.mp found).1
    refine ⟨by simpa, mt (mem_take_order_iff resolved indexed found).mpr isFree.left, ?_⟩
    intro other mem
    rcases (mem_predecessorPositions indexed found).mp mem with ⟨another, otherFound, isPredecessor⟩
    apply (mem_take_order_iff resolved indexed otherFound).mp
    exact isFree.behind another.key isPredecessor
      (List.mem_map_of_mem (List.mem_of_getElem? otherFound))

/-- What comes next is a node that waits for nothing else, and of those the one with the least
priority, and of several with the same one the first. -/
theorem least_of_order (resolved : graph.order = .ok order) (indexed : graph.IsIndexed)
    {position key : Nat} (placed : order[position]? = some key) :
    ∃ place node, graph.nodes[place]? = some node ∧ node.key = key ∧
      graph.IsFree (order.take position) node ∧
      ∀ (other : Nat) (another : Node), graph.nodes[other]? = some another →
        graph.IsFree (order.take position) another →
          QueueEntry.atMost (graph.priorities.getD place 0, place)
            (graph.priorities.getD other 0, other) = true := by
  rcases (getElem?_order_eq_some_iff resolved).mp placed with
    ⟨place, node, atPosition, found, sameKey⟩
  have isNext := graph.isSound_placing.greedy position place atPosition
  refine ⟨place, node, found, sameKey, (isFree_iff resolved indexed found).mp isNext.isFree, ?_⟩
  intro other another otherFound otherFree
  exact isNext.least other ((isFree_iff resolved indexed otherFound).mpr otherFree)

/-- A node stands behind all its predecessors. -/
theorem mem_take_of_mem_predecessors (resolved : graph.order = .ok order)
    (indexed : graph.IsIndexed) {position : Nat} {node : Node}
    (nodeMem : node ∈ graph.nodes) (placed : order[position]? = some node.key) {key : Nat}
    (mem : key ∈ node.predecessors) (present : key ∈ graph.nodes.map Node.key) :
    key ∈ order.take position := by
  rcases least_of_order resolved indexed placed with ⟨_, other, found, sameKey, isFree, _⟩
  cases List.inj_on_of_nodup_map indexed.distinct (List.mem_of_getElem? found) nodeMem sameKey
  exact isFree.behind key mem present

/-! ## Conditions along the order -/

theorem getElem?_runConditions (placed order : List Nat) (position : Nat) :
    (graph.runConditions placed order)[position]? = order[position]?.map fun key =>
      (graph.node? key).bind (graph.runCondition (placed ++ order.take position)) := by
  induction order generalizing placed position with
  | nil => simp [runConditions]
  | cons head tail induction =>
      rw [runConditions]
      cases position with
      | zero => simp
      | succ position =>
          rw [List.getElem?_cons_succ, induction, List.getElem?_cons_succ, List.take_succ_cons,
            List.append_assoc]
          rfl

end Graph

end FlowPlan
