import FlowPlan.Proofs.Acyclic
import FlowPlan.Proofs.Priorities
import Mathlib.Data.Prod.Lex

/-! # The order is greedy

One node after another is placed. What comes next is, of all nodes whose
predecessors have been placed, one that is needed by the first top-level item,
and among several of these the one that was discovered first. Top-level actions
that wait for nothing are therefore placed in the order of their declaration.
-/

namespace FlowPlan

namespace Node

/-- Everything that the node has to run after has been placed, but not the node itself. -/
def IsAvailable (placed : List Nat) (node : Node) : Prop :=
  node.key ∉ placed ∧ ∀ target, target ∈ node.dependencies ∨ target ∈ node.orderings →
    target ∈ placed

end Node

namespace Graph

variable {items : List Item} {order : List Nat}

theorem isFree_iff_isAvailable {node : Node} (mem : node ∈ (ofItems items).nodes)
    (placed : List Nat) : (ofItems items).IsFree placed node ↔ node.IsAvailable placed := by
  constructor
  · intro isFree
    refine ⟨isFree.left, fun target edge => ?_⟩
    have isPredecessor := Node.mem_predecessors.mpr edge
    exact isFree.behind target isPredecessor (mem_keys_of_mem_predecessors mem isPredecessor)
  · intro available
    exact ⟨available.1, fun target isPredecessor _ =>
      available.2 target (Node.mem_predecessors.mp isPredecessor)⟩

/-- What decides between nodes that are available: by which item they are needed first, and then
which of them was discovered first. -/
noncomputable def turn (items : List Item) (key index : Nat) : ℕ∞ ×ₗ ℕ :=
  toLex (needRank items key, index)

/-- The node of the key is available, and it is its turn. -/
def IsNext (items : List Item) (placed : List Nat) (key : Nat) : Prop :=
  ∃ (index : Nat) (node : Node), (ofItems items).nodes[index]? = some node ∧ node.key = key ∧
    node.IsAvailable placed ∧
    ∀ (other : Nat) (another : Node), (ofItems items).nodes[other]? = some another →
      another.IsAvailable placed → turn items key index ≤ turn items another.key other

theorem isNext_of_order (resolved : (ofItems items).order = .ok order) {position key : Nat}
    (placed : order[position]? = some key) : IsNext items (order.take position) key := by
  obtain ⟨index, node, atIndex, sameKey, isFree, lowest⟩ :=
    least_of_order resolved (isIndexed_ofItems items) placed
  subst sameKey
  refine ⟨index, node, atIndex, rfl,
    (isFree_iff_isAvailable (List.mem_of_getElem? atIndex) _).mp isFree, ?_⟩
  intro other another atOther isAvailable
  have atMost := QueueEntry.atMost_iff.mp (lowest other another atOther
    ((isFree_iff_isAvailable (List.mem_of_getElem? atOther) _).mpr isAvailable))
  have rank := needRank_le_iff atIndex atOther
  have back := needRank_le_iff atOther atIndex
  rw [turn, turn, Prod.Lex.toLex_le_toLex']
  refine ⟨rank.mpr (by omega), fun same => ?_⟩
  have := back.mp same.ge
  omega

/-! ## Actions that wait for nothing -/

/-- Nothing has to run before the nodes of the key. -/
def WaitsForNothing (items : List Item) (key : Nat) : Prop :=
  ∀ node ∈ (ofItems items).nodes, node.key = key → node.dependencies = [] ∧ node.orderings = []

theorem needRank_le {first : Nat} {item : Item} (found : items[first]? = some item)
    (single : item.step.isGroup = false) : needRank items item.step.key ≤ first := by
  have isLeaf : item.step ∈ item.step.leaves := by
    rw [Step.leaves_eq_singleton single]
    exact List.mem_singleton_self item.step
  exact iInf₂_le first ⟨item, found, item.step, isLeaf, .refl⟩

/-- A top-level action that waits for nothing comes before all nodes that no item up to it needs. -/
theorem isBefore_of_waitsForNothing (resolved : (ofItems items).order = .ok order) {first : Nat}
    {item : Item} (found : items[first]? = some item) (single : item.step.isGroup = false)
    (free : WaitsForNothing items item.step.key) {key : Nat}
    (present : key ∈ (ofItems items).nodes.map Node.key) (later : first < needRank items key) :
    IsBefore order item.step.key key := by
  have inOrder := (mem_order_iff resolved key).mpr present
  rcases List.mem_iff_getElem?.mp inOrder with ⟨position, placed⟩
  by_cases before : item.step.key ∈ order.take position
  · exact .of_mem_take placed before
  · rcases exists_node_of_declares (List.mem_of_getElem? found) ⟨single, rfl⟩ with
      ⟨node, nodeMem, sameKey⟩
    rcases List.mem_iff_getElem?.mp nodeMem with ⟨index, atIndex⟩
    rcases isNext_of_order resolved placed with ⟨_, _, _, _, _, lowest⟩
    have available : node.IsAvailable (order.take position) := by
      rw [Node.IsAvailable, sameKey, (free node nodeMem sameKey).1, (free node nodeMem sameKey).2]
      simpa using before
    have turns := (Prod.Lex.toLex_le_toLex'.mp (lowest index node atIndex available)).1
    have atMost : needRank items key ≤ first := by
      simpa [sameKey] using turns.trans (sameKey ▸ needRank_le found single)
    exact absurd later (not_lt.mpr atMost)

/-- All items are actions, which wait for nothing, and nothing else is pulled in. -/
structure IsPlainList (items : List Item) : Prop where
  single : ∀ item ∈ items, item.step.isGroup = false
  free : ∀ node ∈ (ofItems items).nodes, node.dependencies = [] ∧ node.orderings = []
  declared : ∀ node ∈ (ofItems items).nodes, ∃ item ∈ items, item.step.key = node.key

namespace IsPlainList

variable (plain : IsPlainList items)

include plain

/-- No item needs an action that it does not declare. -/
theorem idxOf_le_needRank (key : Nat) :
    (items.map (·.step.key)).idxOf key ≤ needRank items key := by
  apply le_iInf₂
  rintro index ⟨item, found, leaf, leafMem, path⟩
  have declares : item.step.key = key := by
    rw [Step.leaves_eq_singleton (plain.single item (List.mem_of_getElem? found)),
      List.mem_singleton] at leafMem
    cases leafMem
    rcases path.cases_head with same | ⟨target, ⟨node, nodeMem, _, isTarget⟩, _⟩
    · exact same
    · rw [(plain.free node nodeMem).1] at isTarget
      cases isTarget
  have atIndex : (items.map (·.step.key))[index]? = some key := by
    rw [List.getElem?_map, found, Option.map_some, declares]
  rcases List.getElem?_eq_some_iff.mp atIndex with ⟨bound, isKey⟩
  rw [Nat.cast_le]
  by_contra beyond
  have excluded := List.not_of_lt_findIdx (Nat.lt_of_not_le beyond)
  simp [isKey] at excluded

theorem mem_keys_iff (key : Nat) :
    key ∈ (ofItems items).nodes.map Node.key ↔ key ∈ items.map (·.step.key) := by
  rw [List.mem_map, List.mem_map]
  constructor
  · rintro ⟨node, mem, rfl⟩
    exact plain.declared node mem
  · rintro ⟨item, mem, rfl⟩
    exact exists_node_of_declares mem ⟨plain.single item mem, rfl⟩

/-- The order is that of the first declarations. -/
theorem order_eq (resolved : (ofItems items).order = .ok order) :
    order = distinct (items.map (·.step.key)) := by
  have placedOnce := nodup_order resolved (isIndexed_ofItems items)
  have isPerm : order.Perm (distinct (items.map (·.step.key))) := by
    rw [List.perm_ext_iff_of_nodup placedOnce (nodup_distinct _)]
    intro key
    rw [mem_order_iff resolved, plain.mem_keys_iff, mem_distinct]
  have ordered : order.Pairwise (IsBefore order) := by
    rw [List.pairwise_iff_getElem]
    intro earlier later earlierBound laterBound less
    exact ⟨earlier, later, less, List.getElem?_eq_getElem earlierBound,
      List.getElem?_eq_getElem laterBound⟩
  have declaredOrdered : (distinct (items.map (·.step.key))).Pairwise (IsBefore order) := by
    apply (pairwise_idxOf_distinct _).imp_of_mem
    intro key other keyMem otherMem less
    have atIndex := List.getElem?_idxOf (mem_distinct.mp keyMem)
    rw [List.getElem?_map] at atIndex
    rcases Option.map_eq_some_iff.mp atIndex with ⟨item, found, rfl⟩
    have single := plain.single item (List.mem_of_getElem? found)
    apply isBefore_of_waitsForNothing resolved found single
    · exact fun node mem _ => plain.free node mem
    · exact (plain.mem_keys_iff other).mpr (mem_distinct.mp otherMem)
    · exact (Nat.cast_lt.mpr less).trans_le (plain.idxOf_le_needRank other)
  apply isPerm.eq_of_pairwise _ ordered declaredOrdered
  intro key other _ _ before behind
  exact absurd (before.trans placedOnce behind) (IsBefore.irrefl placedOnce key)

end IsPlainList

/-- Whatever comes next in the order is the node whose turn it is among those that are available.
So a top-level action that waits for nothing comes before all that no item up to it needs, and a
list of such actions is placed as it was declared. -/
theorem order_is_greedy (resolved : (ofItems items).order = .ok order) :
    (∀ position key, order[position]? = some key → IsNext items (order.take position) key) ∧
    (∀ (first : Nat) (item : Item), items[first]? = some item → item.step.isGroup = false →
      WaitsForNothing items item.step.key → ∀ key ∈ (ofItems items).nodes.map Node.key,
        first < needRank items key → IsBefore order item.step.key key) ∧
    (IsPlainList items → order = distinct (items.map (·.step.key))) :=
  ⟨fun _ _ => isNext_of_order resolved,
    fun _ _ found single free _ => isBefore_of_waitsForNothing resolved found single free,
    fun plain => plain.order_eq resolved⟩

end Graph

namespace Sample

def install : Step := .action 3 none [] { run := some "install" } []

def test : Step := .action 4 none [] { run := some "test" } []

def deliver : Step := .action 5 none [] { run := some "deliver" } []

def greet : Step := .action 6 none [] { run := some "greet" } []

/-- The second action pulls in another one, which waits for nothing, as the last one does. -/
def testedItems : List Item :=
  [.ofStep deliver, .place test none [.ofStep install] [], .ofStep greet]

def plainItems : List Item := [.ofStep test, .ofStep install, .ofStep test]

theorem order_is_greedy_sample :
    Graph.IsNext testedItems [5] 3 ∧ distinct (plainItems.map (·.step.key)) = [4, 3] := by
  have tested : (Graph.ofItems testedItems).order = .ok [5, 3, 4, 6] := by decide +kernel
  have plain : (Graph.ofItems plainItems).order = .ok [4, 3] := by decide +kernel
  have isPlainList : Graph.IsPlainList plainItems :=
    ⟨by decide, by decide +kernel, by decide +kernel⟩
  exact ⟨(Graph.order_is_greedy tested).1 1 3 rfl,
    ((Graph.order_is_greedy plain).2.2 isPlainList).symm⟩

end Sample

end FlowPlan
