import FlowPlan.Proofs.Closure
import Mathlib.Data.List.Nodup

/-! # The index of the nodes

Every new node is entered into the index with its key and the place that it
gets. So the index leads from the key of each node to its place, and nowhere
from other keys: looking for a key in the index is looking for it among the
nodes. This holds of the nodes that a walk leaves, and while steps that
conditions read are pulled in.
-/

namespace FlowPlan

namespace Arena

/-- The keys of the nodes differ, and the index has each of them with its place, the latest one in
front. -/
structure IsIndexed (arena : Arena) : Prop where
  index : arena.index = (arena.nodes.map Node.key).zipIdx.reverse
  distinct : (arena.nodes.map Node.key).Nodup

theorem isIndexed_nil : IsIndexed { nodes := [], index := [] } := ⟨rfl, List.nodup_nil⟩

namespace IsIndexed

variable {arena : Arena} (indexed : arena.IsIndexed)

include indexed

/-! ## Lookups -/

theorem mem_index {key position : Nat} :
    (key, position) ∈ arena.index ↔ (arena.nodes.map Node.key)[position]? = some key := by
  rw [indexed.index, List.mem_reverse, List.mem_zipIdx_iff_getElem?]

/-- The index leads to the place of the key. -/
theorem position?_eq_some_iff {key position : Nat} :
    arena.position? key = some position ↔
      ∃ node, arena.nodes[position]? = some node ∧ node.key = key := by
  rw [position?, ← Option.map_eq_some_iff, ← List.getElem?_map, ← indexed.mem_index]
  constructor
  · intro found
    rcases List.lookup_eq_some_iff.mp found with ⟨front, back, whole, _⟩
    simp [whole]
  · intro mem
    rcases List.eq_append_cons_of_mem mem with ⟨front, back, whole, first⟩
    apply List.lookup_eq_some_iff.mpr
    refine ⟨front, back, whole, fun entry entryMem => ?_⟩
    -- Another entry with the key would lead to the same place, so it would be the same entry.
    rw [bne_iff_ne]
    intro same
    rcases entry with ⟨_, place⟩
    cases same
    have atPlace := indexed.mem_index.mp (whole ▸ List.mem_append_left _ entryMem)
    have atPosition := indexed.mem_index.mp mem
    have inside := (List.getElem?_eq_some_iff.mp atPlace).1
    cases (List.getElem?_inj inside indexed.distinct).mp (atPlace.trans atPosition.symm)
    exact first entryMem

theorem position?_of_getElem? {position : Nat} {node : Node}
    (found : arena.nodes[position]? = some node) : arena.position? node.key = some position :=
  indexed.position?_eq_some_iff.mpr ⟨node, found, rfl⟩

/-- Nodes with the same key stand at the same place. -/
theorem position_inj {position other : Nat} {node another : Node}
    (found : arena.nodes[position]? = some node) (otherFound : arena.nodes[other]? = some another)
    (sameKey : node.key = another.key) : position = other := by
  have atPosition := indexed.position?_of_getElem? found
  rw [sameKey, indexed.position?_of_getElem? otherFound] at atPosition
  exact (Option.some.inj atPosition).symm

theorem contains_eq (key : Nat) : arena.contains key = Node.hasKey arena.nodes key := by
  rw [contains, Bool.eq_iff_iff, Node.hasKey_iff, Option.isSome_iff_exists, List.mem_map]
  simp only [indexed.position?_eq_some_iff, List.mem_iff_getElem?]
  grind

theorem position?_eq_none_iff {key : Nat} :
    arena.position? key = none ↔ Node.hasKey arena.nodes key = false := by
  rw [← indexed.contains_eq, contains, Option.isSome_eq_false_iff, Option.isNone_iff_eq_none]

theorem node?_eq_some_iff {key : Nat} {node : Node} :
    arena.node? key = some node ↔ node ∈ arena.nodes ∧ node.key = key := by
  rw [node?, Option.bind_eq_some_iff, List.mem_iff_getElem?]
  constructor
  · intro ⟨position, found, atPosition⟩
    rcases indexed.position?_eq_some_iff.mp found with ⟨other, atOther, sameKey⟩
    cases atPosition.symm.trans atOther
    exact ⟨⟨position, atPosition⟩, sameKey⟩
  · intro ⟨⟨position, atPosition⟩, sameKey⟩
    exact ⟨position, sameKey ▸ indexed.position?_of_getElem? atPosition, atPosition⟩

theorem mem_positions_iff {keys : List Nat} {position : Nat} :
    position ∈ arena.positions keys ↔
      ∃ node, arena.nodes[position]? = some node ∧ node.key ∈ keys := by
  simp only [positions, List.mem_filterMap, indexed.position?_eq_some_iff]
  grind

/-! ## Steps -/

theorem add {action : Step} (absent : Node.hasKey arena.nodes action.key = false) :
    (arena.add action).IsIndexed where
  index := by
    simp only [Arena.add, indexed.index, List.map_append, List.zipIdx_append, List.reverse_append]
    simp [Node.key]
  distinct := by
    have fresh : action.key ∉ arena.nodes.map Node.key := by
      rw [← Node.hasKey_iff, absent]
      exact Bool.false_ne_true
    rw [Arena.add, List.map_append, List.map_singleton, ← List.concat_eq_append]
    exact (List.nodup_concat _ _).mpr ⟨fresh, indexed.distinct⟩

theorem change (position : Nat) {changed : Node → Node}
    (sameKey : ∀ node, (changed node).key = node.key) :
    (arena.change position changed).IsIndexed := by
  have keys : (arena.change position changed).nodes.map Node.key = arena.nodes.map Node.key := by
    apply List.ext_getElem (by simp [Arena.change])
    intro place _ _
    simp only [Arena.change, List.getElem_map, List.getElem_modify]
    split <;> simp [sameKey]
  constructor
  · rw [keys]
    exact indexed.index
  · rw [keys]
    exact indexed.distinct

/-- To change the node at the place of a key is to change the node with that key. -/
theorem nodes_change {key position : Nat} (found : arena.position? key = some position)
    (changed : Node → Node) :
    (arena.change position changed).nodes = Node.update key changed arena.nodes := by
  apply List.ext_getElem (by simp [Arena.change, Node.update])
  intro place bound _
  simp only [Arena.change, List.length_modify] at bound
  simp only [Arena.change, Node.update, List.getElem_modify, List.getElem_map]
  have isPlace : position = place ↔ arena.nodes[place].key = key := by
    rw [← Option.some_inj, ← found, indexed.position?_eq_some_iff, List.getElem?_eq_getElem bound]
    simp
  simp only [isPlace]

/-! ## Recording -/

theorem update_eq_self {key : Nat} (absent : arena.position? key = none)
    (changed : Node → Node) : Node.update key changed arena.nodes = arena.nodes := by
  rw [indexed.position?_eq_none_iff, ← Bool.not_eq_true, Node.hasKey_iff] at absent
  have unchanged : ∀ node ∈ arena.nodes,
      (if node.key = key then changed node else node) = id node := by
    intro node mem
    apply if_neg
    intro same
    exact absent (same ▸ List.mem_map_of_mem mem)
  rw [Node.update, List.map_congr_left unchanged, List.map_id]

/-- A step of recording keeps the index and does what it does without one. -/
theorem record (encounter : Encounter) :
    (arena.record encounter).IsIndexed ∧
      (arena.record encounter).nodes = Node.record arena.nodes encounter := by
  cases encounter with
  | visit action context =>
      rw [Arena.record, ensure, Node.record]
      cases found : arena.position? action.key with
      | some position =>
          have present : Node.hasKey arena.nodes action.key = true := by
            rw [← indexed.contains_eq, contains, found]
            rfl
          rw [if_pos present]
          exact ⟨indexed.change position (Node.key_addContext · context),
            indexed.nodes_change found _⟩
      | none =>
          have absent := indexed.position?_eq_none_iff.mp found
          refine ⟨(indexed.add absent).change _ (Node.key_addContext · context), ?_⟩
          simp [absent, Arena.change, Arena.add, List.modify_eq_take_cons_drop]
  | dependency dependent target =>
      rw [Arena.record, Node.record]
      cases found : arena.position? dependent with
      | some position =>
          exact ⟨indexed.change position fun _ => rfl, indexed.nodes_change found _⟩
      | none => exact ⟨indexed, (indexed.update_eq_self found _).symm⟩
  | ordering dependent target =>
      rw [Arena.record, Node.record, ← indexed.contains_eq]
      cases found : arena.position? dependent with
      | some position =>
          dsimp only
          split
          · exact ⟨indexed.change position fun _ => rfl, indexed.nodes_change found _⟩
          · exact ⟨indexed, rfl⟩
      | none =>
          rw [indexed.update_eq_self found, ite_self]
          exact ⟨indexed, rfl⟩

theorem foldl_record (encounters : List Encounter) :
    (encounters.foldl Arena.record arena).IsIndexed ∧
      (encounters.foldl Arena.record arena).nodes =
        encounters.foldl Node.record arena.nodes := by
  induction encounters generalizing arena with
  | nil => exact ⟨indexed, rfl⟩
  | cons encounter rest induction =>
      have first := indexed.record encounter
      have later := induction first.1
      rw [first.2] at later
      exact later

end IsIndexed

/-- What a walk leaves is indexed. -/
theorem isIndexed_ofEncounters (encounters : List Encounter) :
    (ofEncounters encounters).IsIndexed ∧
      (ofEncounters encounters).nodes = Node.ofEncounters encounters := by
  have reached := isIndexed_nil.foldl_record (encounters.filter fun encounter =>
    !encounter.isOrdering)
  have ordered := reached.1.foldl_record (encounters.filter Encounter.isOrdering)
  rw [reached.2] at ordered
  exact ordered

/-! ## Pulling in -/

theorem position?_pullIn {arena : Arena} {position key : Nat} {action : Step}
    (other : key ≠ action.key) :
    (arena.pullIn position action).position? key = arena.position? key := by
  rw [pullIn, ensure]
  cases arena.position? action.key with
  | some place => rfl
  | none =>
      have differs : (key == action.key) = false := beq_eq_false_iff_ne.mpr other
      simp [position?, change, add, List.lookup_cons, differs]

theorem modify_append {front back : List Node} {position : Nat} (inside : position < front.length)
    (changed : Node → Node) :
    (front ++ back).modify position changed = front.modify position changed ++ back := by
  have longer : position < (front ++ back).length := by
    rw [List.length_append]
    omega
  rw [List.modify_eq_take_cons_drop inside, List.modify_eq_take_cons_drop longer,
    List.take_append_of_le_length (by omega), List.drop_append_of_le_length (by omega),
    List.getElem_append_left inside, List.append_assoc, List.cons_append]

namespace IsIndexed

variable {arena : Arena} (indexed : arena.IsIndexed)

include indexed

/-- The nodes behind a step of pulling in: there is one for the action, and the one at the place
depends on it. -/
theorem pullIn (position : Nat) (action : Step) :
    (arena.pullIn position action).IsIndexed ∧
      (arena.pullIn position action).nodes =
        (arena.nodes ++ (Node.missing arena.nodes [action]).map Node.pulledIn).modify position
          (·.addDependency action.key) := by
  rw [Arena.pullIn, ensure]
  cases found : arena.position? action.key with
  | some place =>
      have present : Node.hasKey arena.nodes action.key = true := by
        rw [← indexed.contains_eq, contains, found]
        rfl
      refine ⟨indexed.change position fun _ => rfl, ?_⟩
      simp [Node.missing, present, Arena.change]
  | none =>
      have absent := indexed.position?_eq_none_iff.mp found
      have added := (indexed.add absent).change arena.nodes.length (Node.key_addContext · none)
      refine ⟨added.change position fun _ => rfl, ?_⟩
      simp [Node.missing, absent, Arena.change, Arena.add, List.modify_eq_take_cons_drop,
        Node.addContext, Node.pulledIn]

/-- Pulling in steps with different keys adds those that are missing, in their order. -/
theorem foldl_pullIn {position : Nat} (inside : position < arena.nodes.length)
    {actions : List Step} (distinct : (actions.map Step.key).Nodup) :
    (actions.foldl (Arena.pullIn position) arena).IsIndexed ∧
      (actions.foldl (Arena.pullIn position) arena).nodes =
        (arena.nodes ++ (Node.missing arena.nodes actions).map Node.pulledIn).modify position
          fun node => (actions.map Step.key).foldl Node.addDependency node := by
  induction actions generalizing arena with
  | nil =>
      refine ⟨indexed, ?_⟩
      simp [Node.missing, List.modify_eq_take_cons_drop, inside]
  | cons action rest induction =>
      have first := indexed.pullIn position action
      have apart := List.nodup_cons.mp distinct
      have stillInside : position < (arena.pullIn position action).nodes.length := by
        rw [first.2]
        simp
        omega
      have sameMissing : Node.missing (arena.pullIn position action).nodes rest =
          Node.missing arena.nodes rest := by
        apply List.filter_congr
        intro other mem
        have differs : other.key ≠ action.key :=
          fun same => apart.1 (same ▸ List.mem_map_of_mem mem)
        rw [← first.1.contains_eq, ← indexed.contains_eq, contains, contains,
          position?_pullIn differs]
      have later := induction first.1 stillInside apart.2
      have missingFirst : Node.missing arena.nodes (action :: rest) =
          Node.missing arena.nodes [action] ++ Node.missing arena.nodes rest :=
        List.filter_append [action] rest
      refine ⟨later.1, ?_⟩
      rw [List.foldl_cons, later.2, sameMissing, first.2, missingFirst, List.map_append,
        ← List.append_assoc, ← modify_append _, List.modify_modify_eq]
      · rfl
      · simp
        omega

end IsIndexed

theorem closeOverReads_of_none {arena : Arena} {position : Nat}
    (beyond : arena.nodes[position]? = none) : arena.closeOverReads position = arena := by
  rw [closeOverReads]
  split
  · rfl
  · rename_i found
    cases beyond.symm.trans found

theorem closeOverReads_of_some {arena : Arena} {position : Nat} {node : Node}
    (found : arena.nodes[position]? = some node) :
    arena.closeOverReads position =
      closeOverReads (position + 1) (node.readActions.foldl (pullIn position) arena) := by
  rw [closeOverReads]
  split
  · rename_i beyond
    cases found.symm.trans beyond
  · rename_i other isOther
    cases found.symm.trans isOther
    rfl

/-- The changed node is the last one of those that have been settled. -/
theorem take_drop_modify_append {front : List Node} {position : Nat} {node : Node}
    (found : front[position]? = some node) (back : List Node) (changed : Node → Node) :
    ((front ++ back).modify position changed).take (position + 1) =
        front.take position ++ [changed node] ∧
      ((front ++ back).modify position changed).drop (position + 1) =
        front.drop (position + 1) ++ back := by
  rcases List.getElem?_eq_some_iff.mp found with ⟨inside, isNode⟩
  have settled : (front.take position ++ [changed node]).length = position + 1 := by
    rw [List.length_append, List.length_take, List.length_singleton]
    omega
  have regroup : (front ++ back).modify position changed =
      (front.take position ++ [changed node]) ++ (front.drop (position + 1) ++ back) := by
    rw [modify_append inside, List.modify_eq_take_cons_drop inside, isNode]
    simp
  rw [regroup]
  exact ⟨List.take_left' settled, List.drop_left' settled⟩

/-- Closing over the reads keeps the index and does what it does without one. -/
theorem isIndexed_closeOverReads {arena : Arena} (indexed : arena.IsIndexed) (position : Nat) :
    (arena.closeOverReads position).IsIndexed ∧
      (arena.closeOverReads position).nodes =
        Node.closeOverReads (arena.nodes.take position) (arena.nodes.drop position) := by
  induction position, arena using closeOverReads.induct with
  | case1 position arena beyond =>
      have atEnd := List.getElem?_eq_none_iff.mp beyond
      rw [closeOverReads_of_none beyond, List.take_of_length_le atEnd,
        List.drop_of_length_le atEnd, Node.closeOverReads]
      exact ⟨indexed, rfl⟩
  | case2 position arena node found induction =>
      rcases List.getElem?_eq_some_iff.mp found with ⟨inside, isNode⟩
      have pulled := indexed.foldl_pullIn inside node.nodup_keys_readActions
      have later := induction pulled.1
      have parts := take_drop_modify_append found
        ((Node.missing arena.nodes node.readActions).map Node.pulledIn)
        fun changed => (node.readActions.map Step.key).foldl Node.addDependency changed
      rw [pulled.2, parts.1, parts.2] at later
      have split : arena.nodes.take position ++ node :: arena.nodes.drop (position + 1) =
          arena.nodes := by
        rw [← isNode, ← List.drop_eq_getElem_cons inside, List.take_append_drop]
      rw [closeOverReads_of_some found, List.drop_eq_getElem_cons inside, isNode,
        Node.closeOverReads, split]
      exact later

end Arena

namespace Graph

theorem isIndexed_ofItems (items : List Item) : (ofItems items).IsIndexed :=
  have reached := Arena.isIndexed_ofEncounters (Item.encountersAll [] items)
  (Arena.isIndexed_closeOverReads reached.1 0).1

/-- The nodes of a job are those that the walk leaves, closed over what they read. -/
theorem nodes_ofItems_eq (items : List Item) :
    (ofItems items).nodes =
      Node.closeOverReads [] (Node.ofEncounters (Item.encountersAll [] items)) := by
  have reached := Arena.isIndexed_ofEncounters (Item.encountersAll [] items)
  rw [← reached.2]
  exact (Arena.isIndexed_closeOverReads reached.1 0).2

end Graph

end FlowPlan
