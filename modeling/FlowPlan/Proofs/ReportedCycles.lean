import FlowPlan.Proofs.Acyclic
import Mathlib.Data.List.Chain

/-! # Reported cycles

The marks of the search are those of its stack: a node is marked as lying on the
stack exactly if it does. Among nodes that all wait for one another the search
never runs out of predecessors, so it takes no node off its stack and is done
with none. Every step looks at one more predecessor or comes to a new node, and
in the end it comes to a node on the stack. From there on the stack is a cycle,
and what is reported are the labels along it.
-/

namespace FlowPlan

namespace CycleSearch

/-- Each of these places waits for the next one, the last one is the first one again, and no other
one is repeated. Nothing on the way has been placed. -/
structure IsCycle (predecessors : List (List Nat)) (placed : List Bool) (way : List Nat) :
    Prop where
  left : ∀ place ∈ way, place < predecessors.length ∧ placed.getD place false = false
  waits : way.IsChain fun place previous => previous ∈ predecessors.getD place []
  closed : ∃ first between, way = first :: between ++ [first] ∧ (first :: between).Nodup

/-- Every place that has been left over waits for another one that has been. -/
structure IsBlocked (predecessors : List (List Nat)) (placed : List Bool) : Prop where
  inside : ∀ place, ∀ previous ∈ predecessors.getD place [], previous < predecessors.length
  waits : ∀ place < predecessors.length, placed.getD place false = false →
    ∃ previous ∈ predecessors.getD place [], placed.getD previous false = false

/-- The state of a search that has not come to an end: exactly what lies on the stack is marked so,
each of the places on it waits for the one above, and what the topmost one has looked at has been
placed. -/
structure IsUnderway (predecessors : List (List Nat)) (placed : List Bool) (marks : List Mark)
    (node cursor : Nat) (below : List (Nat × Nat)) : Prop where
  length : marks.length = predecessors.length
  marked : ∀ place : Nat, marks[place]? = some .onStack ↔ place ∈ node :: below.map Prod.fst
  undone : ∀ place : Nat, marks[place]? ≠ some Mark.done
  left : ∀ place ∈ node :: below.map Prod.fst, placed.getD place false = false
  linked : (node :: below.map Prod.fst).IsChain fun previous place =>
    previous ∈ predecessors.getD place []
  distinct : (node :: below.map Prod.fst).Nodup
  looked : ∀ previous ∈ (predecessors.getD node []).take cursor, placed.getD previous false = true

section Search

variable {predecessors : List (List Nat)} {placed : List Bool}

section Equations

variable {marks : List Mark} {node cursor previous : Nat} {below : List (Nat × Nat)}
  (found : (predecessors.getD node [])[cursor]? = some previous)

include found

theorem search_of_placed (isPlaced : placed.getD previous false = true) :
    search predecessors placed marks ((node, cursor) :: below) =
      search predecessors placed marks ((node, cursor + 1) :: below) := by
  rw [search]
  split
  · rename_i none
    cases none.symm.trans found
  · rename_i same
    cases same.symm.trans found
    exact if_pos isPlaced

variable (isLeft : ¬ placed.getD previous false = true)

include isLeft

theorem search_of_new (isNew : marks[previous]? = some .new) :
    search predecessors placed marks ((node, cursor) :: below) =
      search predecessors placed (marks.set previous .onStack)
        ((previous, 0) :: (node, cursor + 1) :: below) := by
  rw [search]
  split
  · rename_i none
    cases none.symm.trans found
  · rename_i same
    cases same.symm.trans found
    dsimp only
    rw [if_neg isLeft]
    split <;> simp_all

theorem search_of_onStack (isOn : marks[previous]? = some .onStack) :
    search predecessors placed marks ((node, cursor) :: below) =
      .error ((node :: below.map Prod.fst).reverse.drop
        (((node :: below.map Prod.fst).reverse.findIdx? (· = previous)).getD 0) ++ [previous]) := by
  rw [search]
  split
  · rename_i none
    cases none.symm.trans found
  · rename_i same
    cases same.symm.trans found
    dsimp only
    rw [if_neg isLeft]
    split <;> simp_all

end Equations

/-- Where the search starts, no mark has been set before. -/
theorem isUnderway_start {start : Nat} (inside : start < predecessors.length)
    (left : placed.getD start false = false) :
    IsUnderway predecessors placed
      ((List.replicate predecessors.length Mark.new).set start .onStack) start 0 [] where
  length := by simp
  marked place := by
    by_cases same : start = place
    · simp [same, same ▸ inside]
    · simp [same, Ne.symm same, List.getElem?_replicate]
  undone place := by
    by_cases same : start = place
    · simp [same, same ▸ inside]
    · simp [same, List.getElem?_replicate]
  left := by simpa using left
  linked := .singleton start
  distinct := List.nodup_singleton start
  looked := by simp

/-- A member that does not occur before is found at its place. -/
theorem findIdx?_append_cons {front : List Nat} {member : Nat} (fresh : member ∉ front)
    (back : List Nat) :
    (front ++ member :: back).findIdx? (· = member) = some front.length := by
  rw [List.findIdx?_append, List.findIdx?_eq_none_iff.mpr]
  · simp [List.findIdx?_cons]
  · intro other mem
    have differs : other ≠ member := fun same => fresh (same ▸ mem)
    simp [differs]

namespace IsUnderway

variable {marks : List Mark} {node cursor : Nat} {below : List (Nat × Nat)}
  (underway : IsUnderway predecessors placed marks node cursor below)

include underway

theorem inside {place : Nat} (mem : place ∈ node :: below.map Prod.fst) :
    place < predecessors.length := by
  have found := (underway.marked place).mpr mem
  rw [← underway.length]
  exact (List.getElem?_eq_some_iff.mp found).1

/-- The topmost place has a predecessor that the search has not looked at. -/
theorem exists_previous (blocked : IsBlocked predecessors placed) :
    ∃ previous, (predecessors.getD node [])[cursor]? = some previous := by
  have top : node ∈ node :: below.map Prod.fst := List.mem_cons_self
  rcases blocked.waits node (underway.inside top) (underway.left node top) with
    ⟨previous, mem, left⟩
  by_contra none
  have short : (predecessors.getD node []).length ≤ cursor := by
    by_contra longer
    exact none ⟨_, List.getElem?_eq_getElem (by omega)⟩
  have looked := underway.looked previous (by rwa [List.take_of_length_le short])
  rw [left] at looked
  cases looked

variable {previous : Nat} (found : (predecessors.getD node [])[cursor]? = some previous)

include found

/-- A predecessor that has been placed is passed over. -/
theorem look (isPlaced : placed.getD previous false = true) :
    IsUnderway predecessors placed marks node (cursor + 1) below :=
  { underway with
    looked := by
      intro other mem
      rw [List.take_add_one, found] at mem
      cases List.mem_append.mp mem with
      | inl earlier => exact underway.looked other earlier
      | inr last =>
          rw [List.mem_singleton.mp last]
          exact isPlaced }

/-- Where the search comes to a place on the stack, it has found a cycle. The place is there once, so
the stack is cut right at it. -/
theorem isCycle (isOn : marks[previous]? = some .onStack) :
    IsCycle predecessors placed
      ((node :: below.map Prod.fst).reverse.drop
        (((node :: below.map Prod.fst).reverse.findIdx? (· = previous)).getD 0) ++ [previous]) := by
  have onStack := (underway.marked previous).mp isOn
  have distinct := underway.distinct
  have inside : ∀ place ∈ node :: below.map Prod.fst, place < predecessors.length :=
    fun _ => underway.inside
  have left := underway.left
  have linked := underway.linked.cons_cons (List.mem_of_getElem? found)
  generalize node :: below.map Prod.fst = stack at onStack distinct inside left linked ⊢
  rcases List.append_of_mem onStack with ⟨above, under, rfl⟩
  have notUnder : previous ∉ under :=
    (List.nodup_cons.mp (List.nodup_append.mp distinct).2.1).1
  have isCut : (above ++ previous :: under).reverse.findIdx? (· = previous) =
      some under.length := by
    have cut := findIdx?_append_cons (mt List.mem_reverse.mp notUnder) above.reverse
    simpa using cut
  have isPart : above ++ [previous] <+: above ++ previous :: under := ⟨under, by simp⟩
  have way : (above ++ previous :: under).reverse.drop under.length ++ [previous] =
      (previous :: above ++ [previous]).reverse := by
    simp
  rw [isCut, Option.getD_some, way]
  constructor
  case left =>
    intro place mem
    have onStack : place ∈ above ++ previous :: under := by
      simp at mem ⊢
      tauto
    exact ⟨inside place onStack, left place onStack⟩
  case waits =>
    have closing : (previous :: (above ++ [previous])).IsChain
        fun previous place => previous ∈ predecessors.getD place [] :=
      linked.prefix ⟨under, by simp⟩
    exact List.isChain_reverse.mpr closing
  case closed =>
    refine ⟨previous, above.reverse, by simp, ?_⟩
    have once := distinct.sublist isPart.sublist
    rw [← List.nodup_reverse] at once
    simpa using once

variable (isLeft : ¬ placed.getD previous false = true)

include isLeft

/-- A new place goes on top of the stack. -/
theorem push (isNew : marks[previous]? = some .new) :
    IsUnderway predecessors placed (marks.set previous .onStack) previous 0
      ((node, cursor + 1) :: below) where
  length := by rw [List.length_set, underway.length]
  marked place := by
    have inside := (List.getElem?_eq_some_iff.mp isNew).1
    by_cases same : previous = place
    · subst same
      simp [inside]
    · rw [List.getElem?_set_ne same, underway.marked place]
      simp [Ne.symm same]
  undone place := by
    have inside := (List.getElem?_eq_some_iff.mp isNew).1
    by_cases same : previous = place
    · subst same
      simp [inside]
    · rw [List.getElem?_set_ne same]
      exact underway.undone place
  left := List.forall_mem_cons.mpr ⟨by simpa using isLeft, underway.left⟩
  linked := .cons_cons (List.mem_of_getElem? found) underway.linked
  distinct := by
    refine List.nodup_cons.mpr ⟨fun onStack => ?_, underway.distinct⟩
    have := (underway.marked previous).mpr onStack
    simp [isNew] at this
  looked := by simp

end IsUnderway

/-- Among places that wait for one another the search comes to a cycle. -/
theorem exists_search_eq_error (blocked : IsBlocked predecessors placed) {marks : List Mark}
    {stack : List (Nat × Nat)} {node cursor : Nat} {below : List (Nat × Nat)}
    (isStack : stack = (node, cursor) :: below)
    (underway : IsUnderway predecessors placed marks node cursor below) :
    ∃ way, search predecessors placed marks stack = .error way ∧
      IsCycle predecessors placed way := by
  induction marks, stack using search.induct predecessors placed
    generalizing node cursor below with
  | case1 marks => cases isStack
  | case2 marks _ _ _ none =>
      cases isStack
      rcases underway.exists_previous blocked with ⟨previous, found⟩
      cases none.symm.trans found
  | case3 marks _ _ _ previous found stack isPlaced =>
      rename_i induction
      cases isStack
      rcases induction rfl (underway.look found isPlaced) with ⟨way, isWay, isCycle⟩
      exact ⟨way, (search_of_placed found isPlaced).trans isWay, isCycle⟩
  | case4 marks _ _ _ previous found stack isLeft isNew =>
      rename_i induction
      cases isStack
      rcases induction rfl (underway.push found isLeft isNew) with ⟨way, isWay, isCycle⟩
      exact ⟨way, (search_of_new found isLeft isNew).trans isWay, isCycle⟩
  | case5 marks _ _ _ previous found isLeft isOn =>
      cases isStack
      exact ⟨_, search_of_onStack found isLeft isOn, underway.isCycle found isOn⟩
  | case6 marks _ _ _ previous found stack isLeft notNew notOn =>
      cases isStack
      have inside := blocked.inside _ previous (List.mem_of_getElem? found)
      rw [← underway.length] at inside
      have undone := underway.undone previous
      rw [List.getElem?_eq_getElem inside] at notNew notOn undone
      cases mark : marks[previous] <;> simp [mark] at notNew notOn undone

/-- The search from the first place that has been left over comes to a cycle. -/
theorem exists_foldlM_eq_error (blocked : IsBlocked predecessors placed) {starts : List Nat}
    (inside : ∀ start ∈ starts, start < predecessors.length)
    (some : ∃ start ∈ starts, placed.getD start false = false) :
    ∃ way, starts.foldlM (searchFrom predecessors placed)
        (List.replicate predecessors.length .new) = .error way ∧
      IsCycle predecessors placed way := by
  induction starts with
  | nil =>
      rcases some with ⟨_, mem, _⟩
      cases mem
  | cons start rest induction =>
      have bound := inside start List.mem_cons_self
      rw [List.foldlM_cons, searchFrom]
      by_cases isPlaced : placed.getD start false = true
      · have later : ∃ start ∈ rest, placed.getD start false = false := by
          rcases some with ⟨other, mem, left⟩
          cases List.mem_cons.mp mem with
          | inl same =>
              rw [same, isPlaced] at left
              cases left
          | inr later => exact ⟨other, later, left⟩
        rw [isPlaced]
        exact induction (fun other mem => inside other (List.mem_cons_of_mem start mem)) later
      · have left := Bool.eq_false_iff.mpr isPlaced
        rcases exists_search_eq_error blocked rfl (isUnderway_start bound left) with
          ⟨way, isWay, isCycle⟩
        refine ⟨way, ?_, isCycle⟩
        have isNew : (List.replicate predecessors.length Mark.new).getD start .new = .new := by
          simp [List.getD_eq_getElem?_getD, bound]
        rw [left, isNew, if_neg (by simp), isWay]
        rfl

/-- If some place is blocked, the search fails with a cycle. -/
theorem exists_searchAll_eq_error (blocked : IsBlocked predecessors placed)
    (some : ∃ start < predecessors.length, placed.getD start false = false) :
    ∃ way, searchAll predecessors placed = .error way ∧ IsCycle predecessors placed way := by
  apply exists_foldlM_eq_error blocked
  · exact fun _ mem => List.mem_range.mp mem
  · rcases some with ⟨start, inside, left⟩
    exact ⟨start, List.mem_range.mpr inside, left⟩

end Search

end CycleSearch

/-! ## Cycles of a graph -/

namespace Graph

/-- Each node of the path has to run after the next one, the last one is the first one again, and
no other one is repeated. -/
structure IsCycle (graph : Graph) (path : List Node) : Prop where
  nodes : ∀ node ∈ path, node ∈ graph.nodes
  waits : path.IsChain fun node previous =>
    previous.key ∈ node.dependencies ∨ previous.key ∈ node.orderings
  closed : ∃ first between, path = first :: between ++ [first] ∧
    ((first :: between).map Node.key).Nodup

variable {graph : Graph}

/-- A way along the places is one along the nodes there. -/
theorem exists_isCycle (indexed : graph.IsIndexed) {placed : List Bool} {way : List Nat}
    (cycle : CycleSearch.IsCycle graph.predecessorPositions placed way) :
    ∃ path : List Node, way.map (graph.nodes[·]?) = path.map some ∧ graph.IsCycle path := by
  rcases cycle.closed with ⟨first, between, rfl, distinct⟩
  have inside : ∀ place ∈ first :: between ++ [first], place < graph.nodes.length := by
    intro place mem
    have := (cycle.left place mem).1
    rwa [length_predecessorPositions] at this
  let nodeAt (place : Nat) : Node := (graph.nodes[place]?).getD
    (graph.nodes.get ⟨first, inside first List.mem_cons_self⟩)
  have found : ∀ place ∈ first :: between ++ [first],
      graph.nodes[place]? = some (nodeAt place) := by
    intro place mem
    simp [nodeAt, List.getElem?_eq_getElem (inside place mem)]
  refine ⟨(first :: between ++ [first]).map nodeAt, ?_, ?_, ?_, ?_⟩
  · rw [List.map_map]
    exact List.map_congr_left found
  · intro node mem
    rcases List.mem_map.mp mem with ⟨place, placeMem, rfl⟩
    exact List.mem_of_getElem? (found place placeMem)
  · rw [List.isChain_map, List.isChain_iff_getElem]
    intro index bound
    have waits := List.isChain_iff_getElem.mp cycle.waits index bound
    rcases (mem_predecessorPositions indexed (found _ (List.getElem_mem _))).mp waits with
      ⟨previous, otherFound, isPredecessor⟩
    cases otherFound.symm.trans (found _ (List.getElem_mem _))
    exact Node.mem_predecessors.mp isPredecessor
  · refine ⟨nodeAt first, between.map nodeAt, by simp, ?_⟩
    rw [← List.map_cons, List.map_map]
    apply distinct.map_on
    intro place mem other otherMem sameKey
    exact indexed.position_inj (found place (List.mem_append_left _ mem))
      (found other (List.mem_append_left _ otherMem)) sameKey

theorem isStuck_iff {place : Nat} : graph.IsStuck place ↔
    place < graph.nodes.length ∧ graph.placing.placed.getD place false = false := by
  rw [IsStuck, graph.isSound_placing.flags]
  by_cases inside : place < graph.nodes.length
  · simp [List.getD_eq_getElem?_getD, inside]
  · simp [inside]

/-- Whoever is stuck waits for somebody else who is. -/
theorem isBlocked_placing (indexed : graph.IsIndexed) :
    CycleSearch.IsBlocked graph.predecessorPositions graph.placing.placed where
  inside place previous mem := by
    rw [length_predecessorPositions]
    by_cases bound : place < graph.nodes.length
    · have found := List.getElem?_eq_getElem bound
      rcases (mem_predecessorPositions indexed found).mp mem with ⟨_, otherFound, _⟩
      exact (List.getElem?_eq_some_iff.mp otherFound).1
    · rw [List.getD_eq_getElem?_getD, List.getElem?_eq_none (by simpa using bound)] at mem
      cases mem
  waits place inside left := by
    rw [length_predecessorPositions] at inside
    have stuck : graph.IsStuck place := isStuck_iff.mpr ⟨inside, left⟩
    rcases stuck.exists_predecessor indexed with ⟨previous, mem, previousStuck⟩
    exact ⟨previous, mem, (isStuck_iff.mp previousStuck).2⟩

theorem order_eq_error {error : PlanError} (failed : graph.order = .error error) :
    (∃ place, graph.IsStuck place) ∧
      error = .cycle ((CycleSearch.find graph.predecessorPositions graph.placing.placed).filterMap
        fun place => graph.nodes[place]?.map (·.step.label)) := by
  constructor
  · by_contra none
    rcases order_isOk_iff.mpr (not_exists.mp none) with ⟨order, resolved⟩
    cases resolved.symm.trans failed
  · rw [Graph.order] at failed
    dsimp only at failed
    split at failed
    · cases failed
      rfl
    · cases failed

/-- If the nodes have no order, the search comes to a cycle, and the labels along it are what is
reported. -/
theorem reported_cycle_is_cycle {items : List Item} {error : PlanError}
    (failed : (ofItems items).order = .error error) :
    ∃ (way : List Nat) (path : List Node),
      CycleSearch.searchAll (ofItems items).predecessorPositions (ofItems items).placing.placed =
        .error way ∧
      way.map ((ofItems items).nodes[·]?) = path.map some ∧
      error = .cycle (path.map (·.step.label)) ∧ (ofItems items).IsCycle path := by
  have indexed := isIndexed_ofItems items
  rcases order_eq_error failed with ⟨⟨place, stuck⟩, isReported⟩
  rcases isStuck_iff.mp stuck with ⟨inside, left⟩
  rcases CycleSearch.exists_searchAll_eq_error (isBlocked_placing indexed)
    ⟨place, by simpa using inside, left⟩ with ⟨way, isWay, cycle⟩
  rcases exists_isCycle indexed cycle with ⟨path, isPath, isCycle⟩
  refine ⟨way, path, isWay, isPath, ?_, isCycle⟩
  have labels := congrArg (List.filterMap (Option.map (·.step.label))) isPath
  rw [List.filterMap_map, List.filterMap_map] at labels
  rw [isReported, CycleSearch.find, isWay]
  exact congrArg PlanError.cycle (labels.trans (by simp))

end Graph

/-! ## A deployment that waits for two steps that wait for each other -/

namespace Sample

def lint : Step := .action 2 (some "lint") [] {} []

def scan : Step := .action 3 (some "scan") [] {} []

def deploy : Item := .place (.action 1 (some "deploy") [] {} []) none
  [.place lint none [.ofStep scan] []] []

def circularItems : List Item := [deploy, .place scan none [] [.ofStep lint]]

theorem reported_cycle_is_cycle_sample :
    (Graph.ofItems circularItems).order = .error (.cycle ["lint", "scan", "lint"]) ∧
      ∃ path : List Node, path.map (·.step.label) = ["lint", "scan", "lint"] ∧
        (Graph.ofItems circularItems).IsCycle path := by
  have failed : (Graph.ofItems circularItems).order =
      .error (.cycle ["lint", "scan", "lint"]) := by
    decide +kernel
  refine ⟨failed, ?_⟩
  rcases Graph.reported_cycle_is_cycle failed with ⟨_, path, _, _, isReported, isCycle⟩
  exact ⟨path, (PlanError.cycle.inj isReported).symm, isCycle⟩

end Sample

end FlowPlan
