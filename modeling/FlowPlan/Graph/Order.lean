import FlowPlan.Graph.Cycle
import FlowPlan.Graph.Priority

/-! # The order of a graph

The steps are placed one after another. Each node counts the predecessors that
it still waits for, and whoever waits for none is in a queue. Out of the queue
comes the node with the least priority, and of several with the same priority
the one discovered first. When it has been placed, all that wait for it wait for
one predecessor less.

If the queue runs empty while some nodes still wait, a cycle among those is
looked for.
-/

namespace FlowPlan

/-! ## The queue -/

/-- A node in the queue, given by its priority and its place. -/
abbrev QueueEntry := Nat × Nat

namespace QueueEntry

def atMost (first second : QueueEntry) : Bool :=
  first.1 < second.1 || (first.1 = second.1 && first.2 ≤ second.2)

/-- Puts an entry into a queue, in front of which the least one stands. -/
def enqueue (entry : QueueEntry) : List QueueEntry → List QueueEntry
  | [] => [entry]
  | first :: rest =>
    if entry.atMost first then entry :: first :: rest else first :: enqueue entry rest

theorem enqueue_perm (entry : QueueEntry) (queue : List QueueEntry) :
    (enqueue entry queue).Perm (entry :: queue) := by
  induction queue with
  | nil => exact .refl _
  | cons first rest induction =>
    rw [enqueue]
    split
    · exact .refl _
    · exact (induction.cons first).trans (.swap entry first rest)

end QueueEntry

/-! ## Placing the nodes -/

/-- How far the nodes, given by their places, have been put in order. `waiting` has for each of them
the number of predecessors that it still waits for. -/
structure Placing where
  waiting : List Nat
  ready : List QueueEntry
  placed : List Bool
  order : List Nat

namespace Placing

/-- Enters a node as a successor of what it waits for. -/
def enterSuccessor (table : List (List Nat)) (waitsFor : List Nat) (position : Nat) :
    List (List Nat) :=
  waitsFor.foldl (fun table place => table.modify place (· ++ [position])) table

/-- For each node those that wait for it. -/
def successors (predecessors : List (List Nat)) : List (List Nat) :=
  predecessors.zipIdx.foldl
    (fun table (waitsFor, position) => enterSuccessor table waitsFor position)
    (List.replicate predecessors.length [])

/-- All nodes wait for all their predecessors, and those that have none are ready. -/
def start (priorities : List Nat) (predecessors : List (List Nat)) : Placing where
  waiting := predecessors.map List.length
  ready := ((List.range predecessors.length).filter fun position =>
    (predecessors.getD position []).isEmpty).foldl
      (fun queue position => QueueEntry.enqueue (priorities.getD position 0, position) queue) []
  placed := List.replicate predecessors.length false
  order := []

/-- The node waits for one predecessor less. -/
def release (priorities : List Nat) (placing : Placing) (position : Nat) : Placing :=
  match placing.waiting[position]? with
  | some (left + 1) =>
    { placing with
      waiting := placing.waiting.set position left
      ready :=
        if left = 0 then QueueEntry.enqueue (priorities.getD position 0, position) placing.ready
        else placing.ready }
  | _ => placing

/-- Places the node whose entry came out of the queue, so that `rest` is left there. -/
def place (priorities : List Nat) (successors : List (List Nat)) (placing : Placing)
    (position : Nat) (rest : List QueueEntry) : Placing :=
  (successors.getD position []).foldl (release priorities)
    { placing with
      ready := rest
      placed := placing.placed.set position true
      order := placing.order ++ [position] }

/-- Bounds the number of nodes that can still be placed. -/
def remaining (placing : Placing) : Nat := total id placing.waiting + placing.ready.length

theorem remaining_release_le (priorities : List Nat) (placing : Placing) (position : Nat) :
    (placing.release priorities position).remaining ≤ placing.remaining := by
  rw [release]
  split
  · rename_i left found
    have := total_set id found left
    simp only [remaining, id_eq] at this ⊢
    split
    · rw [(QueueEntry.enqueue_perm _ _).length_eq, List.length_cons]
      omega
    · omega
  · exact Nat.le_refl _

theorem remaining_foldl_release_le (priorities positions : List Nat) (placing : Placing) :
    (positions.foldl (release priorities) placing).remaining ≤ placing.remaining := by
  induction positions generalizing placing with
  | nil => exact Nat.le_refl _
  | cons position rest induction =>
    exact Nat.le_trans (induction _) (remaining_release_le priorities placing position)

/-- Places nodes until the queue is empty. -/
def placeAll (priorities : List Nat) (successors : List (List Nat)) (placing : Placing) : Placing :=
  match _queue : placing.ready with
  | [] => placing
  | (_, position) :: rest =>
    placeAll priorities successors (placing.place priorities successors position rest)
termination_by placing.remaining
decreasing_by
  apply Nat.lt_of_le_of_lt (remaining_foldl_release_le priorities _ _)
  simp only [remaining, _queue, List.length_cons]
  omega

/-- The nodes with the given predecessors, placed as far as possible. -/
def ofPredecessors (priorities : List Nat) (predecessors : List (List Nat)) : Placing :=
  placeAll priorities (successors predecessors) (start priorities predecessors)

end Placing

namespace Graph

/-- For each node the places of its predecessors. -/
def predecessorPositions (graph : Graph) : List (List Nat) :=
  graph.nodes.map fun node => graph.positions node.predecessors

/-- The nodes of the graph, placed as far as possible. -/
def placing (graph : Graph) : Placing :=
  .ofPredecessors graph.priorities graph.predecessorPositions

/-- The keys of all nodes, each behind its predecessors. -/
def order (graph : Graph) : Except PlanError (List Nat) :=
  let placing := graph.placing
  if placing.order.length < graph.nodes.length then
    let way := CycleSearch.find graph.predecessorPositions placing.placed
    .error (.cycle (way.filterMap fun position => graph.nodes[position]?.map (·.step.label)))
  else
    .ok (placing.order.filterMap fun position => graph.nodes[position]?.map Node.key)

end Graph

end FlowPlan
