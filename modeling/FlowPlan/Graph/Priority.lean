import FlowPlan.Graph.Closure

/-! # Priorities

The priority of a node is the rank of the first top-level item that needs it.
The items are gone through in the order of their declaration. From the actions
of an item on, all that they depend on gets the rank of the item. A node that
has a rank already has no greater one, and neither has what it depends on.
-/

namespace FlowPlan

namespace Ranks

/-- Lowers the ranks of the pending nodes, and of all that they depend on, to `rank`. Nodes are
given by their places, and of the stack of pending ones the top stands in front. -/
def lower (dependencies : List (List Nat)) (rank : Nat) (pending ranks : List Nat) : List Nat :=
  match pending with
  | [] => ranks
  | position :: rest =>
    if _higher : rank < ranks.getD position 0 then
      lower dependencies rank ((dependencies.getD position []).reverse ++ rest)
        (ranks.set position rank)
    else
      lower dependencies rank rest ranks
termination_by ranks.countP (rank < ·) * (total List.length dependencies + 1) + pending.length
decreasing_by
  · have found : ranks[position]? = some (ranks.getD position 0) := by
      rw [List.getD_eq_getElem?_getD] at *
      cases current : ranks[position]? <;> simp [current] at _higher ⊢
    have fewer : (ranks.set position rank).countP (rank < ·) < ranks.countP (rank < ·) :=
      countP_set_lt found (by simpa using _higher) (by simp)
    have := Nat.mul_le_mul_right (total List.length dependencies + 1) fewer
    have := length_getD_le_total dependencies position
    simp only [Nat.succ_mul, List.length_append, List.length_reverse, List.length_cons] at *
    omega
  · simp

/-- The rank of the first of the roots that needs each node, or the number of roots, which is
greater than all ranks, if none does. -/
def ofRoots (dependencies roots : List (List Nat)) : List Nat :=
  roots.zipIdx.foldl (fun ranks (root, rank) => lower dependencies rank root.reverse ranks)
    (List.replicate dependencies.length roots.length)

end Ranks

namespace Graph

/-- For each node the places of what it depends on. -/
def dependencyPositions (graph : Graph) : List (List Nat) :=
  graph.nodes.map fun node => graph.positions node.dependencies

/-- For each node the rank of the first top-level item that needs it. -/
def priorities (graph : Graph) : List Nat :=
  Ranks.ofRoots graph.dependencyPositions (graph.roots.map graph.positions)

end Graph

end FlowPlan
