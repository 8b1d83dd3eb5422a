import FlowPlan.List.Total

/-! # Looking for a cycle

Nodes are known by their places here: `predecessors` has for each of them the
places of what it waits for, and `placed` tells which of them have been placed.
From a node that has not been placed, the search goes depth-first through what
it waits for and what has not been placed either. If it meets a node that it
came through, the way back to that node is a cycle.
-/

namespace FlowPlan

namespace CycleSearch

/-- What the search knows of a node: nothing, or that the search came through it and is still behind
it, or that the search is done with it. -/
inductive Mark where
  | new
  | onStack
  | done
deriving DecidableEq

/-- How many steps the search can take before it comes to a new node or to its end. -/
def remaining (predecessors : List (List Nat)) (stack : List (Nat × Nat)) : Nat :=
  total (fun (node, cursor) => (predecessors.getD node []).length - cursor + 1) stack

theorem remaining_look_lt {predecessors : List (List Nat)} {node cursor previous : Nat}
    (below : List (Nat × Nat)) (found : (predecessors.getD node [])[cursor]? = some previous) :
    remaining predecessors ((node, cursor + 1) :: below) <
      remaining predecessors ((node, cursor) :: below) := by
  have := (List.getElem?_eq_some_iff.1 found).1
  simp only [remaining, total_cons]
  omega

theorem remaining_push_le (predecessors : List (List Nat)) (node : Nat)
    (stack : List (Nat × Nat)) :
    remaining predecessors ((node, 0) :: stack) ≤
      total List.length predecessors + 1 + remaining predecessors stack := by
  have := length_getD_le_total predecessors node
  simp only [remaining, total_cons]
  omega

/-- Goes on behind the nodes on the stack, the latest of which stands in front. With each of them
goes the number of its predecessors that have been looked at. The search fails with a way that
leads from a node back to it, and otherwise leaves its marks behind. -/
def search (predecessors : List (List Nat)) (placed : List Bool) (marks : List Mark)
    (stack : List (Nat × Nat)) : Except (List Nat) (List Mark) :=
  match stack with
  | [] => .ok marks
  | (node, cursor) :: below =>
    match _found : (predecessors.getD node [])[cursor]? with
    | none => search predecessors placed (marks.set node .done) below
    | some previous =>
      let stack := (node, cursor + 1) :: below
      if placed.getD previous false then search predecessors placed marks stack
      else
        match _mark : marks[previous]? with
        | some .new =>
          search predecessors placed (marks.set previous .onStack) ((previous, 0) :: stack)
        | some .onStack =>
          let way := (stack.map Prod.fst).reverse
          .error (way.drop ((way.findIdx? (· = previous)).getD 0) ++ [previous])
        | _ => search predecessors placed marks stack
termination_by marks.countP (· = .new) * (total List.length predecessors + 2) +
  remaining predecessors stack
decreasing_by
  · have : (marks.set node .done).countP (· = .new) ≤ marks.countP (· = .new) :=
      countP_set_le (by simp)
    have := Nat.mul_le_mul_right (total List.length predecessors + 2) this
    simp only [remaining, total_cons]
    omega
  · have := remaining_look_lt below _found
    omega
  · have fewer : (marks.set previous .onStack).countP (· = .new) < marks.countP (· = .new) :=
      countP_set_lt _mark (by simp) (by simp)
    have := Nat.mul_le_mul_right (total List.length predecessors + 2) fewer
    have := remaining_look_lt below _found
    have := remaining_push_le predecessors previous ((node, cursor + 1) :: below)
    rw [Nat.succ_mul] at *
    omega
  · have := remaining_look_lt below _found
    omega

/-- The search from a node, unless it has been placed or was met before. -/
def searchFrom (predecessors : List (List Nat)) (placed : List Bool) (marks : List Mark)
    (start : Nat) : Except (List Nat) (List Mark) :=
  if placed.getD start false || marks.getD start .new ≠ .new then .ok marks
  else search predecessors placed (marks.set start .onStack) [(start, 0)]

/-- The search from one node after another. -/
def searchAll (predecessors : List (List Nat)) (placed : List Bool) :
    Except (List Nat) (List Mark) :=
  (List.range predecessors.length).foldlM (searchFrom predecessors placed)
    (List.replicate predecessors.length .new)

/-- The way that the search comes upon, or all nodes that have not been placed if there is none. -/
def find (predecessors : List (List Nat)) (placed : List Bool) : List Nat :=
  match searchAll predecessors placed with
  | .error way => way
  | .ok _ => (List.range predecessors.length).filter fun node => !placed.getD node false

end CycleSearch

end FlowPlan
