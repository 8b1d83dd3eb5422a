/-! # Lists without repeats

`distinctBy same` keeps of all members that are the same the first one, in its
place.
-/

namespace FlowPlan

variable {α : Type}

def distinctBy (same : α → α → Bool) : List α → List α
  | [] => []
  | head :: tail => head :: (distinctBy same tail).filter fun member => !same head member

def distinct [BEq α] (members : List α) : List α := distinctBy (· == ·) members

example : distinct [3, 1, 3, 2, 1] = [3, 1, 2] := rfl

theorem distinctBy_sublist (same : α → α → Bool) (members : List α) :
    (distinctBy same members).Sublist members := by
  induction members with
  | nil => exact .slnil
  | cons head tail induction => exact .cons_cons head (List.filter_sublist.trans induction)

theorem pairwise_distinctBy (same : α → α → Bool) (members : List α) :
    (distinctBy same members).Pairwise fun left right => same left right = false := by
  induction members with
  | nil => exact .nil
  | cons head tail induction =>
    refine .cons ?_ (induction.filter _)
    intro member kept
    simpa using (List.mem_filter.1 kept).2

end FlowPlan
