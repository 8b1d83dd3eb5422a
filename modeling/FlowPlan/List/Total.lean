/-! # Sums over lists

`total size` adds up the sizes of all members of a list. It bounds recursions
that exchange members of a list for smaller ones, as the number of members of
some kind bounds those that exchange them for members of another kind.
-/

namespace FlowPlan

variable {α β : Type}

def total (size : α → Nat) : List α → Nat
  | [] => 0
  | head :: tail => size head + total size tail

example : total (fun n => n + 1) [3, 1, 0] = 7 := rfl

variable (size : α → Nat)

@[simp] theorem total_nil : total size [] = 0 := rfl

@[simp] theorem total_cons (head : α) (tail : List α) :
    total size (head :: tail) = size head + total size tail := rfl

@[simp] theorem total_append (front back : List α) :
    total size (front ++ back) = total size front + total size back := by
  induction front with
  | nil => exact (Nat.zero_add _).symm
  | cons head tail induction =>
    rw [List.cons_append, total_cons, total_cons, induction, Nat.add_assoc]

@[simp] theorem total_map (f : β → α) (members : List β) :
    total size (members.map f) = total (fun member => size (f member)) members := by
  induction members with
  | nil => rfl
  | cons head tail induction => rw [List.map_cons, total_cons, total_cons, induction]

theorem total_le_of_sublist {front back : List α} (sublist : front.Sublist back) :
    total size front ≤ total size back := by
  induction sublist with
  | slnil => exact Nat.le_refl _
  | cons head _ induction => exact Nat.le_trans induction (Nat.le_add_left _ (size head))
  | cons_cons head _ induction => exact Nat.add_le_add_left induction (size head)

theorem le_total_of_mem {member : α} {members : List α} (mem : member ∈ members) :
    size member ≤ total size members := by
  have := total_le_of_sublist size (List.singleton_sublist.2 mem)
  rwa [total_cons, total_nil, Nat.add_zero] at this

theorem length_getD_le_total (lists : List (List α)) (position : Nat) :
    (lists.getD position []).length ≤ total List.length lists := by
  rw [List.getD_eq_getElem?_getD]
  cases found : lists[position]? with
  | none => exact Nat.zero_le _
  | some members => exact le_total_of_mem List.length (List.mem_of_getElem? found)

theorem total_set {members : List α} {position : Nat} {old : α}
    (found : members[position]? = some old) (new : α) :
    total size (members.set position new) + size old = total size members + size new := by
  induction members generalizing position with
  | nil => cases found
  | cons head tail induction =>
    cases position with
    | zero =>
      cases found
      simp only [List.set_cons_zero, total_cons]
      omega
    | succ position =>
      have := induction found
      simp only [List.set_cons_succ, total_cons]
      omega

/-! ## Members of a kind -/

variable {kind : α → Bool} {members : List α} {position : Nat}

theorem countP_set_lt {old new : α} (found : members[position]? = some old)
    (left : kind old = true) (other : kind new = false) :
    (members.set position new).countP kind < members.countP kind := by
  obtain ⟨inside, rfl⟩ := List.getElem?_eq_some_iff.1 found
  have := List.countP_pos_iff.2 ⟨_, List.getElem_mem inside, left⟩
  simp only [List.countP_set inside, left, other, Bool.false_eq_true, if_true, if_false]
  omega

theorem countP_set_le {new : α} (other : kind new = false) :
    (members.set position new).countP kind ≤ members.countP kind := by
  by_cases inside : position < members.length
  · rw [List.countP_set inside, other, if_neg Bool.false_ne_true, Nat.add_zero]
    exact Nat.sub_le ..
  · have unchanged := List.set_eq_of_length_le (a := new) (Nat.le_of_not_lt inside)
    exact Nat.le_of_eq (congrArg (List.countP kind) unchanged)

end FlowPlan
