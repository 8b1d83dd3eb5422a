import FlowPlan.List.Distinct
import Mathlib.Data.List.Forall2

/-! # Members of lists

What a list without repeats keeps, which members and images belong together when
every member of a list has an image, what stays true along a list, and where a
member of it stands.
-/

namespace FlowPlan

/-! ## Lists without repeats -/

theorem exists_mem_distinctBy {α : Type} {same : α → α → Bool} {property : α → Prop}
    (spreads : ∀ left right, same left right = true → property right → property left)
    {members : List α} {member : α} (mem : member ∈ members) (has : property member) :
    ∃ kept ∈ distinctBy same members, property kept := by
  induction members with
  | nil => cases mem
  | cons head tail induction =>
      rw [distinctBy]
      rcases List.mem_cons.mp mem with equal | later
      · exact ⟨head, List.mem_cons_self, equal ▸ has⟩
      · rcases induction later with ⟨kept, keptMem, keptHas⟩
        cases hidden : same head kept with
        | false =>
            refine ⟨kept, List.mem_cons_of_mem _ (List.mem_filter.mpr ⟨keptMem, ?_⟩), keptHas⟩
            simp [hidden]
        | true => exact ⟨head, List.mem_cons_self, spreads head kept hidden keptHas⟩

theorem mem_of_mem_distinctBy {α : Type} {same : α → α → Bool} {members : List α} {member : α}
    (mem : member ∈ distinctBy same members) : member ∈ members :=
  (distinctBy_sublist same members).subset mem

theorem mem_distinct {α : Type} [BEq α] [LawfulBEq α] {member : α} {members : List α} :
    member ∈ distinct members ↔ member ∈ members := by
  constructor
  · exact mem_of_mem_distinctBy
  · intro mem
    have spreads : ∀ left right : α, (left == right) = true → right = member → left = member :=
      fun _ _ same isMember => (eq_of_beq same).trans isMember
    rcases exists_mem_distinctBy spreads mem rfl with ⟨kept, keptMem, rfl⟩
    exact keptMem

theorem distinct_cons {α : Type} [BEq α] (head : α) (tail : List α) :
    distinct (head :: tail) = head :: (distinct tail).filter fun member => !(head == member) := rfl

theorem nodup_distinct {α : Type} [BEq α] [LawfulBEq α] (members : List α) :
    (distinct members).Nodup :=
  (pairwise_distinctBy (· == ·) members).imp fun different equal => by simp [equal] at different

/-- What is kept stays in the order in which it first occurs. -/
theorem pairwise_idxOf_distinct {α : Type} [BEq α] [LawfulBEq α] (members : List α) :
    (distinct members).Pairwise fun left right => members.idxOf left < members.idxOf right := by
  induction members with
  | nil => exact .nil
  | cons head tail induction =>
      have others : ∀ member ∈ (distinct tail).filter fun member => !(head == member),
          (head :: tail).idxOf member = tail.idxOf member + 1 := by
        intro member mem
        have apart : (head == member) = false := by simpa using (List.mem_filter.mp mem).2
        rw [List.idxOf_cons, apart, cond_false]
      rw [distinct_cons]
      apply List.Pairwise.cons
      · intro member mem
        rw [List.idxOf_cons_self, others member mem]
        omega
      · apply (induction.filter _).imp_of_mem
        intro left right leftMem rightMem less
        rw [others left leftMem, others right rightMem]
        omega

/-! ## Images -/

variable {α β : Type} {f : α → Option β} {members : List α}

theorem map_eq_of_mapM {images : List β} (mapped : members.mapM f = some images) :
    members.map f = images.map some := by
  induction members generalizing images with
  | nil =>
      cases mapped
      rfl
  | cons head tail induction =>
      rw [List.mapM_cons] at mapped
      rcases Option.bind_eq_some_iff.mp mapped with ⟨first, headMaps, more⟩
      rcases Option.bind_eq_some_iff.mp more with ⟨later, tailMaps, equal⟩
      cases equal
      rw [List.map_cons, List.map_cons, headMaps, induction tailMaps]

theorem exists_image_of_mapM {images : List β} (mapped : members.mapM f = some images) {member : α}
    (mem : member ∈ members) : ∃ image ∈ images, f member = some image := by
  have inImages : f member ∈ images.map some :=
    map_eq_of_mapM mapped ▸ List.mem_map_of_mem mem
  rcases List.mem_map.mp inImages with ⟨image, imageMem, equal⟩
  exact ⟨image, imageMem, equal.symm⟩

theorem exists_member_of_mapM {images : List β} (mapped : members.mapM f = some images) {image : β}
    (mem : image ∈ images) : ∃ member ∈ members, f member = some image := by
  have inMembers : some image ∈ members.map f :=
    map_eq_of_mapM mapped ▸ List.mem_map_of_mem mem
  exact List.mem_map.mp inMembers

theorem mapM_congr {g : α → Option β} (same : ∀ member ∈ members, f member = g member) :
    members.mapM f = members.mapM g := by
  induction members with
  | nil => rfl
  | cons head tail induction =>
      rw [List.mapM_cons, List.mapM_cons, same head List.mem_cons_self,
        induction fun member mem => same member (List.mem_cons_of_mem head mem)]

theorem exists_none_of_mapM_eq_none (failed : members.mapM f = none) :
    ∃ member ∈ members, f member = none := by
  induction members with
  | nil => cases failed
  | cons head tail induction =>
      cases headMaps : f head with
      | none => exact ⟨head, List.mem_cons_self, headMaps⟩
      | some first =>
          cases tailMaps : tail.mapM f with
          | none =>
              rcases induction tailMaps with ⟨member, mem, fails⟩
              exact ⟨member, List.mem_cons_of_mem head mem, fails⟩
          | some later => simp [headMaps, tailMaps] at failed

theorem exists_of_mem_forall₂ {α β : Type} {relation : α → β → Prop} {members : List α}
    {others : List β} (related : List.Forall₂ relation members others) {other : β}
    (mem : other ∈ others) : ∃ member ∈ members, relation member other := by
  induction related with
  | nil => cases mem
  | @cons head _ tail _ holds _ induction =>
      rcases List.mem_cons.mp mem with rfl | later
      · exact ⟨head, List.mem_cons_self, holds⟩
      · rcases induction later with ⟨member, memberMem, found⟩
        exact ⟨member, List.mem_cons_of_mem head memberMem, found⟩

theorem forall_mem_iff_of_forall₂ {α β : Type} {holds : α → Prop} {otherHolds : β → Prop}
    {members : List α} {others : List β}
    (related : List.Forall₂ (fun member other => holds member ↔ otherHolds other) members others) :
    (∀ member ∈ members, holds member) ↔ ∀ other ∈ others, otherHolds other := by
  induction related with
  | nil => simp
  | cons head _ induction => simp only [List.forall_mem_cons, head, induction]

theorem exists_mem_iff_of_forall₂ {α β : Type} {holds : α → Prop} {otherHolds : β → Prop}
    {members : List α} {others : List β}
    (related : List.Forall₂ (fun member other => holds member ↔ otherHolds other) members others) :
    (∃ member ∈ members, holds member) ↔ ∃ other ∈ others, otherHolds other := by
  induction related with
  | nil => simp
  | cons head _ induction => simp only [List.exists_mem_cons_iff, head, induction]

/-! ## Along a list -/

/-- What each step keeps true of the members seen so far is true of all members in the end. -/
theorem foldl_keeps {α β : Type} (invariant : List α → β → Prop) {step : β → α → β}
    {members seen : List α} {state : β}
    (keeps : ∀ seen state, ∀ member ∈ members, invariant seen state →
      invariant (seen ++ [member]) (step state member))
    (start : invariant seen state) : invariant (seen ++ members) (members.foldl step state) := by
  induction members generalizing seen state with
  | nil =>
      rw [List.append_nil]
      exact start
  | cons head tail induction =>
      have first := keeps seen state head List.mem_cons_self start
      have rest := induction
        (fun seen state member mem => keeps seen state member (List.mem_cons_of_mem head mem)) first
      rwa [List.append_assoc] at rest

/-! ## Places -/

theorem exists_lt_of_mem_take {α : Type} {members : List α} {count : Nat} {member : α}
    (mem : member ∈ members.take count) : ∃ place < count, members[place]? = some member := by
  rcases List.mem_take_iff_getElem.mp mem with ⟨place, bound, atPlace⟩
  exact ⟨place, by omega, List.getElem?_eq_some_iff.mpr ⟨by omega, atPlace⟩⟩

theorem eq_append_of_getElem? {α : Type} {members : List α} {index : Nat} {member : α}
    (found : members[index]? = some member) :
    members = members.take index ++ member :: members.drop (index + 1) := by
  rcases List.getElem?_eq_some_iff.mp found with ⟨bound, rfl⟩
  rw [List.getElem_cons_drop, List.take_append_drop]

end FlowPlan
