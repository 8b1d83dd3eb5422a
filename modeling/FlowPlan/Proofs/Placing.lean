import FlowPlan.Graph.Order
import Mathlib.Data.List.Nodup

/-! # Placing nodes one after another

The counts and the queue are bookkeeping: a node waits for as many predecessors
as have not been placed, and the queue holds whoever waits for none and has not
been placed. Releasing a node keeps the queue in step with the counts, and
placing one keeps the counts in step with the order. So what comes out of the
queue is the least of all nodes whose predecessors have been placed, and when
the queue is empty, every node that is left waits for another one.
-/

namespace FlowPlan

namespace QueueEntry

theorem atMost_iff {first second : QueueEntry} :
    first.atMost second = true ↔
      first.1 < second.1 ∨ first.1 = second.1 ∧ first.2 ≤ second.2 := by
  simp [atMost]

theorem mem_enqueue {entry other : QueueEntry} {queue : List QueueEntry} :
    other ∈ enqueue entry queue ↔ other = entry ∨ other ∈ queue := by
  rw [(enqueue_perm entry queue).mem_iff, List.mem_cons]

/-- A queue that has its least entry in front, and each entry once. -/
structure IsQueue (queue : List QueueEntry) : Prop where
  sorted : queue.Pairwise fun first second => first.atMost second = true
  distinct : queue.Nodup

theorem IsQueue.enqueue {entry : QueueEntry} {queue : List QueueEntry} (isQueue : IsQueue queue)
    (fresh : entry ∉ queue) : IsQueue (enqueue entry queue) where
  sorted := by
    have sorted := isQueue.sorted
    clear isQueue fresh
    induction queue with
    | nil => exact List.pairwise_singleton _ _
    | cons first rest induction =>
        have behind := List.pairwise_cons.mp sorted
        rw [QueueEntry.enqueue]
        split
        · rename_i less
          rw [List.pairwise_cons]
          refine ⟨fun other mem => ?_, sorted⟩
          cases List.mem_cons.mp mem with
          | inl same => exact same ▸ less
          | inr later =>
              have := atMost_iff.mp less
              have := atMost_iff.mp (behind.1 other later)
              rw [atMost_iff]
              omega
        · rename_i notLess
          rw [List.pairwise_cons]
          refine ⟨fun other mem => ?_, induction behind.2⟩
          cases mem_enqueue.mp mem with
          | inl same =>
              subst same
              rw [atMost_iff] at notLess ⊢
              omega
          | inr later => exact behind.1 other later
  distinct := (enqueue_perm entry queue).nodup_iff.mpr
    (List.nodup_cons.mpr ⟨fresh, isQueue.distinct⟩)

end QueueEntry

namespace Placing

variable {priorities : List Nat} {predecessors : List (List Nat)} {placing : Placing}

/-! ## Releasing -/

/-- The queue holds exactly the nodes that wait for none and have not been placed, and those that
have been placed wait for none. -/
structure IsQueued (priorities : List Nat) (placing : Placing) : Prop where
  isQueue : QueueEntry.IsQueue placing.ready
  mem_ready : ∀ rank position, (rank, position) ∈ placing.ready ↔
    rank = priorities.getD position 0 ∧ placing.waiting[position]? = some 0 ∧
      position ∉ placing.order
  settled : ∀ position ∈ placing.order, placing.waiting[position]? = some 0

/-- Nobody is placed when a node is released. -/
theorem unchanged_release (position : Nat) :
    (placing.release priorities position).order = placing.order ∧
      (placing.release priorities position).placed = placing.placed := by
  rw [release]
  split <;> exact ⟨rfl, rfl⟩

theorem waiting_release (position place : Nat) :
    (placing.release priorities position).waiting[place]? =
      placing.waiting[place]?.map (· - [position].count place) := by
  rw [release]
  by_cases same : position = place
  · subst same
    split
    · rename_i left found
      have inside := (List.getElem?_eq_some_iff.mp found).1
      simp [found, List.getElem?_set_self inside]
    · rename_i notWaiting
      cases found : placing.waiting[position]? with
      | none => rfl
      | some left =>
          cases left with
          | zero => simp
          | succ left => exact absurd found (notWaiting left)
  · have unchanged : placing.waiting[place]?.map (· - [position].count place) =
        placing.waiting[place]? := by
      simp [same]
    rw [unchanged]
    split
    · exact List.getElem?_set_ne same
    · rfl

/-- Whoever does not wait any more joins the queue. -/
theorem IsQueued.release (isQueued : IsQueued priorities placing) (position : Nat) :
    IsQueued priorities (placing.release priorities position) := by
  rw [Placing.release]
  split
  · rename_i left found
    have inside := (List.getElem?_eq_some_iff.mp found).1
    have notReady : (priorities.getD position 0, position) ∉ placing.ready := by
      intro mem
      have := ((isQueued.mem_ready _ _).mp mem).2.1
      simp [found] at this
    have notPlaced : position ∉ placing.order := by
      intro mem
      have := isQueued.settled position mem
      simp [found] at this
    constructor
    case isQueue =>
      dsimp only
      split
      · exact isQueued.isQueue.enqueue notReady
      · exact isQueued.isQueue
    case mem_ready =>
      intro rank place
      have before := isQueued.mem_ready rank place
      by_cases same : place = position
      · subst same
        rw [found] at before
        simp only [List.getElem?_set_self inside]
        split
        · simp_all [QueueEntry.mem_enqueue]
        · simp_all
      · have unchanged : (placing.waiting.set position left)[place]? = placing.waiting[place]? :=
          List.getElem?_set_ne (Ne.symm same)
        simp only [unchanged, ← before]
        split
        · simp [QueueEntry.mem_enqueue, same]
        · exact Iff.rfl
    case settled =>
      intro place mem
      have other : position ≠ place := fun same => notPlaced (same ▸ mem)
      exact (List.getElem?_set_ne other).trans (isQueued.settled place mem)
  · exact isQueued

theorem IsQueued.foldl_release (isQueued : IsQueued priorities placing) (positions : List Nat) :
    IsQueued priorities (positions.foldl (Placing.release priorities) placing) := by
  induction positions generalizing placing with
  | nil => exact isQueued
  | cons position rest induction => exact induction (isQueued.release position)

theorem unchanged_foldl_release (positions : List Nat) :
    (positions.foldl (release priorities) placing).order = placing.order ∧
      (positions.foldl (release priorities) placing).placed = placing.placed := by
  induction positions generalizing placing with
  | nil => exact ⟨rfl, rfl⟩
  | cons position rest induction =>
      obtain ⟨sameOrder, samePlaced⟩ := unchanged_release position
      exact ⟨induction.1.trans sameOrder, induction.2.trans samePlaced⟩

/-- A node waits for one predecessor less each time it is released. -/
theorem waiting_foldl_release (positions : List Nat) (place : Nat) :
    (positions.foldl (release priorities) placing).waiting[place]? =
      placing.waiting[place]?.map (· - positions.count place) := by
  induction positions generalizing placing with
  | nil => simp
  | cons position rest induction =>
      rw [List.foldl_cons, induction, waiting_release, Option.map_map]
      congr 1
      funext left
      change left - _ - _ = left - List.count place ([position] ++ rest)
      rw [List.count_append]
      omega

/-! ## Successors -/

theorem length_enterSuccessor (table : List (List Nat)) (waitsFor : List Nat) (position : Nat) :
    (enterSuccessor table waitsFor position).length = table.length := by
  induction waitsFor generalizing table with
  | nil => rfl
  | cons head tail induction => exact (induction _).trans (List.length_modify ..)

theorem getD_enterSuccessor (waitsFor : List Nat) (position : Nat) {place : Nat}
    {table : List (List Nat)} (inside : place < table.length) :
    (enterSuccessor table waitsFor position).getD place [] =
      table.getD place [] ++ List.replicate (waitsFor.count place) position := by
  induction waitsFor generalizing table with
  | nil => simp [enterSuccessor]
  | cons head tail induction =>
      have entered : (table.modify head (· ++ [position])).getD place [] =
          table.getD place [] ++ List.replicate ([head].count place) position := by
        by_cases same : head = place <;>
          simp [List.getD_eq_getElem?_getD, inside, same]
      have stillInside : place < (table.modify head (· ++ [position])).length := by
        simpa using inside
      have later := induction stillInside
      rw [entered, List.append_assoc, List.replicate_append_replicate, ← List.count_append] at later
      exact later

theorem count_foldl_enterSuccessor (lists : List (List Nat)) (start position : Nat) {place : Nat}
    {table : List (List Nat)} (inside : place < table.length) :
    (((lists.zipIdx start).foldl (fun table (waitsFor, position) =>
      enterSuccessor table waitsFor position) table).getD place []).count position =
      (table.getD place []).count position +
        if start ≤ position then (lists.getD (position - start) []).count place else 0 := by
  induction lists generalizing start table with
  | nil => simp
  | cons head tail induction =>
      rw [List.zipIdx_cons, List.foldl_cons,
        induction (start + 1) (by rwa [length_enterSuccessor]),
        getD_enterSuccessor head start inside, List.count_append, List.count_replicate]
      by_cases same : start = position
      · have behind : ¬ position + 1 ≤ position := Nat.not_succ_le_self position
        rw [same, if_neg behind, if_pos (Nat.le_refl position), Nat.sub_self]
        simp
      · by_cases before : start + 1 ≤ position
        · have further : position - start = position - (start + 1) + 1 := by omega
          simp [same, further, before, Nat.le_of_succ_le before]
        · have notBehind : ¬ start ≤ position := by omega
          simp [same, before, notBehind]

/-- A node is entered as a successor as often as it has the other one as its predecessor. -/
theorem count_successors (position : Nat) {place : Nat} (inside : place < predecessors.length) :
    ((successors predecessors).getD place []).count position =
      (predecessors.getD position []).count place := by
  rw [successors, count_foldl_enterSuccessor predecessors 0 position (by simpa using inside)]
  simp [List.getD_eq_getElem?_getD, inside]

/-! ## The state between two nodes -/

/-- Behind the placed nodes, everything that the node waits for has been placed, but not the node
itself. -/
structure IsFree (predecessors : List (List Nat)) (order : List Nat) (position : Nat) : Prop where
  inside : position < predecessors.length
  left : position ∉ order
  behind : ∀ place ∈ predecessors.getD position [], place ∈ order

/-- Of all nodes that wait for nothing else, the node has the least priority, and of those with the
same one it is the first. -/
structure IsNext (priorities : List Nat) (predecessors : List (List Nat)) (order : List Nat)
    (position : Nat) : Prop where
  isFree : IsFree predecessors order position
  least : ∀ other, IsFree predecessors order other →
    QueueEntry.atMost (priorities.getD position 0, position) (priorities.getD other 0, other) = true

/-- What holds between two nodes: the counts and the queue are in step with the order, and the order
has been greedy so far. -/
structure IsSound (priorities : List Nat) (predecessors : List (List Nat)) (placing : Placing) :
    Prop where
  isQueued : IsQueued priorities placing
  counts : placing.waiting = predecessors.map (List.countP (· ∉ placing.order))
  flags : placing.placed = (List.range predecessors.length).map fun position =>
    decide (position ∈ placing.order)
  distinct : placing.order.Nodup
  greedy : ∀ count position, placing.order[count]? = some position →
    IsNext priorities predecessors (placing.order.take count) position

/-- What holds of each member behind those before it holds of one more behind all. -/
theorem forall_take_concat {holds : List Nat → Nat → Prop} {members : List Nat} {last : Nat}
    (all : ∀ count member, members[count]? = some member → holds (members.take count) member)
    (lastHolds : holds members last) :
    ∀ count member, (members ++ [last])[count]? = some member →
      holds ((members ++ [last]).take count) member := by
  intro count member found
  by_cases earlier : count < members.length
  · rw [List.getElem?_append_left earlier] at found
    rw [List.take_append_of_le_length (Nat.le_of_lt earlier)]
    exact all count member found
  · have atEnd : count = members.length := by
      have := (List.getElem?_eq_some_iff.mp found).1
      simp only [List.length_append, List.length_singleton] at this
      omega
    rw [atEnd, List.getElem?_concat_length] at found
    cases found
    rwa [atEnd, List.take_left]

/-- Who has just been placed is not waited for any more. -/
theorem countP_left_add_count {order : List Nat} {position : Nat} (left : position ∉ order)
    (waitsFor : List Nat) :
    waitsFor.countP (· ∉ order ++ [position]) + waitsFor.count position =
      waitsFor.countP (· ∉ order) := by
  induction waitsFor with
  | nil => rfl
  | cons head tail induction =>
      by_cases same : head = position
      · simp [same, left] at induction ⊢
        omega
      · simp [List.countP_cons, same] at induction ⊢
        omega

namespace IsSound

variable (sound : IsSound priorities predecessors placing)

include sound

theorem waiting_eq_zero_iff {position : Nat} :
    placing.waiting[position]? = some 0 ↔ position < predecessors.length ∧
      ∀ place ∈ predecessors.getD position [], place ∈ placing.order := by
  rw [sound.counts, List.getElem?_map, List.getD_eq_getElem?_getD]
  by_cases inside : position < predecessors.length
  · simp [inside, List.countP_eq_zero]
  · simp [inside]

/-- The queue holds the nodes that wait for nothing but their turn. -/
theorem mem_ready_iff {rank position : Nat} :
    (rank, position) ∈ placing.ready ↔
      rank = priorities.getD position 0 ∧ IsFree predecessors placing.order position := by
  rw [sound.isQueued.mem_ready, sound.waiting_eq_zero_iff]
  constructor
  · intro ⟨isRank, ⟨inside, behind⟩, left⟩
    exact ⟨isRank, inside, left, behind⟩
  · intro ⟨isRank, inside, left, behind⟩
    exact ⟨isRank, ⟨inside, behind⟩, left⟩

/-- What comes out of the queue is the least of all nodes that could come next. -/
theorem isNext {rank position : Nat} {rest : List QueueEntry}
    (queue : placing.ready = (rank, position) :: rest) :
    IsNext priorities predecessors placing.order position := by
  have front : (rank, position) ∈ placing.ready := queue ▸ List.mem_cons_self
  obtain ⟨rfl, isFree⟩ := sound.mem_ready_iff.mp front
  refine ⟨isFree, fun other otherFree => ?_⟩
  have mem := sound.mem_ready_iff.mpr ⟨rfl, otherFree⟩
  have sorted := sound.isQueued.isQueue.sorted
  rw [queue] at mem sorted
  cases List.mem_cons.mp mem with
  | inl same =>
      rw [same, QueueEntry.atMost_iff]
      omega
  | inr later => exact (List.pairwise_cons.mp sorted).1 _ later

/-- Whoever was in front of the queue has been placed, and nobody has been released yet. -/
theorem isQueued_popped {rank position : Nat} {rest : List QueueEntry}
    (queue : placing.ready = (rank, position) :: rest) (placed : List Bool) :
    IsQueued priorities
      { placing with ready := rest, placed := placed, order := placing.order ++ [position] } := by
  have isQueued := sound.isQueued
  have isQueue := isQueued.isQueue
  rw [queue] at isQueue
  have apart := List.nodup_cons.mp isQueue.distinct
  constructor
  case isQueue => exact ⟨(List.pairwise_cons.mp isQueue.sorted).2, apart.2⟩
  case mem_ready =>
    intro otherRank other
    have front := (isQueued.mem_ready rank position).mp (queue ▸ List.mem_cons_self)
    have before := isQueued.mem_ready otherRank other
    rw [queue, List.mem_cons] at before
    simp only [List.mem_append, List.mem_singleton]
    grind
  case settled =>
    intro other mem
    cases List.mem_append.mp mem with
    | inl earlier => exact isQueued.settled other earlier
    | inr last =>
        rw [List.mem_singleton.mp last]
        exact ((isQueued.mem_ready rank position).mp (queue ▸ List.mem_cons_self)).2.1

/-- Placing the node in front of the queue keeps everything in step. -/
theorem place {rank position : Nat} {rest : List QueueEntry}
    (queue : placing.ready = (rank, position) :: rest) :
    IsSound priorities predecessors
      (placing.place priorities (successors predecessors) position rest) := by
  have isNext := sound.isNext queue
  have order : (placing.place priorities (successors predecessors) position rest).order =
      placing.order ++ [position] := (unchanged_foldl_release _).1
  constructor
  case isQueued => exact (sound.isQueued_popped queue _).foldl_release _
  case counts =>
    rw [order]
    apply List.ext_getElem?
    intro place
    rw [Placing.place, waiting_foldl_release, count_successors place isNext.isFree.inside,
      sound.counts, List.getElem?_map, List.getElem?_map, List.getD_eq_getElem?_getD]
    cases predecessors[place]? with
    | none => rfl
    | some waitsFor =>
        have := countP_left_add_count isNext.isFree.left waitsFor
        simp only [Option.map_some, Option.getD_some, Option.some_inj]
        omega
  case flags =>
    rw [order, Placing.place, (unchanged_foldl_release _).2, sound.flags]
    apply List.ext_getElem (by simp)
    intro place _ _
    by_cases same : position = place
    · simp [same]
    · simp [same, Ne.symm same]
  case distinct =>
    rw [order, ← List.concat_eq_append]
    exact (List.nodup_concat _ _).mpr ⟨isNext.isFree.left, sound.distinct⟩
  case greedy =>
    rw [order]
    exact forall_take_concat sound.greedy isNext

end IsSound

/-! ## The whole run -/

theorem isQueue_foldl_enqueue {positions : List Nat} (distinct : positions.Nodup)
    {queue : List QueueEntry} (isQueue : QueueEntry.IsQueue queue)
    (fresh : ∀ entry ∈ queue, entry.2 ∉ positions) :
    QueueEntry.IsQueue (positions.foldl (fun queue position =>
      QueueEntry.enqueue (priorities.getD position 0, position) queue) queue) := by
  induction positions generalizing queue with
  | nil => exact isQueue
  | cons position rest induction =>
      have apart := List.nodup_cons.mp distinct
      apply induction apart.2
      · exact isQueue.enqueue fun mem => fresh _ mem List.mem_cons_self
      · intro entry mem later
        cases QueueEntry.mem_enqueue.mp mem with
        | inl same =>
            rw [same] at later
            exact apart.1 later
        | inr earlier => exact fresh entry earlier (List.mem_cons_of_mem _ later)

theorem mem_foldl_enqueue {rank place : Nat} {positions : List Nat} {queue : List QueueEntry} :
    (rank, place) ∈ positions.foldl (fun queue position =>
      QueueEntry.enqueue (priorities.getD position 0, position) queue) queue ↔
        (rank = priorities.getD place 0 ∧ place ∈ positions) ∨ (rank, place) ∈ queue := by
  induction positions generalizing queue with
  | nil => simp
  | cons position rest induction =>
      rw [List.foldl_cons, induction, QueueEntry.mem_enqueue, List.mem_cons]
      grind

theorem isSound_start (priorities : List Nat) (predecessors : List (List Nat)) :
    IsSound priorities predecessors (start priorities predecessors) := by
  constructor
  case isQueued =>
    constructor
    case isQueue =>
      apply isQueue_foldl_enqueue (List.nodup_range.filter _) ⟨.nil, .nil⟩
      intro entry mem
      cases mem
    case mem_ready =>
      intro rank position
      rw [start, mem_foldl_enqueue]
      by_cases inside : position < predecessors.length
      · simp [inside, List.getD_eq_getElem?_getD]
      · simp [inside]
    case settled =>
      intro position mem
      cases mem
  case counts =>
    rw [start]
    apply List.map_congr_left
    intro waitsFor _
    simp
  case flags =>
    apply List.ext_getElem (by simp [start])
    simp [start]
  case distinct => exact .nil
  case greedy =>
    intro count position found
    cases found

/-- A run places nodes until none is left that could come next. -/
theorem isSound_placeAll (sound : IsSound priorities predecessors placing) :
    IsSound priorities predecessors (placeAll priorities (successors predecessors) placing) ∧
      (placeAll priorities (successors predecessors) placing).ready = [] := by
  induction placing using placeAll.induct priorities (successors predecessors) with
  | case1 placing empty =>
      have stops : placeAll priorities (successors predecessors) placing = placing := by
        rw [placeAll]
        split
        · rfl
        · rename_i queue
          cases empty.symm.trans queue
      rw [stops]
      exact ⟨sound, empty⟩
  | case2 placing rank position rest queue induction =>
      have goesOn : placeAll priorities (successors predecessors) placing =
          placeAll priorities (successors predecessors)
            (placing.place priorities (successors predecessors) position rest) := by
        rw [placeAll]
        split
        · rename_i empty
          cases queue.symm.trans empty
        · rename_i same
          cases queue.symm.trans same
          rfl
      rw [goesOn]
      exact induction (sound.place queue)

theorem isSound_ofPredecessors (priorities : List Nat) (predecessors : List (List Nat)) :
    IsSound priorities predecessors (ofPredecessors priorities predecessors) :=
  (isSound_placeAll (isSound_start priorities predecessors)).1

/-- Every node that is left over waits for another one that has not been placed. -/
theorem exists_left_of_left {position : Nat} (inside : position < predecessors.length)
    (left : position ∉ (ofPredecessors priorities predecessors).order) :
    ∃ place ∈ predecessors.getD position [],
      place ∉ (ofPredecessors priorities predecessors).order := by
  have run := isSound_placeAll (isSound_start priorities predecessors)
  by_contra none
  have isFree : IsFree predecessors (ofPredecessors priorities predecessors).order position := by
    refine ⟨inside, left, fun place mem => ?_⟩
    by_contra stays
    exact none ⟨place, mem, stays⟩
  have waits := run.1.mem_ready_iff.mpr ⟨rfl, isFree⟩
  rw [run.2] at waits
  cases waits

end Placing

end FlowPlan
