import FlowPlan.Proofs.ItemGraph
import Mathlib.Data.ENat.Lattice
import Mathlib.Logic.Relation

/-! # Priorities

While the ranks are lowered for one root, what a node depends on has no greater
rank than the node itself, or is still pending. So when nothing is pending any
more, the nodes up to any rank are closed under the dependencies, and leaving
alone what has a rank already loses nothing: a node has the rank of the first
root that leads to it.
-/

namespace FlowPlan

namespace Ranks

variable {dependencies roots : List (List Nat)}

/-- Nodes are given by their places. -/
def DependsOn (dependencies : List (List Nat)) (dependent target : Nat) : Prop :=
  target ∈ dependencies.getD dependent []

/-- One of the starts leads to the node along dependencies. -/
def Leads (dependencies : List (List Nat)) (starts : List Nat) (position : Nat) : Prop :=
  ∃ start ∈ starts, Relation.ReflTransGen (DependsOn dependencies) start position

/-! ## Lowering -/

/-- What holds while the ranks are lowered for a root: no rank is too low, no root before it has
been forgotten, and what has been lowered has not left anything behind that is not pending. -/
structure IsRanked (dependencies roots : List (List Nat)) (rank : Nat)
    (root pending ranks : List Nat) :
    Prop where
  length : ranks.length = dependencies.length
  reached : ∀ position < dependencies.length, ranks.getD position 0 = roots.length ∨
    ∃ first, roots[ranks.getD position 0]? = some first ∧ Leads dependencies first position
  led : ∀ position ∈ pending, Leads dependencies root position
  starts : ∀ position ∈ root, ranks.getD position 0 ≤ rank ∨ position ∈ pending
  earlier : ∀ before < rank, ∀ first, roots[before]? = some first →
    ∀ position ∈ first, ranks.getD position 0 ≤ before
  closed : ∀ position target, DependsOn dependencies position target →
    ranks.getD target 0 ≤ ranks.getD position 0 ∨
      ranks.getD position 0 = rank ∧ target ∈ pending

namespace IsRanked

variable {rank position : Nat} {root rest ranks : List Nat}
  (isRanked : IsRanked dependencies roots rank root (position :: rest) ranks)

include isRanked

theorem skip (low : ranks.getD position 0 ≤ rank) :
    IsRanked dependencies roots rank root rest ranks where
  length := isRanked.length
  reached := isRanked.reached
  led place mem := isRanked.led place (List.mem_cons_of_mem position mem)
  starts place mem := by
    have := isRanked.starts place mem
    grind
  earlier := isRanked.earlier
  closed place target depends := by
    have := isRanked.closed place target depends
    grind

theorem lower (isRoot : roots[rank]? = some root) (high : rank < ranks.getD position 0) :
    IsRanked dependencies roots rank root
      ((dependencies.getD position []).reverse ++ rest) (ranks.set position rank) := by
  have inside : position < ranks.length := by
    by_contra beyond
    rw [List.getD_eq_getElem?_getD, List.getElem?_eq_none (by omega)] at high
    exact absurd high (Nat.not_lt_zero rank)
  have lowered (place : Nat) : (ranks.set position rank).getD place 0 =
      if place = position then rank else ranks.getD place 0 := by
    by_cases same : place = position
    · simp [same, inside, List.getD_eq_getElem?_getD]
    · simp [same, List.getD_eq_getElem?_getD, List.getElem?_set_ne (Ne.symm same)]
  constructor
  case length => rw [List.length_set, isRanked.length]
  case reached =>
    intro place bound
    rw [lowered]
    split
    · rename_i same
      exact .inr ⟨root, isRoot, isRanked.led place (same ▸ List.mem_cons_self)⟩
    · exact isRanked.reached place bound
  case led =>
    intro place mem
    cases List.mem_append.mp mem with
    | inl isTarget =>
        rcases isRanked.led position List.mem_cons_self with ⟨start, startMem, path⟩
        exact ⟨start, startMem, path.tail (List.mem_reverse.mp isTarget)⟩
    | inr later => exact isRanked.led place (List.mem_cons_of_mem position later)
  case starts =>
    intro place mem
    have := isRanked.starts place mem
    rw [lowered]
    grind
  case earlier =>
    intro before less first isFirst place mem
    have := isRanked.earlier before less first isFirst place mem
    rw [lowered]
    grind
  case closed =>
    intro place target depends
    have := isRanked.closed place target depends
    rw [lowered, lowered]
    rw [DependsOn] at depends
    grind

end IsRanked

/-- Lowering goes on until nothing is pending. -/
theorem isRanked_lower {rank : Nat} {root pending ranks : List Nat}
    (isRoot : roots[rank]? = some root)
    (isRanked : IsRanked dependencies roots rank root pending ranks) :
    IsRanked dependencies roots rank root [] (lower dependencies rank pending ranks) := by
  induction pending, ranks using lower.induct dependencies rank with
  | case1 ranks =>
      rw [lower]
      exact isRanked
  | case2 ranks position rest high induction =>
      rw [lower, dif_pos high]
      exact induction (isRanked.lower isRoot high)
  | case3 ranks position rest low induction =>
      rw [lower, dif_neg low]
      exact induction (isRanked.skip (Nat.le_of_not_lt low))

/-! ## One root after another -/

theorem isRanked_foldl (later : List (List Nat)) (rank : Nat) {ranks : List Nat}
    (isLater : roots.drop rank = later)
    (isRanked : IsRanked dependencies roots rank [] [] ranks) :
    IsRanked dependencies roots (rank + later.length) [] []
      ((later.zipIdx rank).foldl
        (fun ranks (root, rank) => lower dependencies rank root.reverse ranks) ranks) := by
  induction later generalizing rank ranks with
  | nil => exact isRanked
  | cons root later induction =>
      have isRoot : roots[rank]? = some root := by
        rw [← List.head?_drop, isLater, List.head?_cons]
      have started : IsRanked dependencies roots rank root root.reverse ranks :=
        { isRanked with
          led := fun position mem => ⟨position, List.mem_reverse.mp mem, .refl⟩
          starts := fun position mem => .inr (List.mem_reverse.mpr mem)
          closed := fun position target depends =>
            .inl ((isRanked.closed position target depends).resolve_right (by simp)) }
      have done := isRanked_lower isRoot started
      have next : roots.drop (rank + 1) = later := by
        rw [← List.drop_drop, isLater, List.drop_one, List.tail_cons]
      have settled : IsRanked dependencies roots (rank + 1) [] []
          (lower dependencies rank root.reverse ranks) :=
        { done with
          led := fun _ mem => nomatch mem
          starts := fun _ mem => nomatch mem
          earlier := by
            intro before less first isFirst position mem
            by_cases same : before = rank
            · subst same
              cases isRoot.symm.trans isFirst
              exact (done.starts position mem).resolve_right (by simp)
            · exact done.earlier before (by omega) first isFirst position mem
          closed := fun position target depends =>
            .inl ((done.closed position target depends).resolve_right (by simp)) }
      have whole := induction (rank + 1) next settled
      rw [List.zipIdx_cons, List.foldl_cons, List.length_cons, Nat.add_comm later.length,
        ← Nat.add_assoc]
      exact whole

theorem isRanked_ofRoots (dependencies roots : List (List Nat)) :
    IsRanked dependencies roots roots.length [] [] (ofRoots dependencies roots) := by
  have initial (position : Nat) : (List.replicate dependencies.length roots.length).getD position 0 =
      if position < dependencies.length then roots.length else 0 := by
    by_cases inside : position < dependencies.length <;>
      simp [List.getD_eq_getElem?_getD, inside]
  have start : IsRanked dependencies roots 0 [] []
      (List.replicate dependencies.length roots.length) := by
    constructor
    case length => exact List.length_replicate
    case reached =>
      intro position inside
      rw [initial, if_pos inside]
      exact .inl rfl
    case led => exact fun _ mem => nomatch mem
    case starts => exact fun _ mem => nomatch mem
    case earlier => exact fun before less => absurd less (Nat.not_lt_zero before)
    case closed =>
      intro position target depends
      by_cases inside : position < dependencies.length
      · rw [initial, initial, if_pos inside]
        grind
      · rw [DependsOn, List.getD_eq_getElem?_getD, List.getElem?_eq_none (by omega)] at depends
        cases depends
  have whole := isRanked_foldl roots 0 List.drop_zero start
  rwa [Nat.zero_add] at whole

theorem getD_le_of_leads {position before : Nat} {root ranks : List Nat}
    (isRanked : IsRanked dependencies roots roots.length [] [] ranks)
    (isRoot : roots[before]? = some root) (leads : Leads dependencies root position) :
    ranks.getD position 0 ≤ before := by
  rcases leads with ⟨start, startMem, path⟩
  have less := (List.getElem?_eq_some_iff.mp isRoot).1
  induction path with
  | refl => exact isRanked.earlier before less root isRoot start startMem
  | tail _ depends induction =>
      exact ((isRanked.closed _ _ depends).resolve_right (by simp)).trans induction

open Classical in
/-- A node has the rank of the first root that leads to it. -/
theorem getD_ofRoots {position : Nat} (inside : position < dependencies.length) :
    (ofRoots dependencies roots).getD position 0 =
      roots.findIdx fun root => decide (Leads dependencies root position) := by
  have isRanked := isRanked_ofRoots dependencies roots
  generalize ofRoots dependencies roots = ranks at isRanked
  have atMost : roots.findIdx (fun root => decide (Leads dependencies root position)) ≤
      roots.length := List.findIdx_le_length
  apply le_antisymm
  · by_cases found : roots.findIdx (fun root => decide (Leads dependencies root position)) <
        roots.length
    · have leads := of_decide_eq_true (List.findIdx_getElem (w := found))
      exact getD_le_of_leads isRanked (List.getElem?_eq_getElem found) leads
    · cases isRanked.reached position inside with
      | inl none => omega
      | inr some =>
          rcases some with ⟨root, isRoot, _⟩
          have := (List.getElem?_eq_some_iff.mp isRoot).1
          omega
  · cases isRanked.reached position inside with
    | inl none => omega
    | inr some =>
        rcases some with ⟨root, isRoot, leads⟩
        rcases List.getElem?_eq_some_iff.mp isRoot with ⟨bound, rfl⟩
        by_contra beyond
        have excluded := List.not_of_lt_findIdx (Nat.lt_of_not_le beyond)
        exact absurd leads (of_decide_eq_false excluded)

end Ranks

/-! ## Places and keys -/

namespace Node

/-- A node with the one key was made to depend on the other key. -/
def DependsAmong (nodes : List Node) (dependent target : Nat) : Prop :=
  ∃ node ∈ nodes, node.key = dependent ∧ target ∈ node.dependencies

/-- One of the pending keys leads to the key along dependencies. -/
def LeadsAmong (nodes : List Node) (pending : List Nat) (key : Nat) : Prop :=
  ∃ start ∈ pending, Relation.ReflTransGen (DependsAmong nodes) start key

end Node

namespace Graph

variable {graph : Graph} (indexed : graph.IsIndexed)

include indexed

theorem mem_dependencyPositions {place other : Nat} {node : Node}
    (found : graph.nodes[place]? = some node) :
    Ranks.DependsOn graph.dependencyPositions place other ↔
      ∃ another, graph.nodes[other]? = some another ∧ another.key ∈ node.dependencies := by
  rw [Ranks.DependsOn, dependencyPositions, List.getD_eq_getElem?_getD, List.getElem?_map, found]
  exact indexed.mem_positions_iff

theorem leadsAmong_of_leads {root : List Nat} {place : Nat}
    (leads : Ranks.Leads graph.dependencyPositions (graph.positions root) place) :
    ∃ node, graph.nodes[place]? = some node ∧ Node.LeadsAmong graph.nodes root node.key := by
  rcases leads with ⟨start, startMem, path⟩
  rcases indexed.mem_positions_iff.mp startMem with ⟨first, found, isStart⟩
  induction path with
  | refl => exact ⟨first, found, first.key, isStart, .refl⟩
  | @tail middle last _ depends induction =>
      rcases induction with ⟨node, nodeFound, start, startMem, path⟩
      rcases (mem_dependencyPositions indexed nodeFound).mp depends with
        ⟨target, targetFound, isTarget⟩
      exact ⟨target, targetFound, start, startMem,
        path.tail ⟨node, List.mem_of_getElem? nodeFound, rfl, isTarget⟩⟩

/-- One of the keys leads to a node exactly if one of their places leads to its place. -/
theorem leads_iff {root : List Nat} {place : Nat} {node : Node}
    (found : graph.nodes[place]? = some node) :
    Ranks.Leads graph.dependencyPositions (graph.positions root) place ↔
      Node.LeadsAmong graph.nodes root node.key := by
  constructor
  · intro leads
    rcases leadsAmong_of_leads indexed leads with ⟨other, otherFound, leadsKey⟩
    cases found.symm.trans otherFound
    exact leadsKey
  · intro ⟨start, startMem, path⟩
    generalize isKey : node.key = key at path
    induction path generalizing place node with
    | refl =>
        exact ⟨place, indexed.mem_positions_iff.mpr ⟨node, found, isKey ▸ startMem⟩, .refl⟩
    | tail _ depends induction =>
        rcases depends with ⟨dependent, dependentMem, sameKey, isTarget⟩
        rcases List.mem_iff_getElem?.mp dependentMem with ⟨other, otherFound⟩
        rcases induction otherFound sameKey with ⟨first, firstMem, whole⟩
        exact ⟨first, firstMem, whole.tail
          ((mem_dependencyPositions indexed otherFound).mpr ⟨node, found, isKey ▸ isTarget⟩)⟩

end Graph

/-! ## Ranks -/

open Classical in
/-- The least index of a member of some kind, as far as there is one. -/
theorem iInf_index_eq {α : Type} (members : List α) (kind : α → Prop) :
    (⨅ (index : Nat) (_ : ∃ member, members[index]? = some member ∧ kind member), (index : ℕ∞)) =
      if members.findIdx (fun member => decide (kind member)) < members.length then
        (members.findIdx (fun member => decide (kind member)) : ℕ∞) else ⊤ := by
  split
  · rename_i inside
    have first : kind members[members.findIdx fun member => decide (kind member)] :=
      of_decide_eq_true (List.findIdx_getElem (w := inside))
    apply le_antisymm
    · exact iInf₂_le _ ⟨_, List.getElem?_eq_getElem inside, first⟩
    · apply le_iInf₂
      rintro index ⟨member, found, isKind⟩
      rcases List.getElem?_eq_some_iff.mp found with ⟨bound, rfl⟩
      rw [Nat.cast_le]
      by_contra beyond
      have excluded := List.not_of_lt_findIdx (Nat.lt_of_not_le beyond)
      simp [isKind] at excluded
  · rename_i outside
    apply iInf₂_eq_top.mpr
    rintro index ⟨member, found, isKind⟩
    exact absurd (List.findIdx_lt_length_of_exists
      ⟨member, List.mem_of_getElem? found, decide_eq_true isKind⟩) outside

namespace Graph

variable {items : List Item} {place other : Nat} {node another : Node}
  (found : (ofItems items).nodes[place]? = some node)

/-- An action of the item leads to the node along dependencies. -/
def NeededBy (items : List Item) (item : Item) (key : Nat) : Prop :=
  ∃ leaf ∈ item.step.leaves,
    Relation.ReflTransGen (Node.DependsAmong (ofItems items).nodes) leaf.key key

/-- The index of the first top-level item that needs the node, and infinite if none does. -/
noncomputable def needRank (items : List Item) (key : Nat) : ℕ∞ :=
  ⨅ (index : Nat) (_ : ∃ item, items[index]? = some item ∧ NeededBy items item key), (index : ℕ∞)

include found

open Classical in
/-- The priority of a node is the index of the first item that needs it. -/
theorem priority_eq : (ofItems items).priorities.getD place 0 =
    items.findIdx fun item => decide (NeededBy items item node.key) := by
  have indexed := isIndexed_ofItems items
  have inside : place < (ofItems items).dependencyPositions.length := by
    rw [dependencyPositions, List.length_map]
    exact (List.getElem?_eq_some_iff.mp found).1
  have needed : ∀ item, Ranks.Leads (ofItems items).dependencyPositions
      ((ofItems items).positions (item.step.leaves.map Step.key)) place ↔
        NeededBy items item node.key := by
    intro item
    rw [leads_iff indexed found]
    simp [Node.LeadsAmong, NeededBy]
  have roots : (ofItems items).roots = items.map fun item => item.step.leaves.map Step.key := rfl
  rw [priorities, Ranks.getD_ofRoots inside, roots, List.map_map, List.findIdx_map]
  congr 1
  funext item
  exact decide_eq_decide.mpr (needed item)

theorem needRank_eq :
    needRank items node.key = if (ofItems items).priorities.getD place 0 < items.length then
      ((ofItems items).priorities.getD place 0 : ℕ∞) else ⊤ := by
  rw [priority_eq found]
  exact iInf_index_eq items _

/-- Priorities are compared as ranks are. -/
theorem needRank_le_iff (otherFound : (ofItems items).nodes[other]? = some another) :
    needRank items node.key ≤ needRank items another.key ↔
      (ofItems items).priorities.getD place 0 ≤ (ofItems items).priorities.getD other 0 := by
  have bound : (ofItems items).priorities.getD place 0 ≤ items.length := by
    rw [priority_eq found]
    exact List.findIdx_le_length
  have otherBound : (ofItems items).priorities.getD other 0 ≤ items.length := by
    rw [priority_eq otherFound]
    exact List.findIdx_le_length
  rw [needRank_eq found, needRank_eq otherFound]
  generalize (ofItems items).priorities.getD place 0 = rank,
    (ofItems items).priorities.getD other 0 = otherRank at bound otherBound ⊢
  split <;> split
  · exact Nat.cast_le
  · simp; omega
  · simp; omega
  · simp; omega

end Graph

end FlowPlan
