import FlowPlan.Proofs.Nodes

/-! # What the closure over reads adds

The closure keeps every node, gives it the steps that its conditions read as
dependencies, and puts the steps it pulls in behind them. A pulled-in step was
read by a node before it.
-/

namespace FlowPlan

namespace Node

def pulledIn (action : Step) : Node := { step := action, unconditional := true }

/-- The actions among `actions` that no node stands for yet. -/
def missing (nodes : List Node) (actions : List Step) : List Step :=
  actions.filter fun action => !hasKey nodes action.key

/-- Goes through the pending nodes in order and puts those that their conditions pull in behind
them. -/
def closeOverReads (settled pending : List Node) : List Node :=
  match pending with
  | [] => settled
  | node :: rest =>
    let read := node.readActions
    let fresh := missing (settled ++ node :: rest) read
    closeOverReads (settled ++ [(read.map Step.key).foldl addDependency node])
      (rest ++ fresh.map pulledIn)
termination_by total size pending
decreasing_by
  have shorter := sizes_readActions_lt node
  have sublist := sizes_le_of_sublist
    (show (missing (settled ++ node :: rest) node.readActions).Sublist node.readActions from
      List.filter_sublist)
  have pulled (actions : List Step) : total size (actions.map pulledIn) = sizes actions := by
    rw [total_map]
    exact congrArg (total · actions) (funext fun action => Nat.zero_add (sizeOf action))
  simp only [total_append, total_cons] at *
  rw [pulled]
  omega

/-- The node with the steps that its conditions read among its dependencies. -/
def withReads (node : Node) : Node := (node.readActions.map Step.key).foldl addDependency node

theorem addDependencies_eq (targets : List Nat) (node : Node) :
    targets.foldl addDependency node =
      { node with dependencies := targets.foldl addOnce node.dependencies } := by
  induction targets generalizing node with
  | nil => rfl
  | cons head tail induction => exact induction (node.addDependency head)

theorem mem_addOnce {members : List Nat} {key member : Nat} :
    member ∈ addOnce members key ↔ member ∈ members ∨ member = key := by
  rw [addOnce]
  split
  · rename_i present
    have keyMem := List.contains_iff_mem.mp present
    exact ⟨Or.inl, fun either => either.elim id fun equal => equal ▸ keyMem⟩
  · simp

theorem sameDemand_addDependencies (targets : List Nat) (node : Node) :
    SameDemand node (targets.foldl addDependency node) := by
  induction targets generalizing node with
  | nil => exact SameDemand.refl node
  | cons head tail induction =>
      exact (node.sameDemand_addDependency head).trans (induction (node.addDependency head))

theorem sameDemand_withReads (node : Node) : SameDemand node node.withReads :=
  sameDemand_addDependencies _ node

theorem mem_addDependencies {targets : List Nat} {node : Node} {target : Nat} :
    target ∈ (targets.foldl addDependency node).dependencies ↔
      target ∈ node.dependencies ∨ target ∈ targets := by
  induction targets generalizing node with
  | nil => simp
  | cons head tail induction =>
      rw [List.foldl_cons, induction, List.mem_cons, ← or_assoc]
      exact or_congr_left mem_addOnce

theorem mem_dependencies_withReads {node : Node} {action : Step} (mem : action ∈ node.readActions) :
    action.key ∈ node.withReads.dependencies :=
  mem_addDependencies.mpr (Or.inr (List.mem_map_of_mem mem))

theorem keys_withReads (nodes : List Node) :
    (nodes.map withReads).map Node.key = nodes.map Node.key := by
  rw [List.map_map]
  exact List.map_congr_left fun node _ => (sameDemand_withReads node).key

theorem keys_pulledIn (actions : List Step) :
    (actions.map pulledIn).map Node.key = actions.map Step.key := by
  rw [List.map_map]
  rfl

/-- Every step that the condition of a node reads is listed, at least by its key. -/
theorem exists_key_mem_readActions {node : Node} {action : Step}
    (mem : action ∈ (node.contexts ++ node.step.ownCondition?.toList).flatMap Condition.readActions)
    (other : action.key ≠ node.key) : action.key ∈ node.readActions.map Step.key := by
  have spreads : ∀ left right : Step, left.same right = true → right.key = action.key →
      left.key = action.key :=
    fun left right same equal => (of_decide_eq_true same).trans equal
  rcases exists_mem_distinctBy spreads mem rfl with ⟨kept, keptMem, equal⟩
  refine List.mem_map.mpr ⟨kept, List.mem_filter.mpr ⟨keptMem, ?_⟩, equal⟩
  have apart : kept.same node.step = false := decide_eq_false (equal ▸ other)
  rw [apart]
  rfl

theorem mem_of_mem_readActions {node : Node} {action : Step} (mem : action ∈ node.readActions) :
    action ∈ (node.contexts ++ node.step.ownCondition?.toList).flatMap Condition.readActions :=
  mem_of_mem_distinctBy (List.mem_filter.mp mem).1

theorem nodup_keys_readActions (node : Node) : (node.readActions.map Step.key).Nodup := by
  rw [List.Nodup, List.pairwise_map]
  apply List.Pairwise.filter
  apply (pairwise_distinctBy Step.same _).imp
  intro left right apart
  exact of_decide_eq_false apart

/-! ## The pulled-in steps -/

/-- The closure over the reads of the pending nodes pulls in these steps. -/
structure Pulls (settled pending : List Node) (pulled : List Step) : Prop where
  result : closeOverReads settled pending =
    settled ++ (pending ++ pulled.map pulledIn).map withReads
  distinct : ((settled ++ (pending ++ pulled.map pulledIn)).map Node.key).Nodup
  covered : ∀ node ∈ pending ++ pulled.map pulledIn, ∀ action ∈ node.readActions,
    action.key ∈ (settled ++ (pending ++ pulled.map pulledIn)).map Node.key
  traced : ∀ property : Step → Prop,
    (∀ node ∈ pending, ∀ action ∈ node.readActions, property action) →
    (∀ action, property action → ∀ read ∈ (pulledIn action).readActions, property read) →
    ∀ action ∈ pulled, property action

/-- The steps that one node pulls in are new and have different keys. -/
theorem nodup_keys_missing {nodes : List Node} (distinct : (nodes.map Node.key).Nodup)
    (node : Node) :
    ((nodes ++ (missing nodes node.readActions).map pulledIn).map Node.key).Nodup := by
  rw [List.map_append, keys_pulledIn, List.nodup_append]
  refine ⟨distinct, ?_, ?_⟩
  · exact (nodup_keys_readActions node).sublist (List.filter_sublist.map Step.key)
  · intro key keyMem other otherMem equal
    rcases List.mem_map.mp otherMem with ⟨action, mem, actionKey⟩
    have absent := (List.mem_filter.mp mem).2
    rw [hasKey_iff.mpr (actionKey.trans equal.symm ▸ keyMem)] at absent
    cases absent

/-- The induction follows the closure: each step settles one node and makes what it pulls in
pending. -/
theorem exists_pulls (settled pending : List Node)
    (distinct : ((settled ++ pending).map Node.key).Nodup) :
    ∃ pulled, Pulls settled pending pulled := by
  induction settled, pending using closeOverReads.induct with
  | case1 settled =>
      refine ⟨[], ?_, ?_, ?_, ?_⟩
      · rw [closeOverReads]
        simp
      · simpa using distinct
      · intro node mem
        cases mem
      · intro property _ _ action mem
        cases mem
  | case2 settled node rest read fresh induction =>
      let others := rest ++ fresh.map pulledIn
      have sameKeys : (settled ++ [node.withReads] ++ others).map Node.key =
          (settled ++ node :: rest ++ fresh.map pulledIn).map Node.key := by
        simp [others, (sameDemand_withReads node).key]
      have stillDistinct : ((settled ++ [node.withReads] ++ others).map Node.key).Nodup := by
        rw [sameKeys]
        exact nodup_keys_missing distinct node
      rcases induction stillDistinct with ⟨later, laterPulls⟩
      have pulls : Pulls (settled ++ [node.withReads]) others later := laterPulls
      have allKeys : (settled ++ [node.withReads] ++ (others ++ later.map pulledIn)).map Node.key =
          (settled ++ (node :: rest ++ (fresh ++ later).map pulledIn)).map Node.key := by
        simp [others, (sameDemand_withReads node).key]
      refine ⟨fresh ++ later, ?_, ?_, ?_, ?_⟩
      · rw [closeOverReads]
        apply pulls.result.trans
        simp [others]
      · rw [← allKeys]
        exact pulls.distinct
      · intro reader mem action actionMem
        rw [← allKeys]
        rcases List.mem_cons.mp mem with rfl | mem
        · by_cases present : action.key ∈ (settled ++ reader :: rest).map Node.key
          · rw [allKeys]
            simp only [List.map_append, List.map_cons, List.mem_append, List.mem_cons] at present ⊢
            rcases present with old | old | old
            · exact Or.inl old
            · exact Or.inr (Or.inl (Or.inl old))
            · exact Or.inr (Or.inl (Or.inr old))
          · have isFresh : action ∈ fresh := by
              apply List.mem_filter.mpr ⟨actionMem, _⟩
              rw [Bool.eq_false_iff.mpr (mt hasKey_iff.mp present)]
              rfl
            have pulledMem : pulledIn action ∈ others :=
              List.mem_append_right _ (List.mem_map_of_mem isFresh)
            exact List.mem_map.mpr ⟨pulledIn action,
              List.mem_append_right _ (List.mem_append_left _ pulledMem), rfl⟩
        · apply pulls.covered reader _ action actionMem
          simpa [others, or_assoc] using mem
      · intro property start spreads action mem
        have freshHas : ∀ first ∈ fresh, property first := fun first firstMem =>
          start node List.mem_cons_self first (List.mem_filter.mp firstMem).1
        rcases List.mem_append.mp mem with mem | mem
        · exact freshHas action mem
        · apply pulls.traced property _ spreads action mem
          intro reader readerMem read readMem
          rcases List.mem_append.mp readerMem with readerMem | readerMem
          · exact start reader (List.mem_cons_of_mem node readerMem) read readMem
          · rcases List.mem_map.mp readerMem with ⟨first, firstMem, rfl⟩
            exact spreads first (freshHas first firstMem) read readMem

end Node

end FlowPlan
