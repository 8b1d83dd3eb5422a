import FlowPlan.Graph.Encounter

/-! # Steps that conditions read

A step whose condition reads another step needs that step in the job and before
it. Such steps are pulled in until every condition of the job can be evaluated.
A pulled-in step always runs, and its own condition may pull in more steps;
this ends because a condition is larger than all the steps that it reads.
-/

namespace FlowPlan

namespace Condition

/-- The actions that a condition reads, from left to right. -/
def readActions (condition : Condition Step) : List Step :=
  condition.sources.steps.flatMap Step.leaves

end Condition

namespace Node

/-- The actions other than its own that the conditions of a node read, each once. -/
def readActions (node : Node) : List Step :=
  (distinctBy Step.same
    ((node.contexts ++ node.step.ownCondition?.toList).flatMap Condition.readActions)).filter
      fun action => !action.same node.step

/-! ## Sizes -/

def sizes {α : Type} [SizeOf α] (members : List α) : Nat := total sizeOf members

theorem sizes_append {α : Type} [SizeOf α] (left right : List α) :
    sizes (left ++ right) = sizes left + sizes right :=
  total_append sizeOf left right

theorem sizes_le_of_sublist {α : Type} [SizeOf α] {left right : List α}
    (sublist : left.Sublist right) : sizes left ≤ sizes right :=
  total_le_of_sublist sizeOf sublist

end Node

open Node (sizes sizes_append sizes_le_of_sublist)

mutual

theorem Step.sizes_actions_le : (step : Step) → sizes step.actions ≤ sizeOf step
  | .action .. => by simp [Step.actions, sizes]
  | .group _ _ _ _ children => by
    have := Item.sizes_actionsAll_le children
    simp only [Step.actions, Step.group.sizeOf_spec]
    omega

theorem Item.sizes_actionsAll_le :
    (items : List Item) → sizes (Item.actionsAll items) ≤ sizeOf items
  | [] => by simp [Item.actionsAll, sizes]
  | .place step _ _ _ :: rest => by
    have := Step.sizes_actions_le step
    have := Item.sizes_actionsAll_le rest
    simp only [Item.actionsAll, sizes_append, List.cons.sizeOf_spec, Item.place.sizeOf_spec]
    omega

end

theorem Step.sizes_leaves_le (step : Step) : sizes step.leaves ≤ sizeOf step :=
  Nat.le_trans (sizes_le_of_sublist (distinctBy_sublist _ _)) step.sizes_actions_le

namespace Sources

theorem sizes_insert_le {σ : Type} [Keyed σ] [SizeOf σ] (source : Source σ) (sources : Sources σ) :
    sizes (insert source sources) ≤ sizeOf source + sizes sources := by
  induction sources with
  | nil => simp [insert, sizes]
  | cons head tail induction =>
    unfold insert
    split
    · simp [sizes]
    · split
      · simp only [sizes, total_cons] at *
        omega
      · omega

theorem sizes_union_le {σ : Type} [Keyed σ] [SizeOf σ] (left right : Sources σ) :
    sizes (union left right) ≤ sizes left + sizes right := by
  unfold union
  induction right generalizing left with
  | nil => simp [sizes]
  | cons head tail induction =>
    have := induction (insert head left)
    have := sizes_insert_le head left
    simp only [List.foldl_cons, sizes, total_cons] at *
    omega

theorem sizes_flatMap_leaves_le (sources : Sources Step) :
    sizes (sources.steps.flatMap Step.leaves) ≤ sizes sources := by
  unfold steps
  induction sources with
  | nil => exact Nat.le_refl _
  | cons head tail induction =>
    cases head with
    | step read =>
      have := read.sizes_leaves_le
      simp only [List.filterMap_cons, Source.step?, List.flatMap_cons, sizes_append]
      simp only [sizes, total_cons, Source.step.sizeOf_spec] at *
      omega
    | job id =>
      simp only [List.filterMap_cons, Source.step?]
      simp only [sizes, total_cons] at *
      omega

theorem sizes_le_sizeOf {α : Type} [SizeOf α] (members : List α) :
    sizes members ≤ sizeOf members := by
  induction members with
  | nil => simp [sizes]
  | cons head tail induction =>
    simp only [sizes, total_cons, List.cons.sizeOf_spec] at *
    omega

end Sources

namespace Condition

theorem sizes_sources_le {σ : Type} [Keyed σ] [SizeOf σ] (condition : Condition σ) :
    sizes condition.sources ≤ sizeOf condition := by
  induction condition with
  | comparison _ _ _ sources | call _ _ sources | raw _ sources =>
    have := Sources.sizes_le_sizeOf sources
    simp only [Condition.sources, comparison.sizeOf_spec, call.sizeOf_spec, raw.sizeOf_spec]
    omega
  | negated inner induction =>
    simp only [Condition.sources, negated.sizeOf_spec]
    omega
  | joined _ left right leftInduction rightInduction =>
    have := Sources.sizes_union_le left.sources right.sources
    simp only [Condition.sources, joined.sizeOf_spec]
    omega

theorem sizes_readActions_le (condition : Condition Step) :
    sizes condition.readActions ≤ sizeOf condition :=
  Nat.le_trans (Sources.sizes_flatMap_leaves_le _) condition.sizes_sources_le

end Condition

namespace Node

theorem sizes_flatMap_readActions_le (conditions : List (Condition Step)) :
    sizes (conditions.flatMap Condition.readActions) ≤ sizes conditions := by
  induction conditions with
  | nil => exact Nat.le_refl _
  | cons head tail induction =>
    have := head.sizes_readActions_le
    simp only [List.flatMap_cons, sizes_append]
    simp only [sizes, total_cons] at *
    omega

theorem sizes_ownCondition_lt (step : Step) : sizes step.ownCondition?.toList < sizeOf step := by
  cases step with
  | group =>
    simp only [Step.ownCondition?, Step.action?, Option.bind_none, Option.toList_none, sizes,
      total_nil, Step.group.sizeOf_spec]
    omega
  | action key id outputs content consumes =>
    have own : sizes content.condition.toList ≤ sizeOf content.condition := by
      cases content.condition <;> simp [sizes]
    have inside : sizeOf content.condition < sizeOf content := by
      cases content
      simp only [Action.mk.sizeOf_spec]
      omega
    simp only [Step.ownCondition?, Step.action?, Option.bind_some, Step.action.sizeOf_spec]
    omega

/-- The bound that makes the closure end. -/
noncomputable def size (node : Node) : Nat := sizes node.contexts + sizeOf node.step

theorem sizes_readActions_lt (node : Node) : sizes node.readActions < node.size := by
  have sublist : node.readActions.Sublist
      ((node.contexts ++ node.step.ownCondition?.toList).flatMap Condition.readActions) :=
    List.filter_sublist.trans (distinctBy_sublist Step.same _)
  have := sizes_le_of_sublist sublist
  have := sizes_flatMap_readActions_le (node.contexts ++ node.step.ownCondition?.toList)
  have := sizes_ownCondition_lt node.step
  have := sizes_append node.contexts node.step.ownCondition?.toList
  unfold size
  omega

theorem size_addDependency (node : Node) (key : Nat) : (node.addDependency key).size = node.size :=
  rfl

end Node

/-! ## The closure -/

namespace Arena

/-- Makes the node at a place depend on an action. If there is no node for the action, one is added,
and it always runs. -/
def pullIn (position : Nat) (arena : Arena) (action : Step) : Arena :=
  let (arena, place, added) := arena.ensure action
  let arena := if added then arena.change place (·.addContext none) else arena
  arena.change position (·.addDependency action.key)

/-- The size of the nodes from a place on. -/
noncomputable def remaining (position : Nat) (arena : Arena) : Nat :=
  total Node.size (arena.nodes.drop position)

theorem remaining_change {position place : Nat} {arena : Arena} {changed : Node → Node}
    (same : ∀ node, (changed node).size = node.size) :
    remaining position (arena.change place changed) = remaining position arena := by
  have sizes : (arena.nodes.modify place changed).map Node.size = arena.nodes.map Node.size := by
    apply List.ext_getElem (by simp)
    intro index _ _
    simp only [List.getElem_map, List.getElem_modify]
    split <;> simp [same]
  have bySizes (nodes : List Node) : total Node.size nodes = total id (nodes.map Node.size) :=
    (total_map id Node.size nodes).symm
  rw [remaining, remaining, bySizes, bySizes, List.map_drop, List.map_drop]
  exact congrArg (fun sizes => total id (sizes.drop position)) sizes

theorem remaining_add_le (position : Nat) (arena : Arena) (action : Step) :
    remaining position (arena.add action) ≤ remaining position arena + sizeOf action := by
  have added : total Node.size [{ step := action }] = sizeOf action := by
    simp [Node.size, Node.sizes]
  have sublist : ([{ step := action }].drop (position - arena.nodes.length) : List Node).Sublist
      [{ step := action }] := List.drop_sublist ..
  have := total_le_of_sublist Node.size sublist
  simp only [remaining, add, List.drop_append, total_append]
  omega

theorem remaining_pullIn_le (position place : Nat) (arena : Arena) (action : Step) :
    remaining position (arena.pullIn place action) ≤
      remaining position arena + sizeOf action := by
  rw [pullIn, ensure]
  cases arena.position? action.key with
  | some found =>
    simp only [Bool.false_eq_true, if_false, remaining_change (Node.size_addDependency · _)]
    omega
  | none =>
    have := remaining_add_le position arena action
    have always (node : Node) : (node.addContext none).size = node.size := rfl
    simp only [if_true, remaining_change (Node.size_addDependency · _), remaining_change always]
    exact this

theorem remaining_foldl_pullIn_le (position place : Nat) (arena : Arena) (actions : List Step) :
    remaining position (actions.foldl (pullIn place) arena) ≤
      remaining position arena + Node.sizes actions := by
  induction actions generalizing arena with
  | nil => exact Nat.le_refl _
  | cons action rest induction =>
    have := induction (arena.pullIn place action)
    have := remaining_pullIn_le position place arena action
    simp only [List.foldl_cons, Node.sizes, total_cons] at *
    omega

theorem remaining_eq_add {position : Nat} {arena : Arena} {node : Node}
    (found : arena.nodes[position]? = some node) :
    remaining position arena = node.size + remaining (position + 1) arena := by
  obtain ⟨inside, rfl⟩ := List.getElem?_eq_some_iff.1 found
  rw [remaining, remaining, List.drop_eq_getElem_cons inside, total_cons]

/-- Goes through the nodes from a place on, those that are pulled in on the way included, and pulls
in what their conditions read. -/
def closeOverReads (position : Nat) (arena : Arena) : Arena :=
  match _found : arena.nodes[position]? with
  | none => arena
  | some node => closeOverReads (position + 1) (node.readActions.foldl (pullIn position) arena)
termination_by remaining position arena
decreasing_by
  have := remaining_eq_add _found
  have := remaining_foldl_pullIn_le (position + 1) position arena node.readActions
  have := node.sizes_readActions_lt
  omega

end Arena

namespace Graph

/-- The graph of the items of a job. -/
def ofItems (items : List Item) : Graph where
  toArena := (Arena.ofEncounters (Item.encountersAll [] items)).closeOverReads 0
  roots := items.map fun item => item.step.leaves.map Step.key
  declared := items.foldl DeclaredLeaf.declare []

end Graph

end FlowPlan
