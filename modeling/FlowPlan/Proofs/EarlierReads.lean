import FlowPlan.Proofs.ItemGraph
import FlowPlan.Proofs.Reads

/-! # Conditions read earlier steps

The own condition of an action is taken as it is. What it reads is a dependency
of the action and stands before it. A context counts only as far as it is known,
and putting its parts together adds no source. Both arguments follow the leaves
of conditions, where no source has been dropped in favour of one with its key.
-/

namespace FlowPlan

open Condition (Closed)

/-- The steps that a job has to do with: its actions, what conditions read, and what is inside
those. -/
inductive Item.Involves (items : List Item) : Step → Prop where
  | met {action : Step} (mem : action ∈ actionsMet items) : Involves items action
  | read {condition leaf : Condition Step} {step : Step} (mem : condition ∈ conditions items)
      (leafMem : leaf ∈ condition.leaves) (reads : .step step ∈ leaf.sources) : Involves items step
  | own {action step : Step} {condition leaf : Condition Step} (involved : Involves items action)
      (mem : condition ∈ action.ownCondition?) (leafMem : leaf ∈ condition.leaves)
      (reads : .step step ∈ leaf.sources) : Involves items step
  | inside {step action : Step} (involved : Involves items step) (mem : action ∈ step.leaves) :
      Involves items action

/-! ## Sources of one kind -/

namespace Condition

variable {property : Step → Prop}

/-- All steps that the leaves of the condition read have the property. -/
def ReadsSteps (property : Step → Prop) : Condition Step → Prop :=
  ReadsOnly fun source => ∀ step, source = .step step → property step

theorem readsSteps_of_leaves {condition : Condition Step}
    (leaves : ∀ leaf ∈ condition.leaves, ∀ step, .step step ∈ leaf.sources → property step) :
    condition.ReadsSteps property := by
  intro leaf leafMem source mem step equal
  exact leaves leaf leafMem step (equal ▸ mem)

theorem ReadsSteps.of_mem_sources {condition : Condition Step}
    (reads : condition.ReadsSteps property) {step : Step}
    (mem : .step step ∈ condition.sources) : property step :=
  ReadsOnly.of_mem_sources reads mem step rfl

theorem mem_readActions {condition : Condition Step} {action : Step} :
    action ∈ condition.readActions ↔
      ∃ step, .step step ∈ condition.sources ∧ action ∈ step.leaves := by
  simp only [readActions, List.mem_flatMap, Sources.mem_steps]

/-- If keys tell steps apart, what is known of the actions in the sources is known of those of all
steps that leaves read. -/
theorem ReadsSteps.throughout {condition : Condition Step} (reads : condition.ReadsSteps property)
    (keys : Step.KeysIdentify property) {known : Step → Prop}
    (each : ∀ action ∈ condition.readActions, known action) :
    condition.ReadsSteps fun step => ∀ action ∈ step.leaves, known action := by
  apply readsSteps_of_leaves
  intro leaf leafMem step mem action actionMem
  rcases exists_key_mem_sources leafMem mem with ⟨kept, keptMem, sameKey⟩
  have same : kept = step :=
    keys kept step (reads.of_mem_sources keptMem) (reads leaf leafMem _ mem step rfl) sameKey
  exact each action (mem_readActions.mpr ⟨step, same ▸ keptMem, actionMem⟩)

theorem ReadsSteps.known {condition : Condition Step} (reads : condition.ReadsSteps property)
    (keys : Step.KeysIdentify property) {placed : List Nat}
    (known : ∀ action ∈ condition.readActions, action.key ∈ placed) :
    condition.ReadsSteps fun step => ∀ action ∈ step.leaves, action.key ∈ placed :=
  reads.throughout keys known

end Condition

/-- Steps are built from the bottom up, so what a step's own condition reads is smaller. -/
theorem Step.sizeOf_lt_of_mem_readActions {step action : Step} {own : Condition Step}
    (found : step.ownCondition? = some own) (mem : action ∈ own.readActions) :
    sizeOf action < sizeOf step := by
  have whole := Node.sizes_ownCondition_lt step
  have readSize := own.sizes_readActions_le
  have actionSize : sizeOf action ≤ Node.sizes own.readActions := by
    have single := Node.sizes_le_of_sublist (List.singleton_sublist.mpr mem)
    simpa [Node.sizes] using single
  rw [found] at whole
  simp only [Option.toList_some, Node.sizes, total_cons, total_nil] at whole readSize actionSize
  omega

namespace Graph

variable {items : List Item}

/-! ## What the nodes have to do with the job -/

theorem readsSteps_of_conditions : ∀ item ∈ Item.walkAll items,
    item.ConditionsAmong (Condition.ReadsSteps (Item.Involves items)) := by
  apply Item.conditionsAmong_of_conditions
  intro condition mem
  apply Condition.readsSteps_of_leaves
  intro leaf leafMem step reads
  exact .read mem leafMem reads

theorem readsSteps_ownCondition {action : Step} (involved : Item.Involves items action) :
    ∀ condition ∈ action.ownCondition?, condition.ReadsSteps (Item.Involves items) := by
  intro condition found
  apply Condition.readsSteps_of_leaves
  intro leaf leafMem step reads
  exact .own involved found leafMem reads

theorem involves_of_mem_readActions {node : Node} (involved : Item.Involves items node.step)
    (contexts : ∀ context ∈ node.contexts, context.ReadsSteps (Item.Involves items)) {action : Step}
    (mem : action ∈ node.readActions) : Item.Involves items action := by
  rcases List.mem_flatMap.mp (Node.mem_of_mem_readActions mem) with ⟨condition, conditionMem, read⟩
  rcases Condition.mem_readActions.mp read with ⟨step, stepMem, inside⟩
  have reads : condition.ReadsSteps (Item.Involves items) := by
    rcases List.mem_append.mp conditionMem with context | own
    · exact contexts condition context
    · exact readsSteps_ownCondition involved condition (Option.mem_toList.mp own)
  exact .inside (reads.of_mem_sources stepMem) inside

/-- What is known of a node from where it comes from. -/
structure IsInvolved (items : List Item) (node : Node) : Prop where
  step : Item.Involves items node.step
  contexts : ∀ context, node.Asks (some context) → context.ReadsSteps (Item.Involves items)
  reads : ∀ condition ∈ node.contexts ++ node.step.ownCondition?.toList,
    ∀ action ∈ condition.readActions, action.key ≠ node.key →
      action.key ∈ node.dependencies ∧ action.key ∈ (ofItems items).nodes.map Node.key

theorem isInvolved_of_mem_nodes {node : Node} (mem : node ∈ (ofItems items).nodes) :
    IsInvolved items node := by
  have fromMet : ∀ {before : Node}, before.IsMet items → Item.Involves items before.step ∧
      ∀ context ∈ before.contexts, context.ReadsSteps (Item.Involves items) := by
    intro before isMet
    refine ⟨.met isMet.mem_actionsMet, fun context asks => ?_⟩
    exact among_of_asks (Condition.closed_readsOnly _) readsSteps_of_conditions isMet asks
  rcases exists_pulls_ofItems items with ⟨pulled, pulls⟩
  have pulledInvolved : ∀ action ∈ pulled, Item.Involves items action := by
    apply pulls.traced
    · intro reader readerMem action read
      have origin := fromMet (isMet_of_mem_ofEncounters readerMem)
      exact involves_of_mem_readActions origin.1 origin.2 read
    · intro action involved read readMem
      exact involves_of_mem_readActions involved (List.forall_mem_nil _) readMem
  rw [nodes_ofItems pulls] at mem
  rcases List.mem_map.mp mem with ⟨before, beforeMem, rfl⟩
  have same := Node.sameDemand_withReads before
  have origin : Item.Involves items before.step ∧
      ∀ context ∈ before.contexts, context.ReadsSteps (Item.Involves items) := by
    rcases List.mem_append.mp beforeMem with visited | pulledMem
    · exact fromMet (isMet_of_mem_ofEncounters visited)
    · rcases List.mem_map.mp pulledMem with ⟨action, actionMem, rfl⟩
      exact ⟨pulledInvolved action actionMem, List.forall_mem_nil _⟩
  constructor
  · rw [same.step]
    exact origin.1
  · intro context asks
    exact origin.2 context ((same.asks (some context)).mp asks)
  · intro condition conditionMem action read other
    rw [same.key] at other
    have inBefore : condition ∈ before.contexts ++ before.step.ownCondition?.toList := by
      rw [← same.step]
      exact List.mem_append.mpr
        ((List.mem_append.mp conditionMem).imp_left (same.asks (some condition)).mp)
    have listed : action ∈ (before.contexts ++ before.step.ownCondition?.toList).flatMap
        Condition.readActions :=
      List.mem_flatMap.mpr ⟨condition, inBefore, read⟩
    rcases List.mem_map.mp (Node.exists_key_mem_readActions listed other) with
      ⟨kept, keptMem, sameKey⟩
    rw [← sameKey, nodes_ofItems pulls, Node.keys_withReads]
    exact ⟨Node.mem_dependencies_withReads keptMem, pulls.covered before beforeMem kept keptMem⟩

/-! ## Conditions at a position -/

/-- Whatever else the conditions of a node read has been placed when the node is. -/
theorem mem_take_of_mem_readActions {order : List Nat} (resolved : (ofItems items).order = .ok order)
    {node : Node} (nodeMem : node ∈ (ofItems items).nodes) {position : Nat}
    (placed : order[position]? = some node.key) {condition : Condition Step}
    (mem : condition ∈ node.contexts ++ node.step.ownCondition?.toList) {action : Step}
    (read : action ∈ condition.readActions) (other : action.key ≠ node.key) :
    action.key ∈ order.take position := by
  rcases (isInvolved_of_mem_nodes nodeMem).reads condition mem action read other with
    ⟨dependency, present⟩
  exact mem_take_of_mem_predecessors resolved (isIndexed_ofItems items) nodeMem placed
    (Node.mem_predecessors.mpr (Or.inl dependency)) present

/-- What the own condition of a node reads has been placed when the node is. -/
theorem known_ownCondition (keys : Step.KeysIdentify (Item.Involves items)) {order : List Nat}
    (resolved : (ofItems items).order = .ok order) {node : Node}
    (nodeMem : node ∈ (ofItems items).nodes) {position : Nat}
    (placed : order[position]? = some node.key) {own : Condition Step}
    (found : node.step.ownCondition? = some own) :
    ∀ action ∈ own.readActions, action.key ∈ order.take position := by
  intro action read
  have isInvolved := isInvolved_of_mem_nodes nodeMem
  have actionInvolved : Item.Involves items action := by
    rcases Condition.mem_readActions.mp read with ⟨step, stepMem, inside⟩
    have reads := readsSteps_ownCondition isInvolved.step own found
    exact .inside (reads.of_mem_sources stepMem) inside
  have other : action.key ≠ node.key := by
    intro sameKey
    have smaller := Step.sizeOf_lt_of_mem_readActions found read
    rw [keys action node.step actionInvolved isInvolved.step sameKey] at smaller
    exact Nat.lt_irrefl _ smaller
  exact mem_take_of_mem_readActions resolved nodeMem placed
    (List.mem_append_right _ (Option.mem_toList.mpr found)) read other

/-- All steps that the condition at a position reads, other than that of a declared action, come
down to actions at earlier positions. -/
theorem run_conditions_read_earlier (keys : Step.KeysIdentify (Item.Involves items))
    {order : List Nat} (resolved : (ofItems items).order = .ok order) {position key : Nat}
    (placed : order[position]? = some key) (undeclared : ¬ ∃ item ∈ items, item.Declares key)
    {condition : Condition Step}
    (runs : ((ofItems items).runConditions [] order)[position]? = some (some condition))
    {step : Step} (read : .step step ∈ condition.sources) :
    ∀ action ∈ step.leaves, ∃ earlier < position, order[earlier]? = some action.key := by
  let known : Condition Step → Prop :=
    Condition.ReadsSteps fun step => ∀ action ∈ step.leaves, action.key ∈ order.take position
  have closed : Closed known := Condition.closed_readsOnly _
  rw [getElem?_runConditions, placed, Option.map_some, List.nil_append] at runs
  rcases Option.bind_eq_some_iff.mp (Option.some.inj runs) with ⟨node, found, nodeRuns⟩
  rcases mem_of_node?_eq_some found with ⟨nodeMem, rfl⟩
  rw [runCondition_of_undeclared (declared?_ofItems_eq_none.mpr undeclared)] at nodeRuns
  have isInvolved := isInvolved_of_mem_nodes nodeMem
  have demandKnown : ∀ part ∈ demand (order.take position) node, known part := by
    apply among_demand closed
    intro context asks operand operandMem operandKnown
    have operandReads : operand.ReadsSteps (Item.Involves items) :=
      (Condition.splits_over _).of_mem_operands .and (isInvolved.contexts context asks) operandMem
    apply operandReads.known keys
    intro action actionMem
    simpa using List.all_eq_true.mp operandKnown action actionMem
  have ownKnown : ∀ own ∈ node.step.ownCondition?, known own := by
    intro own ownFound
    exact (readsSteps_ownCondition isInvolved.step own ownFound).known keys
      (known_ownCondition keys resolved nodeMem placed ownFound)
  have conditionKnown : known condition :=
    Condition.among_narrowedBy closed demandKnown ownKnown condition nodeRuns
  intro action actionMem
  have inTake := Condition.ReadsSteps.of_mem_sources conditionKnown read action actionMem
  rcases List.mem_iff_getElem?.mp inTake with ⟨earlier, atEarlier⟩
  rw [List.getElem?_take] at atEarlier
  split at atEarlier
  · exact ⟨earlier, ‹_›, atEarlier⟩
  · cases atEarlier

end Graph

/-! ## A job with a publication that reads a check and a build -/

namespace Sample

def check : Step := .action 1 (some "check") [] {} []

def prepare : Step := .action 2 (some "prepare") [] {} []

/-- The outcome of a step is what a condition expects. -/
def succeeded (step : Step) (path : String) : Condition Step :=
  .comparison path.toList .equal (.string "success".toList) [.step step]

def publish : Step :=
  .action 3 none [] { condition := some (succeeded prepare "steps.prepare.outcome") } []

def publication : Step :=
  .group 4 none [] none [.place publish (some (succeeded check "steps.check.outcome")) [] []]

def publicationItems : List Item := [.ofStep publication]

theorem eq_of_succeeded {step read : Step} {path : String} {leaf : Condition Step}
    (leafMem : leaf ∈ (succeeded step path).leaves) (reads : .step read ∈ leaf.sources) :
    read = step := by
  cases List.mem_singleton.mp leafMem
  cases List.mem_singleton.mp reads
  rfl

theorem mem_of_involves {step : Step} (involved : Item.Involves publicationItems step) :
    step ∈ [check, prepare, publish] := by
  induction involved with
  | met mem => exact List.mem_cons_of_mem _ (List.mem_cons_of_mem _ mem)
  | read mem leafMem reads =>
      have listed : Item.conditions publicationItems =
          [succeeded check "steps.check.outcome", succeeded prepare "steps.prepare.outcome"] := rfl
      rw [listed, List.mem_cons, List.mem_singleton] at mem
      rcases mem with rfl | rfl
      · rw [eq_of_succeeded leafMem reads]
        exact List.mem_cons_self
      · rw [eq_of_succeeded leafMem reads]
        exact List.mem_cons_of_mem _ List.mem_cons_self
  | own involved mem leafMem reads induction =>
      rw [List.mem_cons, List.mem_cons, List.mem_singleton] at induction
      rcases induction with rfl | rfl | rfl
      · cases mem
      · cases mem
      · cases mem
        rw [eq_of_succeeded leafMem reads]
        exact List.mem_cons_of_mem _ List.mem_cons_self
  | inside involved mem induction =>
      rw [List.mem_cons, List.mem_cons, List.mem_singleton] at induction
      rcases induction with rfl | rfl | rfl
      · exact List.mem_cons.mpr (Or.inl (List.mem_singleton.mp mem))
      · exact List.mem_cons_of_mem _ (List.mem_cons.mpr (Or.inl (List.mem_singleton.mp mem)))
      · exact List.mem_cons_of_mem _ (List.mem_cons_of_mem _ mem)

theorem publication_resolved : (Graph.ofItems publicationItems).order = .ok [1, 2, 3] := by
  decide +kernel

theorem run_conditions_read_earlier_sample :
    ∃ condition : Condition Step,
      ((Graph.ofItems publicationItems).runConditions [] [1, 2, 3])[2]? = some (some condition) ∧
      .step check ∈ condition.sources ∧ .step prepare ∈ condition.sources ∧
      (∃ earlier < 2, [1, 2, 3][earlier]? = some check.key) ∧
      ∃ earlier < 2, [1, 2, 3][earlier]? = some prepare.key := by
  have keys : Step.KeysIdentify (Item.Involves publicationItems) :=
    Step.keysIdentify_of_nodup (fun _ involved => mem_of_involves involved) (by decide)
  let condition : Condition Step := .joined .and
    (succeeded check "steps.check.outcome") (succeeded prepare "steps.prepare.outcome")
  have runs : ((Graph.ofItems publicationItems).runConditions [] [1, 2, 3])[2]? =
      some (some condition) := by
    with_unfolding_all rfl
  have undeclared : ¬ ∃ item ∈ publicationItems, item.Declares publish.key := by decide
  have readsCheck : .step check ∈ condition.sources := List.mem_cons_self
  have readsPrepare : .step prepare ∈ condition.sources :=
    List.mem_cons_of_mem _ List.mem_cons_self
  refine ⟨condition, runs, readsCheck, readsPrepare, ?_, ?_⟩
  · exact Graph.run_conditions_read_earlier keys publication_resolved rfl undeclared runs readsCheck
      check List.mem_cons_self
  · exact Graph.run_conditions_read_earlier keys publication_resolved rfl undeclared runs readsPrepare
      prepare List.mem_cons_self

end Sample

end FlowPlan
