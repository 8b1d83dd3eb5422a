import FlowPlan.Job
import FlowPlan.Proofs.CoveredConditions
import FlowPlan.Proofs.EarlierReads
import FlowPlan.Proofs.Edges

/-! # Covered steps

A step is covered if all conditions that can be come to from it are: those on
the way down to its actions, those of the actions, and those of the steps that
these read. So whatever a job of covered items has to do with is covered, and
every condition that its steps run under.
-/

namespace FlowPlan

open Condition (Closed)

theorem forall_mem_none {α : Type} {property : α → Prop} :
    ∀ member ∈ (none : Option α), property member := by
  intro _ mem
  cases mem

mutual

/-- Only the condition of an action is shown as such: no other field has its name. -/
inductive Step.IsCovered : Step → Prop
  | action {key : Nat} {id : Option String} {outputs : List String} {content : Action Step}
      {consumes : List Step} (plain : content.extra.hasKey (.string "if") = false)
      (own : ∀ condition ∈ content.condition, condition.IsCovered)
      (read : ∀ condition ∈ content.condition, ∀ leaf ∈ condition.leaves,
        ∀ step, .step step ∈ leaf.sources → step.IsCovered) :
      Step.IsCovered (.action key id outputs content consumes)
  | group {key : Nat} {id : Option String} {outputs : List String} {name : Option String}
      {children : List Item} (inside : ∀ child ∈ children, child.IsCovered) :
      Step.IsCovered (.group key id outputs name children)

inductive Item.IsCovered : Item → Prop
  | place {step : Step} {condition : Option (Condition Step)} {dependencies : List Item}
      {predecessors : List Item} (placed : step.IsCovered)
      (own : ∀ stated ∈ condition, stated.IsCovered)
      (read : ∀ stated ∈ condition, ∀ leaf ∈ stated.leaves,
        ∀ step, .step step ∈ leaf.sources → step.IsCovered)
      (behind : ∀ dependency ∈ dependencies, dependency.IsCovered) :
      Item.IsCovered (.place step condition dependencies predecessors)

end

/-- The condition covers what it shows and reads covered steps. -/
def Condition.IsCoveredThroughout (condition : Condition Step) : Prop :=
  condition.IsCovered ∧ condition.ReadsSteps Step.IsCovered

theorem Condition.closed_isCoveredThroughout : Closed Condition.IsCoveredThroughout :=
  closed_isCovered.and (closed_readsOnly _)

namespace Step.IsCovered

theorem lacks_if {step : Step} (covered : step.IsCovered) {content : Action Step}
    (found : step.action? = some content) : content.extra.hasKey (.string "if") = false := by
  cases covered with
  | action plain => cases found; exact plain
  | group => cases found

theorem ownCondition {step : Step} (covered : step.IsCovered) :
    ∀ condition ∈ step.ownCondition?, condition.IsCoveredThroughout := by
  intro condition found
  cases covered with
  | action _ own read =>
      exact ⟨own condition found, Condition.readsSteps_of_leaves (read condition found)⟩
  | group => cases found

theorem children {step : Step} (covered : step.IsCovered) :
    ∀ child ∈ step.children, child.IsCovered := by
  cases covered with
  | action => exact List.forall_mem_nil _
  | group inside => exact inside

end Step.IsCovered

namespace Item.IsCovered

variable {item : Item} (covered : item.IsCovered)

include covered

theorem step : item.step.IsCovered := by
  cases covered with
  | place placed => exact placed

theorem dependencies : ∀ dependency ∈ item.dependencies, dependency.IsCovered := by
  cases covered with
  | place _ _ _ behind => exact behind

theorem condition : ∀ stated ∈ item.condition, stated.IsCoveredThroughout := by
  intro stated found
  cases covered with
  | place _ own read =>
      exact ⟨own stated found, Condition.readsSteps_of_leaves (read stated found)⟩

theorem of_mem_walk {found : Item} (mem : found ∈ item.walk) : found.IsCovered := by
  induction item using Item.induction with
  | walk item childInduction dependencyInduction =>
      rcases mem_walk.mp mem with
        rfl | ⟨child, childMem, inside⟩ | ⟨dependency, dependencyMem, inside⟩
      · exact covered
      · exact childInduction child childMem (covered.step.children child childMem) inside
      · exact dependencyInduction dependency dependencyMem
          (covered.dependencies dependency dependencyMem) inside

theorem of_mem_actions {action : Step} (mem : action ∈ item.step.actions) : action.IsCovered := by
  induction item using Item.induction with
  | walk item childInduction _ =>
      rcases Step.mem_actions.mp mem with ⟨_, rfl⟩ | ⟨child, childMem, inside⟩
      · exact covered.step
      · exact childInduction child childMem (covered.step.children child childMem) inside

end Item.IsCovered

theorem Step.IsCovered.item {step : Step} (covered : step.IsCovered) :
    (Item.ofStep step).IsCovered :=
  .place covered forall_mem_none forall_mem_none (List.forall_mem_nil _)

theorem Step.IsCovered.of_mem_leaves {step action : Step} (covered : step.IsCovered)
    (mem : action ∈ step.leaves) : action.IsCovered :=
  covered.item.of_mem_actions (mem_of_mem_distinctBy mem)

/-! ## What a job has to do with -/

section Job

variable {items : List Item} (covered : ∀ item ∈ items, item.IsCovered)

include covered

theorem Item.IsCovered.of_mem_walkAll {item : Item} (mem : item ∈ Item.walkAll items) :
    item.IsCovered := by
  rcases Item.mem_walkAll.mp mem with ⟨root, rootMem, inside⟩
  exact (covered root rootMem).of_mem_walk inside

theorem Item.conditionsAmong_of_isCovered :
    ∀ item ∈ Item.walkAll items, item.ConditionsAmong Condition.IsCoveredThroughout := by
  intro item mem
  have itemCovered := Item.IsCovered.of_mem_walkAll covered mem
  exact ⟨itemCovered.condition, itemCovered.step.ownCondition⟩

theorem Step.isCovered_of_involves {step : Step} (involved : Item.Involves items step) :
    step.IsCovered := by
  induction involved with
  | met mem =>
      rcases Item.mem_actionsMet.mp mem with ⟨_, item, itemMem, rfl⟩
      exact (Item.IsCovered.of_mem_walkAll covered itemMem).step
  | read mem leafMem reads =>
      rcases Item.mem_conditions.mp mem with ⟨item, itemMem, found⟩
      have among := Item.conditionsAmong_of_isCovered covered item itemMem
      have throughout := found.elim (among.1 _) (among.2 _)
      exact throughout.2 _ leafMem _ reads _ rfl
  | own _ mem leafMem reads induction =>
      exact (induction.ownCondition _ mem).2 _ leafMem _ reads _ rfl
  | inside _ mem induction => exact induction.of_mem_leaves mem

end Job

/-! ## What its steps run under -/

section Among

variable {among : Condition Step → Prop} (closed : Closed among)

include closed

/-- What is declared of an action comes from the items that declare it. -/
theorem DeclaredLeaf.among_declare {key : Nat} {leaves : List DeclaredLeaf}
    (leavesAmong : ∀ leaf ∈ leaves, leaf.key = key → ∀ condition ∈ leaf.condition, among condition)
    {item : Item} (members : item.Declares key → item.ConditionsAmong among) :
    ∀ leaf ∈ declare leaves item, leaf.key = key → ∀ condition ∈ leaf.condition,
      among condition := by
  intro leaf mem isKey
  rw [declare] at mem
  split at mem
  · exact leavesAmong leaf mem isKey
  · rename_i single
    have itemAmong : item.step.key = key → ∀ condition ∈ item.declaredCondition, among condition :=
      fun same => Item.among_declaredCondition closed
        (members ⟨Bool.eq_false_iff.mpr single, same⟩)
    split at mem
    · rcases List.mem_map.mp mem with ⟨before, beforeMem, rfl⟩
      split at isKey
      · rename_i same
        rw [if_pos same]
        exact among_also (leavesAmong before beforeMem isKey) (itemAmong (same.symm.trans isKey))
          closed
      · rename_i other
        rw [if_neg other]
        exact leavesAmong before beforeMem isKey
    · rcases List.mem_append.mp mem with inLeaves | isNew
      · exact leavesAmong leaf inLeaves isKey
      · cases List.mem_singleton.mp isNew
        exact itemAmong isKey

namespace Graph

theorem among_declared {items : List Item} {key : Nat}
    (members : ∀ item ∈ items, item.Declares key → item.ConditionsAmong among)
    {leaf : DeclaredLeaf} (declared : (ofItems items).declared? key = some leaf) :
    ∀ condition ∈ leaf.condition, among condition := by
  have whole : ∀ leaf ∈ (ofItems items).declared, leaf.key = key →
      ∀ condition ∈ leaf.condition, among condition :=
    List.foldlRecOn (motive := fun leaves : List DeclaredLeaf => ∀ leaf ∈ leaves,
      leaf.key = key → ∀ condition ∈ leaf.condition, among condition) items DeclaredLeaf.declare
      (List.forall_mem_nil _) fun leaves leavesAmong item mem =>
        DeclaredLeaf.among_declare closed leavesAmong (members item mem)
  rcases mem_of_declared? declared with ⟨leafMem, isKey⟩
  exact whole leaf leafMem isKey

variable {items : List Item} (members : ∀ item ∈ Item.walkAll items, item.ConditionsAmong among)

include members

/-- A node asks for its action in contexts of the walk only. -/
theorem among_context_of_mem_nodes {node : Node} (mem : node ∈ (ofItems items).nodes)
    {context : Condition Step} (asks : node.Asks (some context)) : among context := by
  rcases exists_pulls_ofItems items with ⟨pulled, pulls⟩
  rw [nodes_ofItems pulls] at mem
  rcases List.mem_map.mp mem with ⟨before, beforeMem, rfl⟩
  have asked := ((Node.sameDemand_withReads before).asks (some context)).mp asks
  rcases List.mem_append.mp beforeMem with visited | pulledMem
  · exact among_of_asks closed members (isMet_of_mem_ofEncounters visited) asked
  · rcases List.mem_map.mp pulledMem with ⟨action, _, rfl⟩
    cases asked

theorem among_runCondition {node : Node} (mem : node ∈ (ofItems items).nodes)
    (own : ∀ condition ∈ node.step.ownCondition?, among condition) (placed : List Nat) :
    ∀ condition ∈ (ofItems items).runCondition placed node, among condition := by
  cases declared : (ofItems items).declared? node.key with
  | some leaf =>
      rw [runCondition, declared]
      apply among_declared closed _ declared
      intro item itemMem _
      exact members item (Item.mem_walkAll.mpr ⟨item, itemMem, item.self_mem_walk⟩)
  | none =>
      rw [runCondition_of_undeclared declared]
      apply Condition.among_narrowedBy closed _ own
      apply among_demand closed
      intro context asks operand operandMem _
      exact closed.splits.of_mem_operands .and
        (among_context_of_mem_nodes closed members mem asks) operandMem

end Graph

end Among

/-- The step and the condition that it runs under are covered. -/
structure ResolvedStep.IsCovered (resolved : ResolvedStep) : Prop where
  step : resolved.step.IsCovered
  condition : ∀ condition ∈ resolved.condition, condition.IsCovered

/-- Resolving a job of covered items leaves covered steps. -/
theorem Job.isCovered_of_resolve {job : Job} (covered : ∀ item ∈ job.items, item.IsCovered)
    {resolved : ResolvedJob} (resolves : job.resolve = .ok resolved) :
    ∀ placed ∈ resolved.steps, placed.IsCovered := by
  rw [Job.resolve] at resolves
  cases ordered : job.graph.order with
  | error => rw [ordered] at resolves; cases resolves
  | ok order =>
      rw [ordered] at resolves
      cases resolves
      intro placed mem
      rcases List.mem_filterMap.mp mem with ⟨⟨key, condition⟩, pairMem, found⟩
      rcases Option.map_eq_some_iff.mp found with ⟨node, nodeFound, rfl⟩
      rcases List.mem_iff_getElem?.mp pairMem with ⟨position, atPosition⟩
      rcases List.getElem?_zip_eq_some.mp atPosition with ⟨keyAt, conditionAt⟩
      rw [Graph.getElem?_runConditions, keyAt, Option.map_some, nodeFound] at conditionAt
      have nodeMem := (Graph.mem_of_node?_eq_some nodeFound).1
      have stepCovered := Step.isCovered_of_involves covered
        (Graph.isInvolved_of_mem_nodes nodeMem).step
      have among := Graph.among_runCondition Condition.closed_isCoveredThroughout
        (Item.conditionsAmong_of_isCovered covered) nodeMem stepCovered.ownCondition
        ([] ++ order.take position)
      refine ⟨stepCovered, fun stated isStated => ?_⟩
      have runs : (job.graph.runCondition ([] ++ order.take position) node) = condition :=
        Option.some.inj conditionAt
      rw [← runs] at isStated
      exact (among stated isStated).1

end FlowPlan
