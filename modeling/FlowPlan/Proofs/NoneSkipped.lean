import FlowPlan.Proofs.Complement
import FlowPlan.Proofs.ItemGraph

/-! # No demanded action is skipped

Whatever the conditions of a job mean, an action that its items demand is
permitted by the condition it runs under. Texts have to decide among the
conditions that can be put together from those of the job, since contexts and
alternatives are told apart by their texts.
-/

namespace FlowPlan

open Condition (Permits Respects TextDecides)

namespace Graph

/-- Every action that the items demand and that its own condition permits runs, and so does every
action at the top level that one of its declarations permits. -/
theorem demanded_actions_run {holds : Condition Step → Prop} (respects : Respects holds)
    {items : List Item}
    (decides : TextDecides holds (Condition.BuiltFrom (Item.conditions items)))
    (keys : Step.KeysIdentify (· ∈ Item.actionsMet items)) {order : List Nat}
    (resolved : (ofItems items).order = .ok order) :
    (∀ action : Step, (∃ item ∈ items, item.Demands holds action) →
      (¬ ∃ item ∈ items, item.Declares action.key) → Permits holds action.ownCondition? →
      (ofItems items).RunsUnder order action.key (Permits holds)) ∧
    (∀ key, (∃ item ∈ items, item.Declares key ∧ item.IsPermitted holds) →
      (ofItems items).RunsUnder order key (Permits holds)) := by
  have closed := Condition.closed_builtFrom (Item.conditions items)
  have members : ∀ item ∈ Item.walkAll items,
      item.ConditionsAmong (Condition.BuiltFrom (Item.conditions items)) :=
    Item.conditionsAmong_of_conditions fun _ => Condition.builtFrom_of_mem
  have indexed := isIndexed_ofItems items
  constructor
  · intro action demanded undeclared ownPermits
    have mem : action ∈ Item.actionsMet items := by
      rcases demanded with ⟨item, itemMem, demands⟩
      exact Item.mem_actionsMet_of_demands itemMem demands
    rcases exists_node_of_mem_actionsMet keys mem with ⟨node, nodeMem, rfl, isMet⟩
    apply runsUnder_of_node resolved indexed nodeMem
    intro placed
    apply (permits_runCondition_of_undeclared respects closed decides members isMet
      (declared?_ofItems_eq_none.mpr undeclared) placed).mpr
    exact ⟨permits_demand_of_demands respects closed decides members nodeMem demanded placed,
      ownPermits⟩
  · intro key permitted
    rcases permitted with ⟨item, itemMem, declares, itemPermitted⟩
    rcases exists_node_of_declares itemMem declares with ⟨node, nodeMem, rfl⟩
    apply runsUnder_of_node resolved indexed nodeMem
    intro placed
    have declared := permits_runCondition_of_declared respects closed decides members
      ⟨item, itemMem, declares⟩ placed
    exact declared.1 ⟨item, itemMem, declares, itemPermitted⟩

end Graph

/-! ## A job with tests that need a build -/

namespace Sample

def wanted : Condition Step := .raw "inputs.wanted".toList []

def onBranch : Condition Step := .comparison "github.ref".toList .notEqual (.string ['m']) []

def build : Step := .action 1 none [] {} []

def unitTest : Step := .action 2 none [] { condition := some wanted } []

def report : Step := .action 3 none [] {} []

def tests : Step := .group 4 none [] none [.place unitTest (some onBranch) [] []]

def items : List Item :=
  [.place tests none [.ofStep build] [], .place report (some wanted) [] []]

theorem keysIdentify : Step.KeysIdentify (· ∈ Item.actionsMet items) :=
  Step.keysIdentify_of_nodup (fun _ mem => mem) (by decide)

theorem plain : ∀ condition ∈ Item.conditions items,
    condition.IsPlain ∧ condition.isPropagatable = true := by
  decide

theorem resolved : (Graph.ofItems items).order = .ok [1, 2, 3] := by
  decide +kernel

theorem demanded_actions_run_sample :
    (Graph.ofItems items).RunsUnder [1, 2, 3] build.key
      (Permits (Condition.HoldsBy Condition.NothingEqual)) ∧
    (Graph.ofItems items).RunsUnder [1, 2, 3] report.key
      (Permits (Condition.HoldsBy Condition.NothingEqual)) := by
  have decides : TextDecides (Condition.HoldsBy Condition.NothingEqual)
      (Condition.BuiltFrom (Item.conditions items)) := by
    apply (Condition.textDecides_holdsBy Condition.NothingEqual).mono
    intro condition built
    exact Condition.isPlain_of_builtFrom (fun origin mem => (plain origin mem).1) built
  have runs := Graph.demanded_actions_run
    (Condition.respects_of_coherent Condition.coherent_nothingEqual) decides keysIdentify resolved
  have useful : tests.DoesSomething (Condition.HoldsBy Condition.NothingEqual) :=
    fun _ _ => ⟨_, List.mem_cons_self, onBranch, rfl, by decide⟩
  have demandsBuild : (Item.place tests none [.ofStep build] []).Demands
      (Condition.HoldsBy Condition.NothingEqual) build :=
    .dependency (by decide) useful List.mem_cons_self (.action (by decide) rfl)
  constructor
  · exact runs.1 build ⟨_, List.mem_cons_self, demandsBuild⟩ (by decide) (by decide)
  · exact runs.2 report.key
      ⟨_, List.mem_cons_of_mem _ List.mem_cons_self, by decide, by decide, by decide⟩

end Sample

end FlowPlan
