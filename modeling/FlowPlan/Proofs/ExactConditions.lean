import FlowPlan.Proofs.Complement
import FlowPlan.Proofs.NoneSkipped
import FlowPlan.Proofs.Reads

/-! # Conditions that say exactly when actions run

If no condition of a job reads a step, nothing is narrowed on the way to a
dependency and nothing is pulled in. If the conditions are plain as well, their
texts say what they mean. Then an action is permitted exactly when it is
demanded.
-/

namespace FlowPlan

open Condition (Permits Respects TextDecides Closed ComplementsCover)

/-- The condition is plain and reads no step. -/
def Condition.IsPlainAndFree (condition : Condition Step) : Prop :=
  condition.IsPlain ∧ condition.ReadsOnly fun source => source.step? = none

namespace Condition

theorem closed_isPlainAndFree : Closed IsPlainAndFree :=
  closed_isPlain.and (closed_readsOnly _)

namespace IsPlainAndFree

variable {condition : Condition Step} (free : condition.IsPlainAndFree)

include free

theorem isPropagatable : condition.isPropagatable = true := by
  rw [Condition.isPropagatable, steps_of_readsOnly free.2]
  rfl

theorem readActions_eq_nil : condition.readActions = [] := by
  rw [readActions, steps_of_readsOnly free.2]
  rfl

theorem isKnown (placed : List Nat) : Graph.isKnown placed condition = true := by
  rw [Graph.isKnown, free.readActions_eq_nil]
  rfl

end IsPlainAndFree

end Condition

namespace Graph

section Free

variable {items : List Item}
  (members : ∀ item ∈ Item.walkAll items, item.ConditionsAmong Condition.IsPlainAndFree)

include members

theorem readActions_of_isMet {node : Node} (isMet : node.IsMet items) : node.readActions = [] := by
  apply List.eq_nil_iff_forall_not_mem.mpr
  intro action mem
  rcases List.mem_flatMap.mp (Node.mem_of_mem_readActions mem) with ⟨condition, conditionMem, read⟩
  have free : condition.IsPlainAndFree := by
    rcases List.mem_append.mp conditionMem with context | own
    · exact among_of_asks Condition.closed_isPlainAndFree members isMet context
    · exact ownAmong_of_mem members isMet.mem_actionsMet condition (Option.mem_toList.mp own)
  rw [free.readActions_eq_nil] at read
  cases read

/-- Nothing is pulled in. -/
theorem isMet_of_mem_nodes {node : Node} (mem : node ∈ (ofItems items).nodes) :
    node.IsMet items := by
  rcases exists_pulls_ofItems items with ⟨pulled, pulls⟩
  have nothing : ∀ action ∈ pulled, False := by
    apply pulls.traced
    · intro reader readerMem action read
      rw [readActions_of_isMet members (isMet_of_mem_ofEncounters readerMem)] at read
      cases read
    · intro action impossible
      exact impossible.elim
  rw [nodes_ofItems pulls, List.eq_nil_iff_forall_not_mem.mpr nothing] at mem
  rcases List.mem_map.mp mem with ⟨before, beforeMem, rfl⟩
  rw [List.map_nil, List.append_nil] at beforeMem
  exact (isMet_of_mem_ofEncounters beforeMem).of_sameDemand (Node.sameDemand_withReads before)

/-- An action is permitted by what its node asks for only if it is demanded. -/
theorem demands_of_permits_demand {holds : Condition Step → Prop} (respects : Respects holds)
    (decides : TextDecides holds Condition.IsPlainAndFree)
    (covers : ComplementsCover holds Condition.IsPlainAndFree)
    (keys : Step.KeysIdentify (· ∈ Item.actionsMet items)) {node : Node}
    (isMet : node.IsMet items) {placed : List Nat}
    (permitted : Permits holds (demand placed node)) :
    ∃ item ∈ items, item.Demands holds node.step := by
  have closed := Condition.closed_isPlainAndFree
  rcases exists_asks_of_permits_demand respects closed decides covers
    (fun _ free => Condition.IsPlainAndFree.isKnown free placed)
    (fun _ => among_of_asks closed members isMet) isMet.wanted permitted with
    ⟨context, contextAsks, met⟩
  rcases Item.mem_encountersAll.mp (isMet.visit_of_asks keys contextAsks) with
    ⟨item, itemMem, inside⟩
  have demands := Item.demands_of_visit respects closed decides covers
    (fun _ => Condition.IsPlainAndFree.isPropagatable) (walkAmong_of_mem members itemMem)
    (List.forall_mem_nil _) inside met
  exact ⟨item, itemMem, demands.2⟩

end Free

/-- A declared action is permitted exactly when one of its declarations permits it, and any other
action exactly when it is demanded and its own condition permits it. -/
theorem run_conditions_are_exact {truth : Text → Prop} (coherent : Condition.Coherent truth)
    {items : List Item}
    (plain : ∀ condition ∈ Item.conditions items,
      condition.IsPlain ∧ condition.isPropagatable = true)
    (keys : Step.KeysIdentify (· ∈ Item.actionsMet items)) {order : List Nat}
    (resolved : (ofItems items).order = .ok order) :
    (∀ key, (∃ item ∈ items, item.Declares key) →
      (ofItems items).RunsUnder order key fun condition =>
        Permits (Condition.HoldsBy truth) condition ↔
          ∃ item ∈ items, item.Declares key ∧ item.IsPermitted (Condition.HoldsBy truth)) ∧
    (∀ action ∈ Item.actionsMet items, (¬ ∃ item ∈ items, item.Declares action.key) →
      (ofItems items).RunsUnder order action.key fun condition =>
        Permits (Condition.HoldsBy truth) condition ↔
          Permits (Condition.HoldsBy truth) action.ownCondition? ∧
            ∃ item ∈ items, item.Demands (Condition.HoldsBy truth) action) ∧
    ∀ key ∈ order, ∃ action ∈ Item.actionsMet items, action.key = key := by
  have respects : Respects (Condition.HoldsBy truth : Condition Step → Prop) :=
    Condition.respects_of_coherent coherent
  have closed := Condition.closed_isPlainAndFree
  have decides : TextDecides (Condition.HoldsBy truth) Condition.IsPlainAndFree :=
    (Condition.textDecides_holdsBy truth).mono fun _ => And.left
  have covers : ComplementsCover (Condition.HoldsBy truth) Condition.IsPlainAndFree :=
    (Condition.complementsCover_holdsBy coherent.opposite).mono fun _ => And.left
  have free : ∀ condition ∈ Item.conditions items, condition.IsPlainAndFree :=
    fun condition mem => (plain condition mem).imp_right Condition.readsOnly_of_isPropagatable
  have members : ∀ item ∈ Item.walkAll items, item.ConditionsAmong Condition.IsPlainAndFree :=
    Item.conditionsAmong_of_conditions free
  have indexed := isIndexed_ofItems items
  refine ⟨?_, ?_, ?_⟩
  · rintro key ⟨item, itemMem, declares⟩
    rcases exists_node_of_declares itemMem declares with ⟨node, nodeMem, rfl⟩
    apply runsUnder_of_node resolved indexed nodeMem
    intro placed
    have declared := permits_runCondition_of_declared respects closed decides members
      ⟨item, itemMem, declares⟩ placed
    exact ⟨declared.2 covers, declared.1⟩
  · intro action mem undeclared
    rcases exists_node_of_mem_actionsMet keys mem with ⟨node, nodeMem, rfl, isMet⟩
    apply runsUnder_of_node resolved indexed nodeMem
    intro placed
    rw [permits_runCondition_of_undeclared respects closed decides members isMet
      (declared?_ofItems_eq_none.mpr undeclared) placed, and_comm]
    apply and_congr_right
    intro _
    constructor
    · intro permitted
      exact demands_of_permits_demand members respects decides covers keys isMet permitted
    · intro demanded
      exact permits_demand_of_demands respects closed decides members nodeMem demanded placed
  · intro key mem
    rcases List.mem_map.mp ((mem_order_iff resolved key).mp mem) with ⟨node, nodeMem, sameKey⟩
    exact ⟨node.step, (isMet_of_mem_nodes members nodeMem).mem_actionsMet, sameKey⟩

end Graph

namespace Sample

theorem run_conditions_are_exact_sample :
    ((Graph.ofItems items).RunsUnder [1, 2, 3] report.key fun condition =>
      Permits (Condition.HoldsBy Condition.NothingEqual) condition ↔
        ∃ item ∈ items, item.Declares report.key ∧
          item.IsPermitted (Condition.HoldsBy Condition.NothingEqual)) ∧
    ((Graph.ofItems items).RunsUnder [1, 2, 3] build.key fun condition =>
      Permits (Condition.HoldsBy Condition.NothingEqual) condition ↔
        Permits (Condition.HoldsBy Condition.NothingEqual) build.ownCondition? ∧
          ∃ item ∈ items, item.Demands (Condition.HoldsBy Condition.NothingEqual) build) := by
  have exactly :=
    Graph.run_conditions_are_exact Condition.coherent_nothingEqual plain keysIdentify resolved
  have buildMet : build ∈ Item.actionsMet items := List.mem_cons_of_mem _ List.mem_cons_self
  exact ⟨exactly.1 report.key (by decide), exactly.2.1 build buildMet (by decide)⟩

end Sample

end FlowPlan
