import FlowPlan.Proofs.AlikeConditions
import FlowPlan.Proofs.Walk

/-! # Items that place different steps alike

Two jobs are alike if their steps can be paired up in such a way that what is
inside two paired steps is alike again. A walk through such jobs meets the same
things in the same order, and leaves nodes that belong together one by one. It
is only what the conditions of a node read that may come in another order.
-/

namespace FlowPlan

/-- What belongs to related members of two lists, one after another. -/
theorem forall₂_flatMap {α β γ δ : Type} {related : α → β → Prop} {result : γ → δ → Prop}
    {members : List α} {others : List β} (both : List.Forall₂ related members others)
    {f : α → List γ} {g : β → List δ}
    (holds : ∀ member ∈ members, ∀ other, related member other →
      List.Forall₂ result (f member) (g other)) :
    List.Forall₂ result (members.flatMap f) (others.flatMap g) := by
  induction both with
  | nil => exact .nil
  | cons head _ induction =>
      rw [List.flatMap_cons, List.flatMap_cons]
      apply List.rel_append (holds _ List.mem_cons_self _ head)
      exact induction fun member mem => holds member (List.mem_cons_of_mem _ mem)

theorem any_eq_of_forall₂ {α β : Type} {related : α → β → Prop} {members : List α} {others : List β}
    (both : List.Forall₂ related members others) {has : α → Bool} {otherHas : β → Bool}
    (same : ∀ {member other}, related member other → has member = otherHas other) :
    members.any has = others.any otherHas := by
  induction both with
  | nil => rfl
  | cons head _ induction => rw [List.any_cons, List.any_cons, same head, induction]

theorem forall₂_mem {α β : Type} {related : α → β → Prop} {members : List α} {others : List β}
    (both : List.Forall₂ related members others) :
    List.Forall₂ (fun member other => related member other ∧ member ∈ members ∧ other ∈ others)
      members others := by
  induction both with
  | nil => exact .nil
  | cons head _ induction =>
      apply List.Forall₂.cons ⟨head, List.mem_cons_self, List.mem_cons_self⟩
      apply induction.imp
      rintro member other ⟨holds, mem, otherMem⟩
      exact ⟨holds, List.mem_cons_of_mem _ mem, List.mem_cons_of_mem _ otherMem⟩

theorem rel_find? {α β : Type} {related : α → β → Prop} {members : List α} {others : List β}
    (both : List.Forall₂ related members others) {has : α → Bool} {otherHas : β → Bool}
    (same : ∀ {member other}, related member other → has member = otherHas other) :
    Option.Rel related (members.find? has) (others.find? otherHas) := by
  induction both with
  | nil => exact .none
  | @cons member other _ _ head _ induction =>
      rw [List.find?_cons, List.find?_cons, same head]
      cases otherHas other with
      | true => exact .some head
      | false => exact induction

/-- The items place paired steps under conditions and behind items that are alike. -/
inductive Item.Alike (paired : Step → Step → Prop) : Item → Item → Prop
  | place {step other : Step} {condition otherCondition : Option (Condition Step)}
      {dependencies others predecessors otherPredecessors : List Item}
      (isPair : paired step other)
      (stated : Option.Rel (Condition.Alike paired) condition otherCondition)
      (dependsOn : List.Forall₂ (Item.Alike paired) dependencies others)
      (after : List.Forall₂ (fun item other => paired item.step other.step) predecessors
        otherPredecessors) :
      Item.Alike paired (.place step condition dependencies predecessors)
        (.place other otherCondition others otherPredecessors)

/-- What is inside paired steps is alike. -/
structure Step.Bisimulation (paired : Step → Step → Prop) : Prop
    extends Keyed.Pairing paired where
  kind : ∀ {step other : Step}, paired step other → step.isGroup = other.isGroup
  own : ∀ {step other : Step}, paired step other →
    Option.Rel (Condition.Alike paired) step.ownCondition? other.ownCondition?
  children : ∀ {step other : Step}, paired step other →
    List.Forall₂ (Item.Alike paired) step.children other.children

/-- The keys are those of paired steps. -/
def Step.KeysPaired (paired : Step → Step → Prop) (key otherKey : Nat) : Prop :=
  ∃ step other, paired step other ∧ step.key = key ∧ other.key = otherKey

theorem Step.KeysPaired.of_pair {paired : Step → Step → Prop} {step other : Step}
    (isPair : paired step other) : KeysPaired paired step.key other.key :=
  ⟨step, other, isPair, rfl, rfl⟩

theorem Step.KeysPaired.eq_iff {paired : Step → Step → Prop} (pairing : Keyed.Pairing paired)
    {first second other another : Nat} (former : KeysPaired paired first other)
    (latter : KeysPaired paired second another) : first = second ↔ other = another := by
  rcases former with ⟨_, _, isPair, rfl, rfl⟩
  rcases latter with ⟨_, _, isSecond, rfl, rfl⟩
  exact pairing.key_eq_iff isPair isSecond

namespace Step

theorem encounters_eq (scope : List (Condition Step)) (step : Step) :
    step.encounters scope = if step.isGroup then step.children.flatMap (Item.encounters scope)
      else [.visit step (Condition.allOf scope)] := by
  have all : ∀ items : List Item,
      Item.encountersAll scope items = items.flatMap (Item.encounters scope) := by
    intro items
    induction items with
    | nil => rfl
    | cons head tail induction => rw [Item.encountersAll, List.flatMap_cons, induction]
  cases step with
  | action => rfl
  | group _ _ _ _ children => exact all children

theorem actions_eq (step : Step) :
    step.actions = if step.isGroup then step.children.flatMap (fun item => item.step.actions)
      else [step] := by
  have all : ∀ items : List Item,
      Item.actionsAll items = items.flatMap fun item => item.step.actions := by
    intro items
    induction items with
    | nil => rfl
    | cons head tail induction =>
        cases head
        rw [Item.actionsAll, List.flatMap_cons, induction]
        rfl
  cases step with
  | action => rfl
  | group _ _ _ _ children => exact all children

end Step

theorem Item.dependencyEncounters_eq (dependent : Step) (scope : List (Condition Step))
    (items : List Item) :
    dependencyEncounters dependent scope items = items.flatMap fun item =>
      item.encounters scope ++ dependent.edgesTo item.step .dependency := by
  induction items with
  | nil => rfl
  | cons head tail induction => rw [dependencyEncounters, List.flatMap_cons, induction]

inductive Encounter.Alike (paired : Step → Step → Prop) : Encounter → Encounter → Prop
  | visit {action other : Step} {context otherContext : Option (Condition Step)}
      (isPair : paired action other)
      (asked : Option.Rel (Condition.Alike paired) context otherContext) :
      Alike paired (.visit action context) (.visit other otherContext)
  | dependency {dependent target other otherTarget : Nat}
      (dependents : Step.KeysPaired paired dependent other)
      (targets : Step.KeysPaired paired target otherTarget) :
      Alike paired (.dependency dependent target) (.dependency other otherTarget)
  | ordering {dependent target other otherTarget : Nat}
      (dependents : Step.KeysPaired paired dependent other)
      (targets : Step.KeysPaired paired target otherTarget) :
      Alike paired (.ordering dependent target) (.ordering other otherTarget)

/-! ## The walk -/

namespace Item.Alike

variable {paired : Step → Step → Prop} {item other : Item} (alike : Item.Alike paired item other)

include alike

theorem step : paired item.step other.step := by
  cases alike with
  | place isPair => exact isPair

theorem condition : Option.Rel (Condition.Alike paired) item.condition other.condition := by
  cases alike with
  | place _ stated => exact stated

theorem dependencies :
    List.Forall₂ (Item.Alike paired) item.dependencies other.dependencies := by
  cases alike with
  | place _ _ dependsOn => exact dependsOn

theorem predecessors : List.Forall₂ (fun item other => paired item.step other.step)
    item.predecessors other.predecessors := by
  cases alike with
  | place _ _ _ after => exact after

end Item.Alike

namespace Step.Bisimulation

variable {paired : Step → Step → Prop} (bisimulation : Step.Bisimulation paired)

include bisimulation

theorem actions_of_alike {item other : Item} (alike : Item.Alike paired item other) :
    List.Forall₂ paired item.step.actions other.step.actions := by
  induction item using Item.induction generalizing other with
  | walk item childInduction _ =>
      rw [Step.actions_eq, Step.actions_eq, bisimulation.kind alike.step]
      split
      · apply forall₂_flatMap (bisimulation.children alike.step)
        exact fun child mem otherChild childAlike => childInduction child mem childAlike
      · exact .cons alike.step .nil

theorem distinctBy_same {steps others : List Step} (both : List.Forall₂ paired steps others) :
    List.Forall₂ paired (distinctBy Step.same steps) (distinctBy Step.same others) := by
  induction both with
  | nil => exact .nil
  | cons head _ induction =>
      apply List.Forall₂.cons head
      apply List.rel_filter _ induction
      intro step other isPair
      simp only [Step.same, Bool.not_eq_true', decide_eq_false_iff_not]
      exact not_congr (bisimulation.key_eq_iff head isPair)

theorem leaves {step other : Step} (isPair : paired step other) :
    List.Forall₂ paired step.leaves other.leaves := by
  have alike : Item.Alike paired (.ofStep step) (.ofStep other) := .place isPair .none .nil .nil
  exact bisimulation.distinctBy_same (bisimulation.actions_of_alike alike)

theorem edgesTo {step other target otherTarget : Step} (isPair : paired step other)
    (areTargets : paired target otherTarget) {edge : Nat → Nat → Encounter}
    (edges : ∀ {dependent target other otherTarget : Nat}, KeysPaired paired dependent other →
      KeysPaired paired target otherTarget →
      Encounter.Alike paired (edge dependent target) (edge other otherTarget)) :
    List.Forall₂ (Encounter.Alike paired) (step.edgesTo target edge)
      (other.edgesTo otherTarget edge) := by
  apply forall₂_flatMap (bisimulation.leaves areTargets)
  intro leaf _ otherLeaf leavesPaired
  apply List.rel_map _ (bisimulation.leaves isPair)
  intro dependent otherDependent dependents
  exact edges (.of_pair dependents) (.of_pair leavesPaired)

theorem alternatives {children others : List Item}
    (alike : List.Forall₂ (Item.Alike paired) children others) :
    Option.Rel (Condition.Alike paired)
      ((children.mapM fun (child : Item) => child.condition.filter Condition.isPropagatable).bind
        Condition.simplifyAny)
      ((others.mapM fun (child : Item) => child.condition.filter Condition.isPropagatable).bind
        Condition.simplifyAny) := by
  have pairing := bisimulation.toPairing
  apply rel_bind (rel_mapM (fun childAlike => rel_filter
    (fun found => found.isPropagatable pairing) childAlike.condition) alike)
  intro alternatives otherAlternatives both
  apply Condition.alike_simplifyAny pairing (both.imp fun _ _ => And.left)
  intro alternative mem
  rcases exists_of_mem_forall₂ both.flip mem with ⟨_, _, _, propagatable⟩
  exact propagatable

theorem dependencyScope {step other : Step} (isPair : paired step other)
    {scope otherScope : List (Condition Step)}
    (scopes : List.Forall₂ (Condition.Alike paired) scope otherScope) :
    List.Forall₂ (Condition.Alike paired) (step.dependencyScope scope)
      (other.dependencyScope otherScope) := by
  have children := bisimulation.children isPair
  have factors : List.Forall₂ (Condition.Alike paired)
      ((scope.flatMap Condition.conjuncts).filter Condition.isPropagatable)
      ((otherScope.flatMap Condition.conjuncts).filter Condition.isPropagatable) := by
    apply List.rel_filter
    · intro condition otherCondition alike
      exact Bool.eq_iff_iff.mp (alike.isPropagatable bisimulation.toPairing)
    · exact forall₂_flatMap scopes fun _ _ _ alike => alike.operands .and
  have sameEmpty : step.children.isEmpty = other.children.isEmpty := by
    rw [Bool.eq_iff_iff, List.isEmpty_iff_length_eq_zero, List.isEmpty_iff_length_eq_zero,
      children.length_eq]
  rw [Step.dependencyScope, Step.dependencyScope, sameEmpty]
  split
  · exact factors
  · exact List.rel_append factors (rel_toList (bisimulation.alternatives children))

/-- A walk from alike items on meets the same things one after another. -/
theorem encounters {item other : Item} (alike : Item.Alike paired item other)
    {scope otherScope : List (Condition Step)}
    (scopes : List.Forall₂ (Condition.Alike paired) scope otherScope) :
    List.Forall₂ (Encounter.Alike paired) (item.encounters scope)
      (other.encounters otherScope) := by
  induction item using Item.induction generalizing other scope otherScope with
  | walk item childInduction dependencyInduction =>
      cases alike with
      | @place step other condition otherCondition dependencies others predecessors _ isPair stated
          dependsOn after =>
        have inner := List.rel_append scopes (rel_toList stated)
        rw [Item.encounters, Item.encounters, Step.encounters_eq, Step.encounters_eq,
          Item.dependencyEncounters_eq, Item.dependencyEncounters_eq]
        apply List.rel_append
        · apply List.rel_append
          · rw [bisimulation.kind isPair]
            split
            · apply forall₂_flatMap (bisimulation.children isPair)
              exact fun child mem _ childAlike => childInduction child mem childAlike inner
            · exact .cons (.visit isPair (Condition.alike_allOf bisimulation.toPairing inner)) .nil
          · apply forall₂_flatMap dependsOn
            intro dependency mem otherDependency dependencyAlike
            apply List.rel_append
            · exact dependencyInduction dependency mem dependencyAlike
                (bisimulation.dependencyScope isPair inner)
            · exact bisimulation.edgesTo isPair dependencyAlike.step .dependency
        · apply forall₂_flatMap after
          exact fun _ _ _ arePaired => bisimulation.edgesTo isPair arePaired .ordering

theorem encountersAll {items others : List Item}
    (alike : List.Forall₂ (Item.Alike paired) items others) :
    List.Forall₂ (Encounter.Alike paired) (Item.encountersAll [] items)
      (Item.encountersAll [] others) := by
  induction alike with
  | nil => exact .nil
  | cons head _ induction => exact List.rel_append (bisimulation.encounters head .nil) induction

end Step.Bisimulation

/-! ## The nodes -/

namespace Node

variable {paired : Step → Step → Prop}

/-- The nodes stand for paired steps and want the same in the same order. -/
structure Alike (paired : Step → Step → Prop) (node other : Node) : Prop where
  step : paired node.step other.step
  dependencies : List.Forall₂ (Step.KeysPaired paired) node.dependencies other.dependencies
  orderings : List.Forall₂ (Step.KeysPaired paired) node.orderings other.orderings
  contexts : List.Forall₂ (Condition.Alike paired) node.contexts other.contexts
  unconditional : node.unconditional = other.unconditional

theorem Alike.keys {node other : Node} (alike : Alike paired node other) :
    Step.KeysPaired paired node.key other.key :=
  .of_pair alike.step

section Pairing

variable (pairing : Keyed.Pairing paired)

include pairing

theorem contains_eq {keys others : List Nat} (both : List.Forall₂ (Step.KeysPaired paired) keys others)
    {key other : Nat} (isPair : Step.KeysPaired paired key other) :
    keys.contains key = others.contains other := by
  rw [List.contains_eq_any_beq, List.contains_eq_any_beq]
  apply any_eq_of_forall₂ both
  intro member another isMember
  rw [Bool.eq_iff_iff, beq_iff_eq, beq_iff_eq]
  exact isPair.eq_iff pairing isMember

theorem alike_addOnce {keys others : List Nat}
    (both : List.Forall₂ (Step.KeysPaired paired) keys others) {key other : Nat}
    (isPair : Step.KeysPaired paired key other) :
    List.Forall₂ (Step.KeysPaired paired) (addOnce keys key) (addOnce others other) := by
  rw [addOnce, addOnce, contains_eq pairing both isPair]
  split
  · exact both
  · exact List.rel_append both (.cons isPair .nil)

theorem hasKey_eq {nodes others : List Node} (both : List.Forall₂ (Alike paired) nodes others)
    {key other : Nat} (isPair : Step.KeysPaired paired key other) :
    hasKey nodes key = hasKey others other := by
  apply any_eq_of_forall₂ both
  intro node otherNode alike
  exact decide_eq_decide.mpr (alike.keys.eq_iff pairing isPair)

namespace Alike

variable {node other : Node} (alike : Alike paired node other)

include alike

theorem addDependency {key otherKey : Nat} (isPair : Step.KeysPaired paired key otherKey) :
    Alike paired (node.addDependency key) (other.addDependency otherKey) :=
  { alike with dependencies := alike_addOnce pairing alike.dependencies isPair }

theorem addOrdering {key otherKey : Nat} (isPair : Step.KeysPaired paired key otherKey) :
    Alike paired (node.addOrdering key) (other.addOrdering otherKey) :=
  { alike with orderings := alike_addOnce pairing alike.orderings isPair }

omit pairing in
theorem addContext {context otherContext : Option (Condition Step)}
    (asked : Option.Rel (Condition.Alike paired) context otherContext) :
    Alike paired (node.addContext context) (other.addContext otherContext) := by
  cases asked with
  | none => exact { alike with unconditional := rfl }
  | @some context otherContext sameContext =>
      have known : node.contexts.any (Condition.sameText · context) =
          other.contexts.any (Condition.sameText · otherContext) := by
        apply any_eq_of_forall₂ alike.contexts
        intro first second alike
        rw [Condition.sameText, Condition.sameText, alike.render, sameContext.render]
      rw [Node.addContext, Node.addContext, known]
      split
      · exact alike
      · exact { alike with contexts := List.rel_append alike.contexts (.cons sameContext .nil) }

end Alike

theorem alike_update {nodes others : List Node} (both : List.Forall₂ (Alike paired) nodes others)
    {key other : Nat} (isPair : Step.KeysPaired paired key other) {change otherChange : Node → Node}
    (changes : ∀ {node other : Node}, Alike paired node other →
      Alike paired (change node) (otherChange other)) :
    List.Forall₂ (Alike paired) (update key change nodes) (update other otherChange others) := by
  apply List.rel_map _ both
  intro node otherNode alike
  have same := alike.keys.eq_iff pairing isPair
  dsimp only
  by_cases isKey : node.key = key
  · rw [if_pos isKey, if_pos (same.mp isKey)]
    exact changes alike
  · rw [if_neg isKey, if_neg (mt same.mpr isKey)]
    exact alike

theorem alike_record {nodes others : List Node} (both : List.Forall₂ (Alike paired) nodes others)
    {encounter other : Encounter} (alike : Encounter.Alike paired encounter other) :
    List.Forall₂ (Alike paired) (record nodes encounter) (record others other) := by
  cases alike with
  | @visit action other context otherContext isPair asked =>
      have isNew : Alike paired { step := action } { step := other } :=
        ⟨isPair, .nil, .nil, .nil, rfl⟩
      rw [record, record, hasKey_eq pairing both (.of_pair isPair)]
      split
      · exact alike_update pairing both (.of_pair isPair) fun alike => alike.addContext asked
      · exact List.rel_append both (.cons (isNew.addContext asked) .nil)
  | dependency dependents targets =>
      exact alike_update pairing both dependents fun alike => alike.addDependency pairing targets
  | ordering dependents targets =>
      rw [record, record, hasKey_eq pairing both targets]
      split
      · exact alike_update pairing both dependents fun alike => alike.addOrdering pairing targets
      · exact both

theorem alike_foldl_record {encounters others : List Encounter}
    (alike : List.Forall₂ (Encounter.Alike paired) encounters others) {nodes otherNodes : List Node}
    (both : List.Forall₂ (Alike paired) nodes otherNodes) :
    List.Forall₂ (Alike paired) (encounters.foldl record nodes) (others.foldl record otherNodes) := by
  induction alike generalizing nodes otherNodes with
  | nil => exact both
  | cons head _ induction => exact induction (alike_record pairing both head)

/-- What alike walks leave are nodes that belong together one by one. -/
theorem alike_ofEncounters {encounters others : List Encounter}
    (alike : List.Forall₂ (Encounter.Alike paired) encounters others) :
    List.Forall₂ (Alike paired) (ofEncounters encounters) (ofEncounters others) := by
  have kinds : ∀ {encounter other : Encounter}, Encounter.Alike paired encounter other →
      encounter.isOrdering = other.isOrdering := by
    intro encounter other same
    cases same <;> rfl
  apply alike_foldl_record pairing
  · exact List.rel_filter (fun _ _ same => by simp only [kinds same]) alike
  · apply alike_foldl_record pairing _ .nil
    exact List.rel_filter (fun _ _ same => by simp only [kinds same]) alike

end Pairing

end Node

end FlowPlan
