import FlowPlan.Definition.Names
import FlowPlan.Proofs.Members
import Mathlib.Logic.Relation

/-! # What positions stand for

A position whose step is reusable leads to a library step, and from there
perhaps to another one. Where it ends is written what the position stands for:
an action, or a group, which comes to the actions of its children. Whatever has
a say where a step is placed is found by going on from there to the positions
that are mentioned.
-/

namespace FlowPlan

namespace WorkflowDefinition

variable {definition : WorkflowDefinition}

/-! ## Names -/

theorem find?_of_resolveName {scope : Scope} {name : String} {target : Position}
    (resolved : definition.resolveName scope name = .ok target) :
    definition.names.find? scope name = some target := by
  rw [resolveName] at resolved
  split at resolved
  · rename_i found
    exact found.trans (congrArg some (Except.ok.inj resolved))
  · cases resolved

theorem eq_of_resolveReusable {name : String} {target : Position}
    (resolved : definition.resolveReusable name = .ok target) : target = .library name := by
  rw [resolveReusable] at resolved
  split at resolved
  · exact (Except.ok.inj resolved).symm
  · cases resolved

/-! ## Positions -/

/-- What is written at the position counts for whatever stands at the first one. -/
inductive Leads (definition : WorkflowDefinition) : Position → Position → Prop
  | here (position : Position) : definition.Leads position position
  | reference {position origin : Position} {written : StepDefinition} {name : String}
      (found : definition.step? position = some written) (reusable : written.reusable = some name)
      (leads : definition.Leads (.library name) origin) : definition.Leads position origin

/-- No other position is led to from here. -/
def IsRoot (definition : WorkflowDefinition) (position : Position) : Prop :=
  ∃ written, definition.step? position = some written ∧ written.reusable = none

/-- The step for the position is made from what is written at the root. -/
structure StandsFor (definition : WorkflowDefinition) (position root : Position)
    (written : StepDefinition) : Prop where
  leads : definition.Leads position root
  found : definition.step? root = some written
  isRoot : written.reusable = none

/-- The actions that a position comes to, by the positions where they are written. -/
inductive ComesTo (definition : WorkflowDefinition) : Position → Position → Prop
  | action {position root : Position} {written : StepDefinition}
      (stands : definition.StandsFor position root written) (isAction : written.children = none) :
      definition.ComesTo position root
  | child {position root action : Position} {written : StepDefinition}
      {children : List StepDefinition} {index : Nat}
      (stands : definition.StandsFor position root written)
      (isGroup : written.children = some children) (isChild : index < children.length)
      (comes : definition.ComesTo (root.child index) action) : definition.ComesTo position action

/-- The condition that is written at the position names the id of a step. -/
def Refers (definition : WorkflowDefinition) (position : Position) (id : String) : Prop :=
  ∃ written, definition.step? position = some written ∧
    ∃ text, written.condition = some text ∧ ⟨.steps, id⟩ ∈ Text.references text.toList

/-- What is written at the first position mentions the second one. -/
inductive Mentions (definition : WorkflowDefinition) : Position → Position → Prop
  | reference {position : Position} {written : StepDefinition} {name : String}
      (found : definition.step? position = some written) (reusable : written.reusable = some name) :
      definition.Mentions position (.library name)
  | child {position : Position} {written : StepDefinition} {children : List StepDefinition}
      {index : Nat} (found : definition.step? position = some written)
      (isGroup : written.children = some children) (isChild : index < children.length) :
      definition.Mentions position (position.child index)
  | dependency {position target : Position} {written : StepDefinition} {name : String}
      (found : definition.step? position = some written) (named : name ∈ written.dependsOn.names)
      (isTarget : definition.names.find? position.scope name = some target) :
      definition.Mentions position target
  | read {position target : Position} {id : String} (refers : definition.Refers position id)
      (isTarget : definition.names.find? position.scope id = some target) :
      definition.Mentions position target

/-- What is written at the second position may have a say where the first one is placed. -/
def Concerns (definition : WorkflowDefinition) : Position → Position → Prop :=
  Relation.ReflTransGen definition.Mentions

namespace Concerns

variable {first second third : Position}

theorem refl (position : Position) : definition.Concerns position position :=
  Relation.ReflTransGen.refl

theorem trans (former : definition.Concerns first second)
    (latter : definition.Concerns second third) : definition.Concerns first third :=
  Relation.ReflTransGen.trans former latter

theorem mentions (concerns : definition.Concerns first second)
    (mentions : definition.Mentions second third) : definition.Concerns first third :=
  concerns.tail mentions

end Concerns

namespace Leads

theorem concerns {position origin : Position} (leads : definition.Leads position origin) :
    definition.Concerns position origin := by
  induction leads with
  | here position => exact .refl position
  | reference found reusable _ induction => exact .head (.reference found reusable) induction

/-- Only a reference leads anywhere else. -/
theorem eq_of_root {position origin : Position} (leads : definition.Leads position origin)
    {written : StepDefinition} (found : definition.step? position = some written)
    (isRoot : written.reusable = none) : origin = position := by
  cases leads with
  | here => rfl
  | reference other reusable =>
      cases found.symm.trans other
      cases isRoot.symm.trans reusable

end Leads

namespace StandsFor

variable {position root : Position} {written : StepDefinition}

theorem self (found : definition.step? root = some written) (isRoot : written.reusable = none) :
    definition.StandsFor root root written :=
  ⟨.here root, found, isRoot⟩

theorem concerns (stands : definition.StandsFor position root written) :
    definition.Concerns position root :=
  stands.leads.concerns

theorem concerns_child (stands : definition.StandsFor position root written)
    {children : List StepDefinition} (isGroup : written.children = some children) {index : Nat}
    (isChild : index < children.length) : definition.Concerns position (root.child index) :=
  stands.concerns.mentions (.child stands.found isGroup isChild)

theorem of_reference {reference : StepDefinition} {name : String}
    (stands : definition.StandsFor (.library name) root written)
    (found : definition.step? position = some reference)
    (reusable : reference.reusable = some name) : definition.StandsFor position root written :=
  { stands with leads := .reference found reusable stands.leads }

end StandsFor

theorem StandsFor.exists_step {position root : Position} {written : StepDefinition}
    (stands : definition.StandsFor position root written) :
    ∃ step, definition.step? position = some step := by
  cases stands.leads with
  | here => exact ⟨written, stands.found⟩
  | reference found => exact ⟨_, found⟩

theorem ComesTo.exists_step {position action : Position}
    (comes : definition.ComesTo position action) :
    ∃ step, definition.step? position = some step := by
  cases comes with
  | action stands => exact stands.exists_step
  | child stands => exact stands.exists_step

theorem ComesTo.concerns {position action : Position}
    (comes : definition.ComesTo position action) : definition.Concerns position action := by
  induction comes with
  | action stands _ => exact stands.concerns
  | child stands isGroup isChild _ induction =>
      exact (stands.concerns_child isGroup isChild).trans induction

end WorkflowDefinition

/-! ## Ids in expressions -/

theorem Text.mem_referencedSteps {text : Text} {id : String} :
    id ∈ Text.referencedSteps text ↔ ⟨.steps, id⟩ ∈ Text.references text := by
  have step : ∀ (seen : List Reference) (ids : List String),
      (id ∈ ids ↔ ⟨.steps, id⟩ ∈ seen) → ∀ reference : Reference,
        (id ∈ (if reference.root = .steps && !ids.contains reference.name
          then ids ++ [reference.name] else ids) ↔ ⟨.steps, id⟩ ∈ seen ++ [reference]) := by
    rintro seen ids known ⟨root, name⟩
    cases root with
    | needs => simp [known]
    | steps =>
        by_cases isNew : name ∈ ids
        · have listed : id = name → ⟨.steps, id⟩ ∈ seen := fun same => known.mp (same ▸ isNew)
          simpa [isNew, known] using listed
        · simp [isNew, known]
  exact foldl_keeps (fun (seen : List Reference) ids => id ∈ ids ↔ ⟨.steps, id⟩ ∈ seen)
    (fun seen ids reference _ known => step seen ids known reference)
    (iff_of_false List.not_mem_nil List.not_mem_nil)

end FlowPlan
