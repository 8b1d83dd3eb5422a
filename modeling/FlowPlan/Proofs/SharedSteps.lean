import FlowPlan.Proofs.ChronicledJobs
import FlowPlan.Proofs.NamedSteps

/-! # Shared steps

All jobs of a workflow take their steps from one table. Whatever is placed,
depended on, waited for, read or consumed in them is the step that the table has
for the position where it is written. Two positions have the same step exactly
if what is written there stands for the same step of the definition.
-/

namespace FlowPlan

/-- What stands in the jobs for a position, in whatever way it is referred to, is what the table has
for it. -/
structure Workflow.TakesStepsFrom (workflow : Workflow) (definition : WorkflowDefinition)
    (table : StepTable) : Prop where
  jobs : List.Forall₂ (fun entry job => table.IsJobAt definition entry.2 entry.1 job ∧
    table.ReadsOutputs definition entry.2 entry.1.2 job.outputs)
    definition.jobs.zipIdx workflow.jobs
  steps : ∀ position step, (position, step) ∈ table → ∃ written,
    definition.step? position = some written ∧ table.IsMadeFor definition position written step

/-- The step that is got where the position is referred to: its own one, or the one of an item that
is placed there. -/
inductive StepTable.Gives (table : StepTable) (definition : WorkflowDefinition)
    (position : Position) : Step → Prop
  | step {step : Step} (mem : (position, step) ∈ table) : table.Gives definition position step
  | item {item : Item} (isItem : table.IsItemAt definition position item) :
      table.Gives definition position item.step

namespace WorkflowDefinition

/-- The positions are one and the same once references to the library have been followed. -/
def StandAlike (definition : WorkflowDefinition) (position other : Position) : Prop :=
  ∃ root, definition.IsRoot root ∧ definition.Leads position root ∧ definition.Leads other root

variable {definition : WorkflowDefinition}

theorem standAlike_iff {position other root otherRoot : Position}
    {written otherWritten : StepDefinition} (stands : definition.StandsFor position root written)
    (otherStands : definition.StandsFor other otherRoot otherWritten) :
    definition.StandAlike position other ↔ root = otherRoot := by
  constructor
  · rintro ⟨common, ⟨same, found, isRoot⟩, leads, otherLeads⟩
    rw [(stands.unique ⟨leads, found, isRoot⟩).1, (otherStands.unique ⟨otherLeads, found, isRoot⟩).1]
  · rintro rfl
    exact ⟨root, ⟨written, stands.found, stands.isRoot⟩, stands.leads, otherStands.leads⟩

/-- An item shows the step of the position where it was placed. -/
theorem isStepAt_of_isItemAt {position : Position} {item : Item}
    (isItem : definition.table.IsItemAt definition position item) :
    definition.construction.IsStepAt definition position item.step := by
  induction isItem with
  | @place position written start _ _ _ found _ own _ _ _ _ _ referenceInduction _ =>
      change definition.construction.IsStepAt definition position start.step
      cases reusable : written.reusable with
      | some name =>
          rcases referenceInduction name reusable with ⟨root, rootWritten, stands, mem⟩
          exact ⟨root, rootWritten, stands.of_reference found reusable, mem⟩
      | none =>
          rcases own reusable with ⟨step, mem, rfl⟩
          exact ⟨position, written, .self found reusable, mem⟩

theorem isStepAt_of_gives {position : Position} {step : Step}
    (gives : definition.table.Gives definition position step) :
    definition.construction.IsStepAt definition position step := by
  cases gives with
  | step mem => exact definition.isSound_construction.steps _ mem
  | item isItem => exact isStepAt_of_isItemAt isItem

/-- A position has one step for all jobs, however it is referred to, and shares it with just those
positions that stand for the same. -/
theorem one_step_for_each_root {workflow : Workflow} {warnings : List Warning}
    (built : definition.build = (.ok workflow, warnings)) :
    workflow.TakesStepsFrom definition definition.table ∧
      ∀ position step other another, definition.table.Gives definition position step →
        definition.table.Gives definition other another →
          (step.key = another.key ↔ definition.StandAlike position other) ∧
          (step.key = another.key → step = another) := by
  constructor
  · exact ⟨records_construct.2 workflow (congrArg Prod.fst built),
      fun _ _ mem => definition.isChronicle_table.exists_made mem⟩
  · intro position step other another gives otherGives
    rcases isStepAt_of_gives gives with ⟨root, written, stands, mem⟩
    rcases isStepAt_of_gives otherGives with ⟨otherRoot, otherWritten, otherStands, otherMem⟩
    rw [standAlike_iff stands otherStands]
    have sameOf := definition.isSound_construction.eq_of_key stands otherStands mem otherMem
    refine ⟨⟨fun sameKey => (sameOf sameKey).1, ?_⟩, fun sameKey => (sameOf sameKey).2⟩
    rintro rfl
    rw [definition.isChronicle_table.eq_of_mem mem otherMem]

end WorkflowDefinition

/-! ## A library step under two names, in two jobs -/

namespace Sample

def baseAction : StepDefinition where
  id := some "base"
  run := some "x"

def sharing : WorkflowDefinition where
  library := [("alias", { reusable := some "base" }), ("base", baseAction)]
  jobs := [("a", { steps := [{ reusable := some "alias" },
      { run := some "y", after := .single "alias", dependsOn := .single "base" }] }),
    ("b", { steps := [{ reusable := some "base" }] })]

def stepBase : Step := .action 1 (some "base") [] { run := some "x" } []

def stepBehind : Step := .action 2 none [] { run := some "y" } []

def sharedBase : Workflow where
  jobs := [{ id := "a", items := [.ofStep stepBase,
      .place stepBehind none [.ofStep stepBase] [.ofStep stepBase]] },
    { id := "b", items := [.ofStep stepBase] }]

theorem build_sharing : sharing.build = (.ok sharedBase, []) := by
  cbv

theorem table_sharing : sharing.table =
    [(.library "alias", stepBase), (.job 0 1, stepBehind), (.library "base", stepBase)] := by
  cbv

theorem one_step_for_each_root_sharing :
    sharing.build = (.ok sharedBase, []) ∧ sharedBase.TakesStepsFrom sharing sharing.table ∧
      sharing.StandAlike (.library "alias") (.library "base") ∧
      ¬ sharing.StandAlike (.job 0 1) (.library "base") := by
  rcases WorkflowDefinition.one_step_for_each_root build_sharing with ⟨takes, alike⟩
  have ofAlias : sharing.table.Gives sharing (.library "alias") stepBase :=
    .step (table_sharing ▸ .head _)
  have ofBase : sharing.table.Gives sharing (.library "base") stepBase :=
    .step (table_sharing ▸ .tail _ (.tail _ (.head _)))
  have ofBehind : sharing.table.Gives sharing (.job 0 1) stepBehind :=
    .step (table_sharing ▸ .tail _ (.head _))
  refine ⟨build_sharing, takes, (alike _ _ _ _ ofAlias ofBase).1.mp rfl, fun same => ?_⟩
  exact absurd ((alike _ _ _ _ ofBehind ofBase).1.mpr same) (by decide)

end Sample

end FlowPlan
