import FlowPlan.Proofs.DeclaredNeeds
import FlowPlan.Proofs.NamedSteps

/-! # Rendered references to steps

A rendered job lists the actions of its graph in their order, each with its id
and the condition under which it runs there. An id that such a condition shows
therefore belongs to a step further up, provided that it stands for an action
that has it, and an id in an output to a step of the job.
-/

namespace FlowPlan

/-! ## Resolved steps in their places -/

/-- The resolved steps are those of the nodes in their order, each with its condition. -/
structure ResolvedJob.Arranges (resolved : ResolvedJob) (job : Job) (order : List Nat) : Prop where
  ordered : job.graph.order = .ok order
  steps : List.Forall₂ (fun (entry : Nat × Option (Condition Step)) (placed : ResolvedStep) =>
      (job.graph.node? entry.1).map Node.step = some placed.step ∧ placed.condition = entry.2)
    (order.zip (job.graph.runConditions [] order)) resolved.steps

namespace Job

variable {job : Job} {resolved : ResolvedJob}

theorem exists_node_of_mem_order {order : List Nat} (ordered : job.graph.order = .ok order)
    {key : Nat} (mem : key ∈ order) : ∃ node, job.graph.node? key = some node := by
  rcases List.mem_map.mp ((Graph.mem_order_iff ordered key).mp mem) with ⟨node, nodeMem, rfl⟩
  exact ⟨node, Graph.node?_eq_some (Graph.isIndexed_ofItems job.items) nodeMem⟩

theorem exists_arranges_of_resolve (resolves : job.resolve = .ok resolved) :
    ∃ order, resolved.Arranges job order := by
  rw [resolve] at resolves
  cases ordered : job.graph.order with
  | error => rw [ordered] at resolves; cases resolves
  | ok order =>
      rw [ordered] at resolves
      cases resolves
      refine ⟨order, ordered, (forall₂_filterMap ?_).imp ?_⟩
      · rintro ⟨key, condition⟩ mem
        rcases exists_node_of_mem_order ordered (List.of_mem_zip mem).1 with ⟨node, found⟩
        exact ⟨_, congrArg (Option.map _) found⟩
      · rintro ⟨key, condition⟩ placed found
        rcases Option.map_eq_some_iff.mp found with ⟨node, isNode, rfl⟩
        exact ⟨congrArg (Option.map Node.step) isNode, rfl⟩

end Job

namespace ResolvedJob.Arranges

variable {job : Job} {resolved : ResolvedJob} {order : List Nat}
  (arranges : resolved.Arranges job order)

include arranges

theorem withOwners (jobs : List ResolvedJob) (needs : List String) :
    ({ resolved.withOwners jobs with needs } : ResolvedJob).Arranges job order where
  ordered := arranges.ordered
  steps := List.forall₂_map_right_iff.mpr (arranges.steps.imp fun _ _ same => same)

theorem exists_node {place : Nat} {placed : ResolvedStep}
    (found : resolved.steps[place]? = some placed) :
    ∃ node ∈ job.graph.nodes, order[place]? = some node.key ∧ placed.step = node.step ∧
      placed.condition = job.graph.runCondition (order.take place) node := by
  rcases exists_getElem?_of_forall₂ arranges.steps found with ⟨⟨key, condition⟩, atPlace, isStep, rfl⟩
  rcases List.getElem?_zip_eq_some.mp atPlace with ⟨keyAt, conditionAt⟩
  rcases Option.map_eq_some_iff.mp isStep with ⟨node, isNode, sameStep⟩
  rcases Graph.mem_of_node?_eq_some isNode with ⟨nodeMem, rfl⟩
  rw [Graph.getElem?_runConditions, keyAt, Option.map_some, isNode, Option.bind_some,
    List.nil_append] at conditionAt
  exact ⟨node, nodeMem, keyAt, sameStep.symm, (Option.some.inj conditionAt).symm⟩

theorem exists_placed {place : Nat} {node : Node} (nodeMem : node ∈ job.graph.nodes)
    (keyAt : order[place]? = some node.key) :
    ∃ placed, resolved.steps[place]? = some placed ∧ placed.step = node.step := by
  have isNode : job.graph.node? node.key = some node :=
    Graph.node?_eq_some (Graph.isIndexed_ofItems job.items) nodeMem
  have conditionAt : (job.graph.runConditions [] order)[place]? = _ :=
    Graph.getElem?_runConditions [] order place
  rw [keyAt, Option.map_some] at conditionAt
  have atPlace : (order.zip (job.graph.runConditions [] order))[place]? = some (node.key, _) :=
    List.getElem?_zip_eq_some.mpr ⟨keyAt, conditionAt⟩
  rcases exists_getElem?_of_forall₂ arranges.steps.flip atPlace with ⟨placed, found, isStep, _⟩
  have isNodeStep : (some node).map Node.step = some placed.step := isNode ▸ isStep
  exact ⟨placed, found, (Option.some.inj isNodeStep).symm⟩

end ResolvedJob.Arranges

theorem Workflow.arranges_of_resolve {workflow : Workflow} {resolved : ResolvedWorkflow}
    (resolves : workflow.resolve = .ok resolved) :
    List.Forall₂ (fun job (found : ResolvedJob) => ∃ order, found.Arranges job order)
      workflow.jobs resolved.jobs := by
  rw [resolve] at resolves
  cases mapped : workflow.jobs.mapM Job.resolve with
  | error => rw [mapped] at resolves; cases resolves
  | ok alone =>
      rw [mapped] at resolves
      cases resolves
      refine (forall₂_map_zip (forall₂_of_mapM mapped) (ResolvedJob.withOwners alone) _).imp ?_
      rintro job _ ⟨first, firstResolves, rfl⟩
      rcases Job.exists_arranges_of_resolve firstResolves with ⟨order, arranges⟩
      exact ⟨order, arranges.withOwners alone _⟩

/-! ## Rendered jobs -/

theorem Yaml.Entries.find?_addMissing_of_some {entries extra : Entries} {name value : Yaml}
    (found : find? entries name = some value) :
    find? (addMissing entries extra) name = some value := by
  rw [addMissing]
  refine List.foldlRecOn (motive := fun sum => find? sum name = some value) extra _
    found fun sum same entry _ => ?_
  split
  · exact same
  · rw [find?_append, same, Option.some_or]

namespace Document

/-- The steps of a rendered job, in order. -/
def steps (job : Yaml) : List Yaml := (job.field? "steps").toList.flatMap Yaml.members

/-- The id of a rendered step. -/
def id? (step : Yaml) : Option String := (step.field? "id").bind Yaml.string?

/-- The condition of a rendered step. -/
def condition? (step : Yaml) : Option String := (step.field? "if").bind Yaml.string?

/-- The texts of the outputs of a rendered job. -/
def outputTexts (job : Yaml) : List String :=
  ((job.field? "outputs").toList.flatMap Yaml.values).filterMap Yaml.string?

/-- The job runs the action at the position: its own places come to it, or the step made for it is
among the resolved ones. -/
def RunsAction (definition : WorkflowDefinition) (index : Nat) (resolved : ResolvedJob)
    (root : Position) : Prop :=
  (∃ place, definition.ComesTo (.job index place) root) ∨
    ∃ placed ∈ resolved.steps, (root, placed.step) ∈ definition.construction.built

/-- The ids that a rendered job shows, as far as they are known, and the steps of it that carry
them. An id in an output has been found at a position, whose action the job need not run. -/
structure CarriesReads (definition : WorkflowDefinition) (index : Nat) (resolved : ResolvedJob)
    (warnings : List Warning) (job : Yaml) : Prop where
  conditions : ∀ (place : Nat) step text id, (steps job)[place]? = some step →
    condition? step = some text → ⟨.steps, id⟩ ∈ Text.references text.toList →
    (∀ expression, .unknownStep expression id ∉ warnings) → definition.NamesAction index id →
    ∃ earlier ≤ place, (∃ other, (steps job)[earlier]? = some other ∧ id? other = some id) ∧
      (earlier = place → ∃ number, definition.IsActionWithId (.job index number) id)
  outputs : ∀ text ∈ outputTexts job, ∀ id, ⟨.steps, id⟩ ∈ Text.references text.toList →
    (∀ expression, .unknownStep expression id ∉ warnings) →
    ∃ target, definition.names.find? (.job index) id = some target ∧
      ∀ root written, definition.StandsFor target root written → written.children = none →
        written.id = some id → RunsAction definition index resolved root →
          ∃ step ∈ steps job, id? step = some id

theorem id?_ofStep {resolved : ResolvedStep} {id : String} (isId : resolved.step.id? = some id) :
    id? (ofStep resolved) = some id := by
  have found : (ofStep resolved).field? "id" = some (.string id) := by
    rw [ofStep, isId]
    split
    · rfl
    · apply Yaml.Entries.find?_addMissing_of_some
      simp [Yaml.Entries.find?_append, Yaml.Entries.find?_field, stringField]
  rw [id?, found]
  rfl

section Job

variable {job : Job} {resolved : ResolvedJob}
  (unknown : job.settings.extra.AreUnknown JobField.ofKey?)

include unknown

theorem steps_ofJob : steps (ofJob job resolved) = resolved.steps.map ofStep := by
  have found : (ofJob job resolved).field? "steps" =
      some (.sequence (resolved.steps.map ofStep)) := field?_ofJob unknown .steps
  rw [steps, found]
  exact List.append_nil _

theorem outputTexts_ofJob :
    outputTexts (ofJob job resolved) =
      job.outputs.map fun output => String.ofList output.2.template := by
  have found : (ofJob job resolved).field? "outputs" =
      if job.outputs.isEmpty then none else some (.mapping (outputEntries job.outputs)) :=
    field?_ofJob unknown .outputs
  rw [outputTexts, found]
  split
  · rename_i isEmpty
    rw [List.isEmpty_iff.mp isEmpty]
    rfl
  · simp [Yaml.values, outputEntries, Yaml.ofText, Yaml.string?, List.filterMap_map,
      Function.comp_def]

end Job

theorem carriesReads_ofJob {definition : WorkflowDefinition} {index : Nat}
    {written : String × JobDefinition} (isWritten : definition.jobs[index]? = some written)
    {job : Job} (built : job.IsBuilt definition written)
    (builds : definition.construction.BuildsJob definition index written.2 job)
    (unknown : written.2.ExtrasUnknown) {resolved : ResolvedJob} {order : List Nat}
    (arranges : resolved.Arranges job order)
    (covered : ∀ placed ∈ resolved.steps, placed.IsCovered) :
    CarriesReads definition index resolved definition.construction.warnings
      (ofJob job resolved) := by
  have sound := definition.isSound_construction
  have settingsUnknown : job.settings.extra.AreUnknown JobField.ofKey? :=
    built.extra ▸ unknown.extra
  have isShown : ∀ {place : Nat} {placed : ResolvedStep}, resolved.steps[place]? = some placed →
      (steps (ofJob job resolved))[place]? = some (ofStep placed) := by
    intro place placed atPlace
    rw [steps_ofJob settingsUnknown, List.getElem?_map, atPlace]
    rfl
  constructor
  case conditions =>
    intro place step text id atPlace isText inText known names
    rw [steps_ofJob settingsUnknown, List.getElem?_map] at atPlace
    rcases Option.map_eq_some_iff.mp atPlace with ⟨placed, placedAt, rfl⟩
    have placedCovered := covered placed (List.mem_of_getElem? placedAt)
    rcases Option.bind_eq_some_iff.mp isText with ⟨shown, found, isString⟩
    rcases field?_if_ofStep placedCovered found with ⟨condition, isCondition, rfl⟩
    cases isString
    rw [String.toList_ofList,
      (placedCovered.condition condition isCondition).references_render] at inText
    rcases arranges.exists_node placedAt with ⟨node, nodeMem, keyAt, _, isRun⟩
    rcases builds.exists_named_of_shown sound built.items arranges.ordered nodeMem keyAt
      (isRun.symm.trans isCondition) inText known names with
      ⟨earlier, before, ⟨other, otherMem, otherAt, isId⟩, itself⟩
    rcases arranges.exists_placed otherMem otherAt with ⟨otherPlaced, placedThere, sameStep⟩
    exact ⟨earlier, before, ⟨_, isShown placedThere, id?_ofStep (sameStep ▸ isId)⟩, itself⟩
  case outputs =>
    intro text mem id inText known
    rw [outputTexts_ofJob settingsUnknown] at mem
    rcases List.mem_map.mp mem with ⟨output, outputMem, rfl⟩
    rw [String.toList_ofList] at inText
    rcases builds.outputs output outputMem id inText with ⟨found, finds⟩
    cases finds with
    | unknown _ expression warned => exact absurd warned (known expression)
    | itself _ same => cases same
    | @step target _ isTarget _ _ =>
        refine ⟨target, isTarget, fun root written stands isAction isId runs => ?_⟩
        have carries : ∀ placed ∈ resolved.steps,
            (root, placed.step) ∈ definition.construction.built →
              ∃ step ∈ steps (ofJob job resolved), id? step = some id := by
          intro placed placedMem isBuilt
          rcases List.mem_iff_getElem?.mp placedMem with ⟨place, placedAt⟩
          exact ⟨_, List.mem_of_getElem? (isShown placedAt),
            id?_ofStep ((sound.makes stands isBuilt).id.trans isId)⟩
        rcases runs with ⟨place, comes⟩ | ⟨placed, placedMem, isBuilt⟩
        · rcases builds.exists_action_of_comesTo sound isWritten comes with ⟨action, met, isBuilt⟩
          have keys : Step.KeysIdentify (· ∈ Item.actionsMet job.items) :=
            fun left right leftMet rightMet =>
              builds.placesAll.keysIdentify sound left right (.met leftMet) (.met rightMet)
          rcases Graph.exists_node_of_mem_actionsMet keys met with ⟨node, nodeMem, rfl, _⟩
          have inOrder := (Graph.mem_order_iff arranges.ordered node.key).mpr
            (List.mem_map_of_mem nodeMem)
          rcases List.mem_iff_getElem?.mp inOrder with ⟨place, keyAt⟩
          rcases arranges.exists_placed nodeMem keyAt with ⟨placed, placedAt, sameStep⟩
          exact carries placed (List.mem_of_getElem? placedAt) (sameStep ▸ isBuilt)
        · exact carries placed placedMem isBuilt

/-! ## Rendered workflows -/

/-- A job whose id no other one has is shown together with the steps it was resolved to. -/
theorem job?_ofWorkflow_of_getElem? {workflow : Workflow} {resolved : ResolvedWorkflow}
    (ids : resolved.jobs.map ResolvedJob.id = workflow.jobs.map Job.id) {index : Nat} {job : Job}
    (isJob : workflow.jobs[index]? = some job) {found : ResolvedJob}
    (isFound : resolved.jobs[index]? = some found)
    (unique : (workflow.jobs.map Job.id).count job.id = 1) :
    job? (ofWorkflow workflow resolved) job.id = some (ofJob job found) := by
  have listed := eq_append_of_getElem? isJob
  have resolvedListed := eq_append_of_getElem? isFound
  have sameId : found.id = job.id := by
    have atIndex := congrArg (·[index]?) ids
    simpa [isJob, isFound] using atIndex
  rw [listed, List.map_append, List.map_cons, List.count_append, List.count_cons_self] at unique
  have isFirst := Workflow.job?_of_first listed (List.count_eq_zero.mp (by omega))
  have isLast : found.id ∉ (resolved.jobs.drop (index + 1)).map ResolvedJob.id := by
    rw [List.map_drop, ids, ← List.map_drop, sameId]
    exact List.count_eq_zero.mp (by omega)
  rw [← sameId] at isFirst ⊢
  exact job?_ofWorkflow_of_unique resolvedListed isLast isFirst

/-- Whatever a definition says, what its rendered jobs show under the ids of actions is there: for
a condition further up, for an output somewhere in the job. -/
theorem rendered_job_carries_reads {fields : List RawField} {definition : WorkflowDefinition}
    (read : WorkflowDefinition.ofFields fields = .ok definition) {workflow : Workflow}
    {warnings : List Warning} (built : definition.build = (.ok workflow, warnings))
    {resolved : ResolvedWorkflow} (resolves : workflow.resolve = .ok resolved) {index : Nat}
    {written : String × JobDefinition} (isWritten : definition.jobs[index]? = some written)
    (unique : (definition.jobs.map Prod.fst).count written.1 = 1) :
    ∃ found job, resolved.jobs[index]? = some found ∧
      job? (ofWorkflow workflow resolved) written.1 = some job ∧
        CarriesReads definition index found warnings job := by
  have unknown := WorkflowDefinition.extrasUnknown_of_ofFields read
  have isBuilt := WorkflowDefinition.isBuilt_of_build
    (WorkflowDefinition.lacksOtherIf unknown) built
  have completes := Workflow.completes_of_resolve resolves
  rcases WorkflowDefinition.buildsJob_of_build built with ⟨rfl, builds⟩
  rcases exists_getElem?_of_forall₂ isBuilt.flip isWritten with ⟨job, isJob, jobBuilt⟩
  rcases builds index job isJob with ⟨other, isOther, jobBuilds⟩
  cases isWritten.symm.trans isOther
  rcases exists_getElem?_of_forall₂ completes.flip isJob with ⟨found, isFound, foundCompletes⟩
  rcases exists_getElem?_of_forall₂ (Workflow.arranges_of_resolve resolves) isFound with
    ⟨sameJob, isSameJob, order, arranges⟩
  cases isJob.symm.trans isSameJob
  rw [← WorkflowDefinition.ids_of_isBuilt isBuilt, ← jobBuilt.id] at unique
  refine ⟨found, ofJob job found, isFound, ?_, ?_⟩
  · rw [← jobBuilt.id]
    exact job?_ofWorkflow_of_getElem? (Workflow.ids_of_completes completes) isJob isFound unique
  · exact carriesReads_ofJob isWritten jobBuilt jobBuilds
      (unknown.jobs written (List.mem_of_getElem? isWritten)) arranges
      (foundCompletes.steps jobBuilt.items)

end Document

namespace Sample

open Document

/-! ## An output and a condition that read one action -/

def writtenAfterA : StepDefinition where
  run := some "y"
  condition := some "steps.a.outcome == 'success'"

theorem itemAt_writtenAfterA {definition : WorkflowDefinition} {index place : Nat}
    (found : definition.step? (.job index place) = some writtenAfterA) :
    definition.itemAt {} (.job index place) =
      (definition.stepAt { items := [.job index place] } (.job index place)).map Item.ofStep >>=
        fun item => ((fun scope : StepScope Step => successOfA (scope "a")) <$>
          definition.scopeAt { items := [.job index place] } (.job index)
            (some (.job index place)) "steps.a.outcome == 'success'").map item.when := by
  rw [WorkflowDefinition.itemAt_eq_newItemAt found List.not_mem_nil, WorkflowDefinition.newItemAt]
  simp only [writtenAfterA, conditionAt_successOfA, NameList.names, List.foldlM_nil, bind_pure]
  rfl

def stepAfterA : Step := .action 2 none [] { run := some "y" } []

def afterAItems : List Item :=
  [.ofStep stepA, .place stepAfterA (some (successOfA (some stepA))) [] []]

def writtenReporting : JobDefinition where
  steps := [writtenA, writtenAfterA]
  outputs := [("result", "steps.a.outcome")]

def reporting : WorkflowDefinition where
  jobs := [("j", writtenReporting)]

def reportingFields : List RawField :=
  [(.ok "jobs", .ok (.mapping [(.string "j", .mapping
    [(.string "steps", .sequence
      [.mapping [(.string "id", .string "a"), (.string "run", .string "x")],
        .mapping [(.string "run", .string "y"),
          (.string "if", .string "steps.a.outcome == 'success'")]]),
      (.string "outputs", .mapping [(.string "result", .string "steps.a.outcome")])])]))]

def reportingWorkflow : Workflow where
  jobs := [{ id := "j", items := afterAItems,
             outputs := [("result", ⟨"steps.a.outcome".toList, [.step stepA]⟩)] }]

def reportingResolved : ResolvedWorkflow where
  jobs := [⟨"j", [], [⟨stepA, none, "j"⟩, ⟨stepAfterA, some (successOfA (some stepA)), "j"⟩]⟩]
  warnings := []

theorem build_reporting : reporting.build = (.ok reportingWorkflow, []) := by
  have second : reporting.itemAt {} (.job 0 1) = _ := itemAt_writtenAfterA rfl
  have jobs : reporting.jobs.zipIdx = [(("j", writtenReporting), 0)] := rfl
  have places : List.range writtenReporting.steps.length = [0, 1] := rfl
  rw [WorkflowDefinition.build, WorkflowDefinition.construct, jobs]
  simp only [List.mapM_cons, List.mapM_nil, WorkflowDefinition.jobAt, places, second]
  cbv

theorem resolve_reporting : reportingWorkflow.resolve = .ok reportingResolved := by
  cbv

theorem eq_of_refers_reporting {origin : Position} {id : String}
    (refers : reporting.Refers origin id) : origin = .job 0 1 ∧ id = "a" := by
  rcases refers with ⟨written, found, text, isText, mem⟩
  have listed : (origin, written) ∈ [(.job 0 0, writtenA), (.job 0 1, writtenAfterA)] :=
    reporting.mem_withPositions found
  rcases List.mem_pair.mp listed with first | second
  · cases first
    cases isText
  · cases second
    cases isText
    have references : Text.references "steps.a.outcome == 'success'".toList = [⟨.steps, "a"⟩] := by
      cbv
    rw [references] at mem
    cases List.mem_singleton.mp mem
    exact ⟨rfl, rfl⟩

theorem isActionWithId_reporting : reporting.IsActionWithId (.job 0 0) "a" :=
  ⟨.job 0 0, writtenA, .self rfl rfl, rfl, rfl⟩

theorem namesAction_reporting : reporting.NamesAction 0 "a" := by
  intro origin target _ refers isTarget
  rcases eq_of_refers_reporting refers with ⟨rfl, _⟩
  cases isTarget
  exact ⟨by decide, isActionWithId_reporting⟩

theorem rendered_job_carries_reads_reporting :
    reporting.NamesAction 0 "a" ∧ ∃ found job, reportingResolved.jobs[0]? = some found ∧
      job? (ofWorkflow reportingWorkflow reportingResolved) "j" = some job ∧
        CarriesReads reporting 0 found [] job := by
  have read : WorkflowDefinition.ofFields reportingFields = .ok reporting := rfl
  have isWritten : reporting.jobs[0]? = some ("j", writtenReporting) := rfl
  exact ⟨namesAction_reporting, rendered_job_carries_reads read build_reporting resolve_reporting
    isWritten (by decide)⟩

/-! ## Steps that are found and not carried -/

/-- The name of a library step is no id of it. -/
def writtenNamedA : StepDefinition where
  run := some "x"

def writtenUnplaced : StepDefinition where
  id := some "b"
  run := some "z"

def writtenUncarried : JobDefinition where
  steps := [writtenAfterA]
  outputs := [("result", "steps.b.outcome")]

def uncarried : WorkflowDefinition where
  library := [("a", writtenNamedA), ("b", writtenUnplaced)]
  jobs := [("j", writtenUncarried)]

def uncarriedFields : List RawField :=
  [(.ok "steps", .ok (.mapping
    [(.string "a", .mapping [(.string "run", .string "x")]),
      (.string "b", .mapping [(.string "id", .string "b"), (.string "run", .string "z")])])),
    (.ok "jobs", .ok (.mapping [(.string "j", .mapping
      [(.string "steps", .sequence
        [.mapping [(.string "run", .string "y"),
          (.string "if", .string "steps.a.outcome == 'success'")]]),
        (.string "outputs", .mapping [(.string "result", .string "steps.b.outcome")])])]))]

def stepNamedA : Step := .action 2 none [] { run := some "x" } []

def stepUnplaced : Step := .action 3 (some "b") [] { run := some "z" } []

def stepAfterNamedA : Step := .action 1 none [] { run := some "y" } []

def uncarriedJob : Job where
  id := "j"
  items := [.place stepAfterNamedA (some (successOfA (some stepNamedA))) [] []]
  outputs := [("result", ⟨"steps.b.outcome".toList, [.step stepUnplaced]⟩)]

def uncarriedWorkflow : Workflow where
  jobs := [uncarriedJob]

def uncarriedResolved : ResolvedJob where
  id := "j"
  needs := []
  steps := [⟨stepNamedA, none, "j"⟩, ⟨stepAfterNamedA, some (successOfA (some stepNamedA)), "j"⟩]

theorem build_uncarried : uncarried.build = (.ok uncarriedWorkflow, []) := by
  have only : uncarried.itemAt {} (.job 0 0) = _ := itemAt_writtenAfterA rfl
  have jobs : uncarried.jobs.zipIdx = [(("j", writtenUncarried), 0)] := rfl
  have places : List.range writtenUncarried.steps.length = [0] := rfl
  rw [WorkflowDefinition.build, WorkflowDefinition.construct, jobs]
  simp only [List.mapM_cons, List.mapM_nil, WorkflowDefinition.jobAt, places, only]
  cbv

theorem resolve_uncarried :
    uncarriedWorkflow.resolve = .ok { jobs := [uncarriedResolved], warnings := [] } := by
  cbv

/-- The library step has no id, and the other one is not run by the job. -/
theorem found_steps_are_not_carried :
    WorkflowDefinition.ofFields uncarriedFields = .ok uncarried ∧
    uncarried.build = (.ok uncarriedWorkflow, []) ∧
    uncarriedWorkflow.resolve = .ok { jobs := [uncarriedResolved], warnings := [] } ∧
    ∃ job, job? (ofWorkflow uncarriedWorkflow { jobs := [uncarriedResolved], warnings := [] }) "j" =
        some job ∧
      (∃ step ∈ steps job, ∃ text, condition? step = some text ∧
        ⟨.steps, "a"⟩ ∈ Text.references text.toList) ∧
      (∃ text ∈ outputTexts job, ⟨.steps, "b"⟩ ∈ Text.references text.toList) ∧
      ∀ step ∈ steps job, id? step = none := by
  refine ⟨rfl, build_uncarried, resolve_uncarried, ofJob uncarriedJob uncarriedResolved, rfl, ?_⟩
  have shown : steps (ofJob uncarriedJob uncarriedResolved) =
      uncarriedResolved.steps.map ofStep := rfl
  have output : outputTexts (ofJob uncarriedJob uncarriedResolved) =
      ["$\x7b\x7b steps.b.outcome \x7d\x7d"] := by
    decide +kernel
  have inCondition : Text.references "steps.a.outcome == 'success'".toList = [⟨.steps, "a"⟩] := by
    cbv
  have inOutput : Text.references "$\x7b\x7b steps.b.outcome \x7d\x7d".toList = [⟨.steps, "b"⟩] := by
    cbv
  rw [shown, output]
  refine ⟨⟨_, .tail _ (.head _), "steps.a.outcome == 'success'", ?_, ?_⟩,
    ⟨_, .head _, ?_⟩, ?_⟩
  · decide +kernel
  · rw [inCondition]
    exact .head _
  · rw [inOutput]
    exact .head _
  · decide +kernel

end Sample

end FlowPlan
