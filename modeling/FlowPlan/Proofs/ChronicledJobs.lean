import FlowPlan.Proofs.Chronicled
import FlowPlan.Proofs.PlacedJobs

/-! # The chronicle of a build

One table serves all jobs of a build. The items of a job are those of the places
where its steps are written, and its outputs read what the table has for their
ids.
-/

namespace FlowPlan

open Building (Reaches Records)

/-- The job is the one that is written there. -/
structure StepTable.IsJobAt (table : StepTable) (definition : WorkflowDefinition) (index : Nat)
    (written : String × JobDefinition) (job : Job) : Prop where
  id : job.id = written.1
  condition : ∀ text ∈ written.2.condition, ∃ condition : Condition Step,
    Condition.parse .none text.toList = .ok condition
  items : List.Forall₂ (fun place item => table.IsItemAt definition (.job index place) item)
    (List.range written.2.steps.length) job.items
  outputs : ∀ output ∈ written.2.outputs, ∃ known,
    table.IsScope definition (.job index) none output.2 known ∧
      ∃ value, Value.parse known output.2.toList = .ok value

/-- The outputs were read from the texts that are written for them. -/
def StepTable.ReadsOutputs (table : StepTable) (definition : WorkflowDefinition) (index : Nat)
    (written : JobDefinition) (outputs : List (String × Value Step)) : Prop :=
  ∀ output ∈ outputs, ∃ text known, (output.1, text) ∈ written.outputs ∧
    table.IsScope definition (.job index) none text known ∧
      Value.parse known text.toList = .ok output.2

theorem StepTable.ReadsOutputs.mono {definition : WorkflowDefinition} {table wider : StepTable}
    {index : Nat} {written : JobDefinition} {outputs : List (String × Value Step)}
    (reads : table.ReadsOutputs definition index written outputs) (grows : table ⊆ wider) :
    wider.ReadsOutputs definition index written outputs := by
  intro output mem
  rcases reads output mem with ⟨text, known, isText, isScope, parsed⟩
  exact ⟨text, known, isText, isScope.mono grows, parsed⟩

namespace StepTable.IsJobAt

variable {definition : WorkflowDefinition} {table wider : StepTable} {index : Nat}
  {written : String × JobDefinition} {job : Job}
  (isJob : table.IsJobAt definition index written job)

include isJob

theorem mono (grows : table ⊆ wider) : wider.IsJobAt definition index written job where
  id := isJob.id
  condition := isJob.condition
  items := isJob.items.imp fun _ _ isItem => isItem.mono grows
  outputs output mem :=
    (isJob.outputs output mem).imp fun _ => And.imp_left fun isScope => isScope.mono grows

end StepTable.IsJobAt

namespace Job

theorem id_foldl_addItem (job : Job) (items : List Item) :
    (items.foldl addItem job).id = job.id := by
  induction items generalizing job with
  | nil => rfl
  | cons head tail induction => exact induction (job.addItem head)

theorem id_foldl_addOutput (job : Job) (outputs : List (String × Value Step)) :
    (outputs.foldl (fun job (name, value) => job.addOutput name value) job).id = job.id := by
  induction outputs generalizing job with
  | nil => rfl
  | cons head tail induction => exact induction (job.addOutput head.1 head.2)

end Job

namespace WorkflowDefinition

variable {definition : WorkflowDefinition} {start : Construction}

theorem records_jobCondition (written : JobDefinition) :
    Records definition [] start (jobCondition written) fun _ _ =>
      ∀ text ∈ written.condition, ∃ condition : Condition Step,
        Condition.parse .none text.toList = .ok condition := by
  rw [jobCondition]
  cases written.condition with
  | none => exact .pure fun _ found => absurd found (Option.not_mem_none _)
  | some text =>
      apply (Reaches.ofExpression _).map
      rintro state condition _ ⟨_, parsed⟩ other isOther
      exact ⟨condition, Option.some.inj isOther ▸ parsed⟩

theorem records_needing (id : String) (settings : JobSettings) (needs : List String) :
    Records definition [] start (needs.foldlM (fun (job : Job) need =>
        if (definition.job? need).isSome then pure (job.addNeed need)
        else throw (.definition (.unknownJob need))) { id, settings })
      fun _ job => job.id = id ∧ job.items = [] ∧ job.outputs = [] := by
  apply Reaches.foldlM ⟨rfl, rfl, rfl⟩
  intro need _ state job _ isEmpty
  split
  · apply Reaches.pure
    rw [Job.addNeed_eq]
    exact isEmpty
  · exact .throw _

theorem records_jobAt (index : Nat) (id : String) (written : JobDefinition) :
    Records definition [] start (definition.jobAt index id written)
      fun table job => table.IsJobAt definition index (id, written) job ∧
        table.ReadsOutputs definition index written job.outputs := by
  have records : definition.RecordsSteps {} ∧ definition.RecordsItems {} :=
    recordsSteps_and_recordsItems {}
  rw [jobAt]
  apply (records_jobCondition written).bind
  intro first own _ condition
  apply (records_needing id _ written.needs.names).bind
  rintro second needing _ ⟨isId, noItems, noOutputs⟩
  refine (Reaches.mapM ?keepsItem fun place _ state _ =>
    records.2 (.job index place) state).bind fun third items _ placed => ?_
  case keepsItem => exact fun _ _ _ _ continues isItem => isItem.mono continues.built
  have output : ∀ output ∈ written.outputs, ∀ state,
      Construction.Continues definition [] third state →
      Records definition [] state (do
        let scope ← definition.scopeAt {} (.job index) none output.2
        return (output.1, ← .ofExpression (Value.parse scope output.2.toList)))
        fun table (result : String × Value Step) => result.1 = output.1 ∧ ∃ known,
          table.IsScope definition (.job index) none output.2 known ∧
            Value.parse known output.2.toList = .ok result.2 := by
    intro output _ state _
    apply (records_scopeAt records.1 (.job index) none output.2).bind
    intro middle known _ isScope
    apply (Reaches.ofExpression _).bind
    rintro after value _ ⟨rfl, parsed⟩
    exact .pure ⟨rfl, known, isScope, parsed⟩
  refine (Reaches.mapM ?keepsOutput output).bind fun fourth outputs toFourth known => .pure ⟨?_, ?_⟩
  case keepsOutput =>
    exact fun _ _ _ _ continues known =>
      known.imp_right (Exists.imp fun _ => And.imp_left fun isScope => isScope.mono continues.built)
  · constructor
    case id => rw [Job.id_foldl_addOutput, Job.id_foldl_addItem, isId]
    case condition => exact condition
    case items =>
      rw [Job.items_foldl_addOutput, Job.items_foldl_addItem, noItems, List.nil_append]
      exact placed.imp fun _ _ isItem => isItem.mono toFourth.built
    case outputs =>
      intro output mem
      rcases exists_of_mem_forall₂ known.flip mem with ⟨_, _, _, known, isScope, parsed⟩
      exact ⟨known, isScope, _, parsed⟩
  · intro result mem
    have listed := Job.outputs_foldl_addOutput _ outputs mem
    rw [Job.outputs_foldl_addItem, noOutputs, List.nil_append] at listed
    rcases exists_of_mem_forall₂ known listed with ⟨output, isWritten, sameName, known, isScope, parsed⟩
    exact ⟨output.2, known, sameName ▸ isWritten, isScope, parsed⟩

theorem records_construct :
    Records definition [] start definition.construct fun table workflow =>
      List.Forall₂ (fun entry job => table.IsJobAt definition entry.2 entry.1 job ∧
        table.ReadsOutputs definition entry.2 entry.1.2 job.outputs)
        definition.jobs.zipIdx workflow.jobs := by
  rw [construct]
  refine (Reaches.mapM ?keeps fun entry _ state _ =>
    records_jobAt entry.2 entry.1.1 entry.1.2).bind fun state jobs _ built => .pure built
  exact fun _ _ _ _ continues isJob =>
    ⟨isJob.1.mono continues.built, isJob.2.mono continues.built⟩

variable (definition) in
/-- The table that a build leaves. -/
def table : StepTable := definition.construction.built

variable (definition) in
theorem isChronicle_table : StepTable.IsChronicle definition definition.table :=
  records_construct.1.chronicle (.nil)

theorem isJobAt_of_build {workflow : Workflow} {warnings : List Warning}
    (built : definition.build = (.ok workflow, warnings)) :
    List.Forall₂ (fun entry job => definition.table.IsJobAt definition entry.2 entry.1 job)
      definition.jobs.zipIdx workflow.jobs :=
  (records_construct.2 workflow (congrArg Prod.fst built)).imp fun _ _ => And.left

theorem exists_isJobAt_of_build {workflow : Workflow} {warnings : List Warning}
    (built : definition.build = (.ok workflow, warnings)) {index : Nat}
    {written : String × JobDefinition} (isWritten : definition.jobs[index]? = some written) :
    ∃ job, workflow.jobs[index]? = some job ∧
      definition.table.IsJobAt definition index written job := by
  have entry : definition.jobs.zipIdx[index]? = some (written, index) := by
    rw [List.getElem?_zipIdx, isWritten, Nat.zero_add]
    rfl
  exact exists_getElem?_of_forall₂ (isJobAt_of_build built).flip entry

end WorkflowDefinition

end FlowPlan
