import FlowPlan.Proofs.ChronicledJobs
import FlowPlan.Proofs.RenderedReads

/-! # Needs of jobs that use artifacts

A step that uses the artifacts of another job names that job, but what it refers
to is a step, which several jobs may run. The job that is needed is the first
one of these. It is the job that is named if no job before it runs the step.
-/

namespace FlowPlan

/-! ## Owners -/

namespace ResolvedWorkflow

end ResolvedWorkflow

/-! ## Needs -/

namespace Workflow

end Workflow

namespace ResolvedJob.Arranges

variable {job : Job} {resolved : ResolvedJob} {order : List Nat}
  (arranges : resolved.Arranges job order)

include arranges

end ResolvedJob.Arranges

/-! ## What a step consumes -/

namespace StepTable

variable {definition : WorkflowDefinition} {table : StepTable}

end StepTable

namespace WorkflowDefinition

variable {definition : WorkflowDefinition}

/-! ## What stands in a job -/

section Built

variable {workflow : Workflow} {warnings : List Warning}
  (built : definition.build = (.ok workflow, warnings)) {resolved : ResolvedWorkflow}
  (resolves : workflow.resolve = .ok resolved)

include built resolves

theorem exists_jobs_of_resolve {index : Nat} {entry : String × JobDefinition}
    (isJob : definition.jobs[index]? = some entry) :
    ∃ job found, workflow.jobs[index]? = some job ∧ job.id = entry.1 ∧
      definition.table.IsJobAt definition index entry job ∧
      definition.construction.BuildsJob definition index entry.2 job ∧
      resolved.jobs[index]? = some found ∧ found.id = job.id ∧
      ∃ order, found.Arranges job order := by
  rcases exists_isJobAt_of_build built isJob with ⟨job, atIndex, isJobAt⟩
  rcases (buildsJob_of_build built).2 index job atIndex with ⟨written, isWritten, builds⟩
  cases isJob.symm.trans isWritten
  rcases exists_getElem?_of_forall₂ (Workflow.arranges_of_resolve resolves).flip atIndex with
    ⟨found, isFound, arranges⟩
  rcases exists_getElem?_of_forall₂ (Workflow.completes_of_resolve resolves) isFound with
    ⟨sameJob, isSameJob, completes⟩
  cases atIndex.symm.trans isSameJob
  exact ⟨job, found, atIndex, isJobAt.id, isJobAt, builds, isFound, completes.id, arranges⟩

end Built

end WorkflowDefinition

/-! ## A step that two jobs run -/

namespace Sample

end Sample

end FlowPlan
