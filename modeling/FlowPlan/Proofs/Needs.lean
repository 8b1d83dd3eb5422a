import FlowPlan.Proofs.CoveredSteps
import FlowPlan.Workflow
import Mathlib.Data.List.Forall2
import Mathlib.Data.List.Nodup

/-! # What resolved jobs need

Each job of a resolved workflow is what resolving the job alone gives, with its
needs completed: behind the declared ones stand the other jobs that it reads
from, in the order of the workflow. All jobs that a covered condition shows are
among those that are read from.
-/

namespace FlowPlan

/-! ## Lists -/

section Lists

variable {α β γ : Type}

theorem forall₂_of_mapM {ε : Type} {f : α → Except ε β} {members : List α} {results : List β}
    (mapped : members.mapM f = .ok results) :
    List.Forall₂ (fun member result => f member = .ok result) members results := by
  induction members generalizing results with
  | nil =>
      cases mapped
      exact .nil
  | cons head tail induction =>
      rw [List.mapM_cons] at mapped
      cases first : f head with
      | error => rw [first] at mapped; cases mapped
      | ok value =>
          cases rest : tail.mapM f with
          | error => rw [first, rest] at mapped; cases mapped
          | ok values =>
              rw [first, rest] at mapped
              cases mapped
              exact .cons first (induction rest)

theorem exists_getElem?_of_forall₂ {relation : α → β → Prop} {members : List α} {others : List β}
    (related : List.Forall₂ relation members others) {index : Nat} {other : β}
    (found : others[index]? = some other) :
    ∃ member, members[index]? = some member ∧ relation member other := by
  induction related generalizing index with
  | nil => cases found
  | @cons head _ tail _ holds _ induction =>
      cases index with
      | zero =>
          cases found
          exact ⟨head, rfl, holds⟩
      | succ index => exact induction found

/-- What is made of each member and of what belongs to it. -/
theorem forall₂_map_zip {relation : α → β → Prop} {members : List α} {others : List β}
    (related : List.Forall₂ relation members others) (f : β → β) (g : α × β → γ) :
    List.Forall₂
      (fun member result => ∃ other, relation member other ∧ result = g (member, f other))
      members ((members.zip (others.map f)).map g) := by
  induction related with
  | nil => exact .nil
  | cons holds _ induction => exact .cons ⟨_, holds, rfl⟩ induction

theorem forall₂_filterMap {f : α → Option β} {members : List α}
    (total : ∀ member ∈ members, ∃ image, f member = some image) :
    List.Forall₂ (fun member image => f member = some image) members (members.filterMap f) := by
  induction members with
  | nil => exact .nil
  | cons head tail induction =>
      rcases total head List.mem_cons_self with ⟨image, found⟩
      rw [List.filterMap_cons_some found]
      exact .cons found (induction fun member mem => total member (List.mem_cons_of_mem head mem))

end Lists

namespace Workflow

/-! ## Completing needs -/

theorem completeNeeds_eq (declared inferred : List String) :
    completeNeeds declared inferred =
      declared ++ (distinct inferred).filter (· ∉ declared) := by
  induction inferred generalizing declared with
  | nil => exact (List.append_nil declared).symm
  | cons head tail induction =>
      have step : completeNeeds declared (head :: tail) =
          completeNeeds (if declared.contains head then declared else declared ++ [head]) tail :=
        rfl
      rw [step, induction, distinct_cons]
      split
      · rename_i present
        have mem : head ∈ declared := by simpa using present
        have notNew : ¬ decide (head ∉ declared) = true := by simpa using mem
        rw [List.filter_cons_of_neg (p := fun need => decide (need ∉ declared)) notNew,
          List.filter_filter]
        refine congrArg (declared ++ ·) (List.filter_congr fun member _ => ?_)
        by_cases inDeclared : member ∈ declared
        · simp [inDeclared]
        · have other : head ≠ member := fun equal => inDeclared (equal ▸ mem)
          simp [inDeclared, other]
      · rename_i absent
        have notMem : head ∉ declared := by simpa using absent
        have isNew : decide (head ∉ declared) = true := by simpa using notMem
        rw [List.filter_cons_of_pos (p := fun need => decide (need ∉ declared)) isNew,
          List.filter_filter, List.append_assoc, List.singleton_append]
        refine congrArg (declared ++ head :: ·) (List.filter_congr fun member _ => ?_)
        by_cases equal : head = member
        · simp [equal]
        · simp [equal, Ne.symm equal]

theorem nodup_completeNeeds {declared : List String} (distinct : declared.Nodup)
    (inferred : List String) : (completeNeeds declared inferred).Nodup := by
  rw [completeNeeds_eq]
  refine List.Nodup.append distinct ((nodup_distinct inferred).filter _) ?_
  intro need inDeclared inInferred
  exact of_decide_eq_true (List.mem_filter.mp inInferred).2 inDeclared

theorem mem_completeNeeds {declared inferred : List String} {need : String} :
    need ∈ completeNeeds declared inferred ↔ need ∈ declared ∨ need ∈ inferred := by
  rw [completeNeeds_eq, List.mem_append, List.mem_filter, mem_distinct, decide_eq_true_eq]
  by_cases need ∈ declared <;> simp [*]

/-! ## Reading from jobs -/

variable {workflow : Workflow} {jobs : List ResolvedJob} {job : Job} {resolved : ResolvedJob}

theorem mem_inferredNeeds {name : String} :
    name ∈ workflow.inferredNeeds jobs job resolved ↔
      name ∈ workflow.jobs.map Job.id ∧ name ≠ job.id ∧ name ∈ jobsRead jobs job resolved := by
  simp [inferredNeeds]

theorem mem_jobsRead_of_mem_conditionsOf {condition : Condition Step}
    (mem : condition ∈ conditionsOf job resolved) {name : String}
    (reads : .job name ∈ condition.sources) : name ∈ jobsRead jobs job resolved :=
  List.mem_append_left _ (List.mem_append_left _
    (List.mem_flatMap.mpr ⟨condition, mem, Sources.mem_jobs.mpr reads⟩))

theorem mem_jobsRead_of_mem_outputs {output : String × Value Step} (mem : output ∈ job.outputs)
    {name : String} (reads : .job name ∈ output.2.sources) : name ∈ jobsRead jobs job resolved :=
  List.mem_append_left _ (List.mem_append_right _
    (List.mem_flatMap.mpr ⟨output, mem, Sources.mem_jobs.mpr reads⟩))

theorem mem_conditionsOf_of_settings {condition : Condition Step}
    (found : condition ∈ job.settings.condition) : condition ∈ conditionsOf job resolved :=
  List.mem_append_left _ (List.mem_append_left _ (Option.mem_toList.mpr found))

theorem mem_conditionsOf_of_step {placed : ResolvedStep} (mem : placed ∈ resolved.steps)
    {condition : Condition Step} (found : condition ∈ placed.condition) :
    condition ∈ conditionsOf job resolved :=
  List.mem_append_right _ (List.mem_flatMap.mpr
    ⟨placed, mem, List.mem_append_left _ (Option.mem_toList.mpr found)⟩)

/-! ## Resolved jobs -/

/-- The job as it is resolved among all jobs of the workflow. -/
structure Completes (workflow : Workflow) (job : Job) (resolved : ResolvedJob) : Prop where
  id : resolved.id = job.id
  steps : (∀ item ∈ job.items, item.IsCovered) → ∀ placed ∈ resolved.steps, placed.IsCovered
  needs : ∃ jobs, resolved.needs =
    completeNeeds job.needs (workflow.inferredNeeds jobs job resolved)

theorem completes_of_resolve {resolved : ResolvedWorkflow}
    (resolves : workflow.resolve = .ok resolved) :
    List.Forall₂ workflow.Completes workflow.jobs resolved.jobs := by
  rw [resolve] at resolves
  cases mapped : workflow.jobs.mapM Job.resolve with
  | error => rw [mapped] at resolves; cases resolves
  | ok alone =>
      rw [mapped] at resolves
      cases resolves
      refine (forall₂_map_zip (forall₂_of_mapM mapped) (ResolvedJob.withOwners alone) _).imp ?_
      rintro job _ ⟨first, firstResolves, rfl⟩
      have known : first.id = job.id ∧ first.needs = job.needs := by
        rw [Job.resolve] at firstResolves
        cases ordered : job.graph.order with
        | error => rw [ordered] at firstResolves; cases firstResolves
        | ok order =>
            rw [ordered] at firstResolves
            cases firstResolves
            exact ⟨rfl, rfl⟩
      refine ⟨known.1, ?_, alone.map (ResolvedJob.withOwners alone), ?_⟩
      · intro covered placed mem
        rcases List.mem_map.mp mem with ⟨before, beforeMem, rfl⟩
        have beforeCovered := Job.isCovered_of_resolve covered firstResolves before beforeMem
        exact ⟨beforeCovered.step, beforeCovered.condition⟩
      · exact congrArg (completeNeeds · _) known.2

theorem ids_of_completes {jobs : List Job} {resolvedJobs : List ResolvedJob}
    (related : List.Forall₂ workflow.Completes jobs resolvedJobs) :
    resolvedJobs.map ResolvedJob.id = jobs.map Job.id := by
  induction related with
  | nil => rfl
  | cons completes _ induction => rw [List.map_cons, List.map_cons, completes.id, induction]

namespace Completes

variable (completes : workflow.Completes job resolved)

include completes

/-- Whatever the job reads from it needs, if it is another job of the workflow. -/
theorem mem_needs {name : String} (declared : name ∈ workflow.jobs.map Job.id)
    (other : name ≠ job.id) (read : ∀ jobs, name ∈ jobsRead jobs job resolved) :
    name ∈ resolved.needs := by
  rcases completes.needs with ⟨jobs, needs⟩
  rw [needs, mem_completeNeeds]
  exact .inr (mem_inferredNeeds.mpr ⟨declared, other, read jobs⟩)

end Completes

end Workflow

end FlowPlan
