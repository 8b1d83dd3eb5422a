import FlowPlan.Proofs.Depth
import FlowPlan.Proofs.Explanations

/-! # Circles in definitions

A definition whose parts are all in order describes a workflow, unless something
that its jobs need requires itself. Steps and items are taken up separately, but
no circle slips in between: what has been built is grounded, and below a
grounded task there is no way back to it.
-/

namespace FlowPlan

namespace WorkflowDefinition

variable {definition : WorkflowDefinition}

/-- Nothing is wrong with what is written, taken piece by piece. -/
structure IsAccepted (definition : WorkflowDefinition) : Prop where
  jobs : ∀ entry ∈ definition.jobs, definition.AcceptsJob entry.2
  tasks : ∀ task, definition.Needs task → definition.Accepts task

/-! ## Reported circles -/

namespace ClosesCircle

variable {labels : List String} (closes : definition.ClosesCircle labels)

include closes

theorem two_le_length : 2 ≤ labels.length := by
  rcases closes with ⟨ask, first, between, _, rfl, _⟩
  simp

theorem head?_eq_getLast? : labels.head? = labels.getLast? := by
  rcases closes with ⟨ask, first, between, _, rfl, _⟩
  rw [List.map_append, List.map_cons, List.map_singleton, List.getLast?_concat]
  rfl

/-- The way leads from its first task back to it. -/
theorem exists_transGen :
    ∃ task, definition.Needs task ∧ Relation.TransGen definition.Requires task task := by
  rcases closes with ⟨ask, first, between, _, _, needed, linked⟩
  refine ⟨ask first, needed first List.mem_cons_self, ?_⟩
  have transitive : IsTrans Position fun position next =>
      Relation.TransGen definition.Requires (ask position) (ask next) :=
    ⟨fun _ _ _ => Relation.TransGen.trans⟩
  have ordered := List.isChain_iff_pairwise.mp linked
  rw [List.cons_append, List.pairwise_cons] at ordered
  exact ordered.1 first (List.mem_append_right between List.mem_cons_self)

end ClosesCircle

theorem closesCircle_of_explains {labels : List String}
    (explains : definition.Explains (.definition (.circular labels))) :
    definition.ClosesCircle labels := by
  cases explains with
  | circle closes => exact closes
  | task plain | job plain => exact absurd ⟨labels, rfl⟩ plain

/-! ## Circles that are there -/

theorem Grounded.of_reflTransGen {task other : Task} (grounded : definition.Grounded task)
    (leads : Relation.ReflTransGen definition.Requires task other) : definition.Grounded other := by
  induction leads with
  | refl => exact grounded
  | tail _ requires induction =>
      cases induction with
      | intro _ below => exact below _ requires

theorem grounded_of_build {workflow : Workflow} {warnings : List Warning}
    (built : definition.build = (.ok workflow, warnings)) {task : Task}
    (needed : definition.Needs task) : definition.Grounded task := by
  rcases needed with ⟨index, entry, first, isEntry, requires, leads⟩
  rcases exists_isJobAt_of_build built isEntry with ⟨job, _, isJob⟩
  exact (isJob.grounded definition.isChronicle_table.isGrounded requires).of_reflTransGen leads

/-- Nothing is built around a circle. -/
theorem exists_error_of_circle {task : Task} (needed : definition.Needs task)
    (circle : Relation.TransGen definition.Requires task task) :
    ∃ error, definition.build.1 = .error error := by
  cases built : definition.build.1 with
  | ok workflow =>
      have grounded := grounded_of_build (Prod.ext built rfl) needed
      exact absurd circle grounded.not_transGen
  | error error => exact ⟨error, rfl⟩

/-- If all parts are in order, nothing but a circle can go wrong. -/
theorem exists_circular_of_isAccepted (accepted : definition.IsAccepted) {error : BuildError}
    (failed : definition.build.1 = .error error) :
    ∃ labels, error = .definition (.circular labels) := by
  cases explains_of_build failed with
  | circle _ => exact ⟨_, rfl⟩
  | task _ needed refused => exact absurd (accepted.tasks _ needed) refused
  | job _ mem refused => exact absurd (accepted.jobs _ mem) refused

theorem exists_build_of_isAccepted (accepted : definition.IsAccepted)
    (straight : ∀ task, definition.Needs task → ¬ Relation.TransGen definition.Requires task task) :
    ∃ workflow, definition.build.1 = .ok workflow := by
  cases built : definition.build.1 with
  | ok workflow => exact ⟨workflow, rfl⟩
  | error error =>
      rcases exists_circular_of_isAccepted accepted built with ⟨labels, rfl⟩
      have closes := closesCircle_of_explains (explains_of_build built)
      rcases closes.exists_transGen with ⟨task, needed, circle⟩
      exact absurd circle (straight task needed)

/-- A definition whose jobs are in order describes a workflow. -/
theorem exists_build (jobs : ∀ index entry, definition.jobs[index]? = some entry →
    definition.AcceptsJob entry.2 ∧
      ∀ task, definition.JobRequires index entry.2 task → definition.Grounded task) :
    ∃ workflow warnings, definition.build = (.ok workflow, warnings) := by
  have grounded : ∀ task, definition.Needs task → definition.Grounded task := by
    rintro task ⟨index, entry, first, isEntry, requires, leads⟩
    exact ((jobs index entry isEntry).2 first requires).of_reflTransGen leads
  have accepted : definition.IsAccepted := by
    constructor
    case jobs =>
      intro entry mem
      rcases List.getElem?_of_mem mem with ⟨index, isEntry⟩
      exact (jobs index entry isEntry).1
    case tasks => exact fun task needed => (grounded task needed).accepted
  have straight := fun task needed => (grounded task needed).not_transGen
  rcases exists_build_of_isAccepted accepted straight with ⟨workflow, built⟩
  exact ⟨workflow, definition.build.2, Prod.ext built rfl⟩

/-- Building asks no deeper than there are positions, and it fails with a circle if one is needed
and nothing else is wrong, and only if one is needed. -/
theorem build_reports_circles (definition : WorkflowDefinition) :
    (∀ below count, 2 * definition.withPositions.length < count →
      ((Builder.above definition)^[count] below {}).construct definition = definition.construct) ∧
    (∀ labels, definition.build.1 = .error (.definition (.circular labels)) →
      2 ≤ labels.length ∧ labels.head? = labels.getLast? ∧ definition.ClosesCircle labels ∧
      ∃ task, definition.Needs task ∧ Relation.TransGen definition.Requires task task) ∧
    (∀ task, definition.Needs task → Relation.TransGen definition.Requires task task →
      ∃ error, definition.build.1 = .error error ∧
        (definition.IsAccepted → ∃ labels, error = .definition (.circular labels))) ∧
    (definition.IsAccepted →
      (∀ task, definition.Needs task → ¬ Relation.TransGen definition.Requires task task) →
      ∃ workflow, definition.build.1 = .ok workflow) := by
  refine ⟨fun below _ => construct_iterate_above below, ?_, ?_, exists_build_of_isAccepted⟩
  · intro labels failed
    have closes := closesCircle_of_explains (explains_of_build failed)
    exact ⟨closes.two_le_length, closes.head?_eq_getLast?, closes, closes.exists_transGen⟩
  · intro task needed circle
    rcases exists_error_of_circle needed circle with ⟨error, failed⟩
    exact ⟨error, failed, fun accepted => exists_circular_of_isAccepted accepted failed⟩

end WorkflowDefinition

/-! ## Two library steps that depend on each other -/

namespace Sample

def roundabout : WorkflowDefinition where
  library := [("a", { run := some "a", dependsOn := .single "b" }),
    ("b", { run := some "b", dependsOn := .single "a" })]
  jobs := [("j", { steps := [{ reusable := some "a" }] })]

theorem build_roundabout :
    roundabout.build.1 = .error (.definition (.circular ["a", "b", "a"])) := by
  have enough : 2 * roundabout.withPositions.length < 7 := by decide
  have nothing : Building Step := throw (.definition (.unknownStep ""))
  rw [WorkflowDefinition.build, ← WorkflowDefinition.construct_iterate_above
    (fun _ => ⟨fun _ => nothing, fun _ => nothing.map Item.ofStep⟩) enough]
  rfl

theorem build_reports_circles_roundabout :
    roundabout.build.1 = .error (.definition (.circular ["a", "b", "a"])) ∧
      roundabout.ClosesCircle ["a", "b", "a"] ∧
      ∃ task, roundabout.Needs task ∧ Relation.TransGen roundabout.Requires task task := by
  rcases roundabout.build_reports_circles with ⟨_, reported, _⟩
  exact ⟨build_roundabout, (reported _ build_roundabout).2.2⟩

end Sample

end FlowPlan
