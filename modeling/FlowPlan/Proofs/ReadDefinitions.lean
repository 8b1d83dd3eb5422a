import FlowPlan.Proofs.ExtraFields

/-! # What definitions are read

A definition that is read holds only what can be written and read again: the
values that are kept in it have distinct keys everywhere, numbers of minutes are
small enough, and its extra fields have names of their own and no tags.
-/

namespace FlowPlan

namespace Yaml

/-- A value that is kept as it is. Where null is written, nothing is kept. -/
structure IsKept (value : Yaml) : Prop where
  orderly : value.IsOrderly
  isGiven : value ≠ .null

/-- The names of the fields are text and unknown, and tags and repeated keys do not occur. -/
structure Entries.AreExtra {φ : Type} (ofKey? : String → Option φ) (entries : Entries) : Prop where
  unknown : entries.AreUnknown ofKey?
  tagFree : ∀ entry ∈ entries, entry.2.isTagFree = true
  orderly : ∀ entry ∈ entries, entry.2.IsOrderly

theorem Entries.areExtra_nil {φ : Type} (ofKey? : String → Option φ) : AreExtra ofKey? [] :=
  ⟨List.forall_mem_nil _, List.forall_mem_nil _, List.forall_mem_nil _⟩

theorem Entries.AreExtra.withExtra {φ : Type} {ofKey? : String → Option φ} {extra more : Entries}
    (areExtra : extra.AreExtra ofKey?) {key : String} {value : Yaml} (orderly : value.IsOrderly)
    (unknown : ofKey? key = none) (added : extra.withExtra key value = .ok more) :
    more.AreExtra ofKey? := by
  have allUnknown := areExtra.unknown.withExtra unknown added
  rw [Entries.withExtra] at added
  split at added
  · rename_i isFree
    cases added
    exact ⟨allUnknown,
      List.forall_mem_append.mpr ⟨areExtra.tagFree, List.forall_mem_singleton.mpr isFree⟩,
      List.forall_mem_append.mpr ⟨areExtra.orderly, List.forall_mem_singleton.mpr orderly⟩⟩
  · cases added

theorem isGiven_of_received? {value received : Yaml} (isGiven : value ≠ .null)
    (isReceived : value.received? = some received) : received ≠ .null := by
  rintro rfl
  rw [received?.eq_def] at isReceived
  cases value with
  | null => exact isGiven rfl
  | sequence | mapping | tagged =>
      rw [withNextTags] at isReceived
      rcases Option.bind_eq_some_iff.mp isReceived with ⟨_, _, made⟩
      cases made
  | _ => simp [withNextTags] at isReceived

theorem isKept_of_readAny {value : Yaml} {kept : Option Yaml} (isRead : readAny value = .ok kept) :
    ∀ value ∈ kept, value.IsKept := by
  unfold readAny readOptional at isRead
  split at isRead
  · cases isRead
    exact forall_mem_none
  · rename_i isGiven
    dsimp only at isRead
    cases isReceived : value.received? with
    | none => rw [isReceived] at isRead; cases isRead
    | some received =>
        rw [isReceived] at isRead
        cases isRead
        rintro _ ⟨⟩
        exact ⟨isOrderly_of_received? isReceived, isGiven_of_received? isGiven isReceived⟩

theorem isKept_of_readEntries {value : Yaml} {entries : Entries}
    (isRead : readEntries value = .ok entries) : (mapping entries).IsKept :=
  ⟨isOrderly_of_readEntries isRead, nofun⟩

theorem isKept_nil : (mapping []).IsKept := ⟨isOrderly_nil, nofun⟩

theorem lt_of_readMinutes {value : Yaml} {minutes : Option Nat}
    (isRead : readOptional readMinutes value = .ok minutes) : ∀ number ∈ minutes, number < 2 ^ 64 := by
  unfold readOptional at isRead
  split at isRead
  · cases isRead
    exact forall_mem_none
  · unfold readMinutes at isRead
    split at isRead
    · split at isRead
      · rename_i isSmall
        cases isRead
        rintro _ ⟨⟩
        exact isSmall
      · cases isRead
    · cases isRead

end Yaml

open Yaml

/-! ## Steps -/

namespace StepDefinition

/-- This holds of the values that are kept as they are in fields of the step itself. -/
structure Keeps (holds : Yaml → Prop) (step : StepDefinition) : Prop where
  inputs : holds (.mapping step.inputs)
  env : holds (.mapping step.env)

structure HasFitFields (step : StepDefinition) : Prop where
  kept : step.Keeps IsKept
  minutes : ∀ minutes ∈ step.timeoutMinutes, minutes < 2 ^ 64
  extra : step.extra.AreExtra StepField.ofKey?

inductive IsFit : StepDefinition → Prop
  | mk {step : StepDefinition} (fields : step.HasFitFields)
      (distinct : step.extra.areDistinct = true)
      (inside : ∀ children ∈ step.children, ∀ child ∈ children, child.IsFit) : step.IsFit

/-- A step whose fields are being read. -/
structure IsFitSoFar (step : StepDefinition) : Prop where
  fields : step.HasFitFields
  inside : ∀ children ∈ step.children, ∀ child ∈ children, child.IsFit

theorem hasFitFields_empty : HasFitFields {} :=
  ⟨⟨isKept_nil, isKept_nil⟩, forall_mem_none, Entries.areExtra_nil _⟩

theorem hasFitFields_of_assign {step next : StepDefinition} {field : StepField} {value : Yaml}
    (fit : step.HasFitFields) (assigned : step.assign value field = .ok next) :
    next.HasFitFields := by
  cases field with
  | children =>
      cases assigned
      exact fit
  | inputs =>
      rcases exists_of_bind_eq_ok assigned with ⟨_, isRead, made⟩
      cases made
      exact ⟨{ fit.kept with inputs := isKept_of_readEntries isRead }, fit.minutes, fit.extra⟩
  | env =>
      rcases exists_of_bind_eq_ok assigned with ⟨_, isRead, made⟩
      cases made
      exact ⟨{ fit.kept with env := isKept_of_readEntries isRead }, fit.minutes, fit.extra⟩
  | timeoutMinutes =>
      rcases exists_of_bind_eq_ok assigned with ⟨_, isRead, made⟩
      cases made
      exact ⟨{ fit.kept with }, lt_of_readMinutes isRead, fit.extra⟩
  | _ =>
      rcases exists_of_bind_eq_ok assigned with ⟨_, _, made⟩
      cases made
      exact ⟨{ fit.kept with }, fit.minutes, fit.extra⟩

theorem isFit_of_reading {value : Yaml} (orderly : value.IsOrderly) :
    (∀ step, read value = .ok step → step.IsFit) ∧
      ∀ steps, readMembers value = .ok steps → ∀ step ∈ steps, step.IsFit := by
  have empty : IsFitSoFar {} := ⟨hasFitFields_empty, forall_mem_none⟩
  refine holds_of_read empty ?assigns ?extras ?children ?completes orderly
  case assigns =>
    intro step field value next ⟨fit, inside⟩ assigned
    exact ⟨hasFitFields_of_assign fit assigned, (kept_of_assign assigned).2 ▸ inside⟩
  case extras =>
    intro step key value more orderly unknown ⟨fit, inside⟩ added
    exact ⟨⟨{ fit.kept with }, fit.minutes, fit.extra.withExtra orderly unknown added⟩, inside⟩
  case children =>
    intro step children ⟨fit, _⟩ inside
    exact ⟨⟨{ fit.kept with }, fit.minutes, fit.extra⟩, inside⟩
  case completes => exact fun step ⟨fit, inside⟩ distinct => .mk fit distinct inside

end StepDefinition

/-! ## Jobs -/

namespace JobDefinition

/-- This holds of the values that are kept as they are in fields of the job itself. -/
structure Keeps (holds : Yaml → Prop) (job : JobDefinition) : Prop where
  runsOn : ∀ value ∈ job.runsOn, holds value
  permissions : ∀ value ∈ job.permissions, holds value
  environment : ∀ value ∈ job.environment, holds value
  strategy : ∀ value ∈ job.strategy, holds value
  services : ∀ value ∈ job.services, holds value
  container : ∀ value ∈ job.container, holds value
  env : holds (.mapping job.env)

structure HasFitFields (job : JobDefinition) : Prop where
  kept : job.Keeps IsKept
  minutes : ∀ minutes ∈ job.timeoutMinutes, minutes < 2 ^ 64
  extra : job.extra.AreExtra JobField.ofKey?
  steps : ∀ step ∈ job.steps, step.IsFit

structure IsFit (job : JobDefinition) : Prop extends job.HasFitFields where
  distinct : job.extra.areDistinct = true

theorem hasFitFields_empty : HasFitFields {} where
  kept := by constructor <;> first | exact forall_mem_none | exact isKept_nil
  minutes := forall_mem_none
  extra := Entries.areExtra_nil _
  steps := List.forall_mem_nil _

theorem hasFitFields_of_assign {job next : JobDefinition} {field : JobField} {value : Yaml}
    (orderly : value.IsOrderly) (fit : job.HasFitFields)
    (assigned : job.assign field value = .ok next) : next.HasFitFields := by
  cases field <;> rcases exists_of_bind_eq_ok assigned with ⟨_, isRead, made⟩ <;> cases made
  case runsOn => exact { fit with kept := { fit.kept with runsOn := isKept_of_readAny isRead } }
  case permissions =>
    exact { fit with kept := { fit.kept with permissions := isKept_of_readAny isRead } }
  case environment =>
    exact { fit with kept := { fit.kept with environment := isKept_of_readAny isRead } }
  case strategy =>
    exact { fit with kept := { fit.kept with strategy := isKept_of_readAny isRead } }
  case services =>
    exact { fit with kept := { fit.kept with services := isKept_of_readAny isRead } }
  case container =>
    exact { fit with kept := { fit.kept with container := isKept_of_readAny isRead } }
  case env => exact { fit with kept := { fit.kept with env := isKept_of_readEntries isRead } }
  case timeoutMinutes => exact { fit with kept := { fit.kept with }, minutes := lt_of_readMinutes isRead }
  case steps =>
    have steps := (StepDefinition.isFit_of_reading orderly).2 _ isRead
    exact { fit with kept := { fit.kept with }, steps := steps }
  all_goals exact { fit with kept := { fit.kept with } }

theorem isFit_of_read {value : Yaml} (orderly : value.IsOrderly) {job : JobDefinition}
    (isRead : JobDefinition.read value = .ok job) : job.IsFit := by
  rcases exists_of_bind_eq_ok isRead with ⟨entries, isEntries, isRead⟩
  rcases exists_of_bind_eq_ok isRead with ⟨before, fieldsRead, isRead⟩
  rcases exists_of_bind_eq_ok isRead with ⟨extra, completed, made⟩
  cases made
  have allOrderly : ∀ field ∈ entries.rawFields, ∀ content, field.2 = .ok content →
      content.IsOrderly := by
    intro field mem content isContent
    rcases List.mem_map.mp mem with ⟨entry, isEntry, rfl⟩
    cases isContent
    exact (everywhere_of_readFieldEntries orderly isEntries entry isEntry).2
  have fit : before.HasFitFields := by
    refine holds_of_readFields ?assigns ?others hasFitFields_empty allOrderly fieldsRead
    case assigns => exact fun _ _ _ _ orderly fit => hasFitFields_of_assign orderly fit
    case others =>
      intro job key content next orderly unknown fit kept
      rcases exists_of_bind_eq_ok kept with ⟨value, isValue, kept⟩
      rcases exists_of_bind_eq_ok kept with ⟨more, added, made⟩
      cases made
      have extra := fit.extra.withExtra (orderly value isValue) unknown added
      exact { fit with kept := { fit.kept with }, extra := extra }
  rcases Entries.eq_of_completed completed with ⟨rfl, distinct⟩
  exact ⟨fit, distinct⟩

end JobDefinition

/-! ## Workflows -/

namespace WorkflowDefinition

/-- This holds of the values that are kept as they are in fields of the workflow itself. -/
structure Keeps (holds : Yaml → Prop) (workflow : WorkflowDefinition) : Prop where
  on : ∀ value ∈ workflow.on, holds value
  permissions : ∀ value ∈ workflow.permissions, holds value
  env : holds (.mapping workflow.env)
  concurrency : ∀ value ∈ workflow.concurrency, holds value
  defaults : ∀ value ∈ workflow.defaults, holds value

structure IsFit (workflow : WorkflowDefinition) : Prop where
  kept : workflow.Keeps IsKept
  library : ∀ entry ∈ workflow.library, entry.2.IsFit
  jobs : ∀ entry ∈ workflow.jobs, entry.2.IsFit

theorem isFit_empty : IsFit {} where
  kept := by constructor <;> first | exact forall_mem_none | exact isKept_nil
  library := List.forall_mem_nil _
  jobs := List.forall_mem_nil _

theorem isFit_of_assign {workflow next : WorkflowDefinition} {field : WorkflowField} {value : Yaml}
    (fit : workflow.IsFit) (assigned : workflow.assign field value = .ok next) : next.IsFit := by
  cases field <;> rcases exists_of_bind_eq_ok assigned with ⟨_, isRead, made⟩ <;> cases made
  case name => exact { fit with kept := { fit.kept with } }
  case on => exact { fit with kept := { fit.kept with on := isKept_of_readAny isRead } }
  case permissions =>
    exact { fit with kept := { fit.kept with permissions := isKept_of_readAny isRead } }
  case env => exact { fit with kept := { fit.kept with env := isKept_of_readEntries isRead } }
  case concurrency =>
    exact { fit with kept := { fit.kept with concurrency := isKept_of_readAny isRead } }
  case defaults => exact { fit with kept := { fit.kept with defaults := isKept_of_readAny isRead } }
  case library =>
    refine { fit with kept := { fit.kept with }, library := fun entry mem => ?_ }
    rcases exists_of_readNamed isRead entry mem with ⟨content, orderly, found⟩
    exact (StepDefinition.isFit_of_reading orderly).1 _ found
  case jobs =>
    refine { fit with kept := { fit.kept with }, jobs := fun entry mem => ?_ }
    rcases exists_of_readNamed isRead entry mem with ⟨content, orderly, found⟩
    exact JobDefinition.isFit_of_read orderly found

theorem isFit_of_ofFields {fields : List RawField} {workflow : WorkflowDefinition}
    (isRead : ofFields fields = .ok workflow) : workflow.IsFit := by
  refine holds_of_readFields ?assigns ?others isFit_empty (fun _ _ _ _ => trivial) isRead
  case assigns => exact fun _ _ _ _ _ => isFit_of_assign
  case others => exact fun _ _ _ _ _ _ fit kept => Except.ok.inj kept ▸ fit

end WorkflowDefinition

end FlowPlan
