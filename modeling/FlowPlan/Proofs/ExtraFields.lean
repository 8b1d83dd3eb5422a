import FlowPlan.Proofs.CoveredConstruction
import FlowPlan.Proofs.ReadRecords

/-! # Extra fields

A field with an unknown name is kept with what it is read from and written out
again. Whoever reads a field of a known name takes it for what it is, so no
extra field ever has the name of a known one.
-/

namespace FlowPlan

/-- The names of all entries are text, and none of them is known. -/
def Yaml.Entries.AreUnknown {φ : Type} (ofKey? : String → Option φ) (entries : Entries) : Prop :=
  ∀ entry ∈ entries, ∃ key, entry.1 = .string key ∧ ofKey? key = none

theorem Yaml.Entries.AreUnknown.hasKey_eq_false {φ : Type} {ofKey? : String → Option φ}
    {entries : Entries} (unknown : entries.AreUnknown ofKey?) {key : String}
    (known : (ofKey? key).isSome = true) : entries.hasKey (.string key) = false := by
  rw [hasKey, List.any_eq_false]
  intro entry mem
  rcases unknown entry mem with ⟨other, isOther, notKnown⟩
  have different : key ≠ other := by
    rintro rfl
    rw [notKnown] at known
    cases known
  simp [isOther, same, different]

inductive StepDefinition.ExtrasUnknown : StepDefinition → Prop
  | mk {step : StepDefinition} (extra : step.extra.AreUnknown StepField.ofKey?)
      (inside : ∀ children ∈ step.children, ∀ child ∈ children, child.ExtrasUnknown) :
      ExtrasUnknown step

structure JobDefinition.ExtrasUnknown (job : JobDefinition) : Prop where
  extra : job.extra.AreUnknown JobField.ofKey?
  steps : ∀ step ∈ job.steps, step.ExtrasUnknown

structure WorkflowDefinition.ExtrasUnknown (definition : WorkflowDefinition) : Prop where
  library : ∀ entry ∈ definition.library, entry.2.ExtrasUnknown
  jobs : ∀ entry ∈ definition.jobs, entry.2.ExtrasUnknown

theorem Yaml.Entries.AreUnknown.withExtra {φ : Type} {ofKey? : String → Option φ}
    {extra more : Entries} (areUnknown : extra.AreUnknown ofKey?) {key : String} {value : Yaml}
    (unknown : ofKey? key = none) (added : withExtra extra key value = .ok more) :
    more.AreUnknown ofKey? := by
  rw [Entries.withExtra] at added
  split at added
  · cases added
    exact List.forall_mem_append.mpr
      ⟨areUnknown, List.forall_mem_singleton.mpr ⟨key, rfl, unknown⟩⟩
  · cases added

/-! ## Steps -/

namespace StepDefinition

theorem kept_of_assign {step next : StepDefinition} {value : Yaml} {field : StepField}
    (assigned : step.assign value field = .ok next) :
    next.extra = step.extra ∧ next.children = step.children := by
  cases field with
  | children =>
      cases assigned
      exact ⟨rfl, rfl⟩
  | _ =>
      rcases exists_of_bind_eq_ok assigned with ⟨_, _, made⟩
      cases made
      exact ⟨rfl, rfl⟩

theorem extrasUnknown_empty : ExtrasUnknown {} :=
  .mk (List.forall_mem_nil _) forall_mem_none

theorem extrasUnknown_of_reading (value : Yaml) :
    (∀ step, StepDefinition.read value = .ok step → step.ExtrasUnknown) ∧
      ∀ steps, readMembers value = .ok steps → ∀ step ∈ steps, step.ExtrasUnknown := by
  have everywhere : value.Everywhere fun _ => True :=
    Yaml.everywhere_of_forall (fun _ => trivial) value
  refine holds_of_read extrasUnknown_empty ?assigns ?extras ?children (fun _ holds _ => holds)
    everywhere
  case assigns =>
    rintro step field value next ⟨extra, inside⟩ assigned
    rcases kept_of_assign assigned with ⟨sameExtra, sameChildren⟩
    exact .mk (sameExtra ▸ extra) (sameChildren ▸ inside)
  case extras =>
    rintro step key value more _ unknown ⟨extra, inside⟩ added
    exact .mk (extra.withExtra unknown added) inside
  case children =>
    rintro step children ⟨extra, _⟩ inside
    exact .mk extra inside

theorem extrasUnknown_of_within? {steps : List StepDefinition} {path : List Nat}
    {found : StepDefinition} (within : within? steps path = some found)
    (unknown : ∀ step ∈ steps, step.ExtrasUnknown) : found.ExtrasUnknown := by
  fun_induction within? steps path with
  | case1 => cases within
  | case2 steps index => exact unknown found (List.mem_of_getElem? within)
  | case3 steps index next rest induction =>
      rcases Option.bind_eq_some_iff.mp within with ⟨step, atIndex, within⟩
      rcases Option.bind_eq_some_iff.mp within with ⟨children, isChildren, within⟩
      cases unknown step (List.mem_of_getElem? atIndex) with
      | mk _ inside => exact induction children within (inside children isChildren)

end StepDefinition

/-! ## Jobs and workflows -/

theorem JobDefinition.extrasUnknown_of_read {value : Yaml} {job : JobDefinition}
    (read : JobDefinition.read value = .ok job) : job.ExtrasUnknown := by
  rcases exists_of_bind_eq_ok read with ⟨entries, _, read⟩
  rcases exists_of_bind_eq_ok read with ⟨before, fieldsRead, read⟩
  rcases exists_of_bind_eq_ok read with ⟨whole, completed, made⟩
  have empty : JobDefinition.ExtrasUnknown {} := ⟨List.forall_mem_nil _, List.forall_mem_nil _⟩
  have beforeUnknown : before.ExtrasUnknown := by
    refine holds_of_readFields ?_ ?_ empty (fun _ _ _ _ => trivial) fieldsRead
    · intro record field content result _ unknown assigned
      cases field with
      | steps =>
          rcases exists_of_bind_eq_ok assigned with ⟨steps, stepsRead, made⟩
          cases made
          exact ⟨unknown.extra, (StepDefinition.extrasUnknown_of_reading content).2 _ stepsRead⟩
      | _ =>
          rcases exists_of_bind_eq_ok assigned with ⟨_, _, made⟩
          cases made
          exact ⟨unknown.extra, unknown.steps⟩
    · intro record key content result _ notKnown unknown kept
      rcases exists_of_bind_eq_ok kept with ⟨_, _, kept⟩
      rcases exists_of_bind_eq_ok kept with ⟨more, added, made⟩
      cases made
      exact ⟨unknown.extra.withExtra notKnown added, unknown.steps⟩
  cases made
  exact ⟨(Yaml.Entries.eq_of_completed completed).1 ▸ beforeUnknown.extra, beforeUnknown.steps⟩

namespace WorkflowDefinition

/-- No field of a definition that is read has a known name and counts as an extra one. -/
theorem extrasUnknown_of_ofFields {fields : List RawField} {definition : WorkflowDefinition}
    (read : ofFields fields = .ok definition) : definition.ExtrasUnknown := by
  have empty : WorkflowDefinition.ExtrasUnknown {} :=
    ⟨List.forall_mem_nil _, List.forall_mem_nil _⟩
  refine holds_of_readFields ?_ ?_ empty (fun _ _ _ _ => trivial) read
  · intro record field content result _ unknown assigned
    cases field with
    | library =>
        rcases exists_of_bind_eq_ok assigned with ⟨library, libraryRead, made⟩
        cases made
        refine ⟨fun entry mem => ?_, unknown.jobs⟩
        rcases Yaml.exists_of_readNamed libraryRead entry mem with ⟨value, _, valueRead⟩
        exact (StepDefinition.extrasUnknown_of_reading value).1 _ valueRead
    | jobs =>
        rcases exists_of_bind_eq_ok assigned with ⟨jobs, jobsRead, made⟩
        cases made
        refine ⟨unknown.library, fun entry mem => ?_⟩
        rcases Yaml.exists_of_readNamed jobsRead entry mem with ⟨value, _, valueRead⟩
        exact JobDefinition.extrasUnknown_of_read valueRead
    | _ =>
        rcases exists_of_bind_eq_ok assigned with ⟨_, _, made⟩
        cases made
        exact ⟨unknown.library, unknown.jobs⟩
  · intro record key content result _ _ unknown kept
    exact Except.ok.inj kept ▸ unknown

theorem extrasUnknown_of_step? {definition : WorkflowDefinition}
    (unknown : definition.ExtrasUnknown) {position : Position} {written : StepDefinition}
    (found : definition.step? position = some written) : written.ExtrasUnknown := by
  have libraryUnknown : ∀ name step, definition.libraryStep? name = some step →
      step.ExtrasUnknown :=
    fun name step isStep => unknown.library (name, step) (mem_of_lookup isStep)
  rw [step?] at found
  split at found
  · exact libraryUnknown _ written found
  · rcases Option.bind_eq_some_iff.mp found with ⟨step, isStep, found⟩
    rcases Option.bind_eq_some_iff.mp found with ⟨children, isChildren, found⟩
    cases libraryUnknown _ step isStep with
    | mk _ inside =>
        exact StepDefinition.extrasUnknown_of_within? found (inside children isChildren)
  · rcases Option.bind_eq_some_iff.mp found with ⟨⟨id, job⟩, atIndex, found⟩
    have jobUnknown := unknown.jobs (id, job) (List.mem_of_getElem? atIndex)
    exact StepDefinition.extrasUnknown_of_within? found jobUnknown.steps

theorem lacksOtherIf {definition : WorkflowDefinition} (unknown : definition.ExtrasUnknown) :
    definition.LacksOtherIf := by
  intro position written found
  cases extrasUnknown_of_step? unknown found with
  | mk extra _ => exact extra.hasKey_eq_false (by decide +kernel)

end WorkflowDefinition

end FlowPlan
