import FlowPlan.Proofs.WrittenValues

/-! # Reading definitions that were written

A record is written with all of its fields, each under its main name, and then
with its extra fields. It reads as the record that was written if each of its
fields does, to any depth.
-/

namespace FlowPlan

open Yaml

/-! ## Records -/

section Records

variable {φ : Type} {ofKey? : String → Option φ} {key : φ → String}

/-- The fields of a record under their names, with the extra ones behind them. -/
def recordEntries (key : φ → String) (value : φ → Yaml) (fields : List φ) (extra : Entries) :
    Entries :=
  fields.map (fun field => (.string (key field), value field)) ++ extra

variable (isKey : ∀ field, ofKey? (key field) = some field)

theorem Yaml.Entries.AreExtra.isStable {extra : Entries} (areExtra : extra.AreExtra ofKey?) :
    ∀ entry ∈ extra, entry.1.IsStable ∧ entry.2.IsStable := by
  intro entry mem
  rcases areExtra.unknown entry mem with ⟨name, isName, _⟩
  rw [isName]
  exact ⟨isStable_string name, isStable_of_isOrderly (areExtra.orderly entry mem)
    (keepsTags_of_isTagFree (areExtra.tagFree entry mem))⟩

theorem Yaml.Entries.AreUnknown.pairwise {extra : Entries} (unknown : extra.AreUnknown ofKey?)
    (distinct : extra.areDistinct = true) :
    extra.Pairwise fun earlier later => later.1.same earlier.1 = false := by
  induction extra with
  | nil => exact .nil
  | cons head tail induction =>
      rcases List.forall_mem_cons.mp unknown with ⟨⟨name, isName, _⟩, others⟩
      rw [Entries.areDistinct, Bool.and_eq_true, Bool.not_eq_true'] at distinct
      refine .cons (fun later mem => ?_) (induction others distinct.2)
      rcases others later mem with ⟨other, isOther, _⟩
      have different := List.any_eq_false.mp distinct.1 later mem
      rw [isName, isOther] at different ⊢
      simpa [same, eq_comm] using different

/-- Extra fields are kept one after another. -/
theorem readFields_extra [DecidableEq φ] {ρ : Type} {assign : ρ → φ → Yaml → Reading ρ}
    {other : ρ → String → Reading Yaml → Reading ρ} {withExtra : Entries → ρ}
    (keeps : ∀ before name value, value.isTagFree = true →
      other (withExtra before) name (.ok value) = .ok (withExtra (before ++ [(.string name, value)])))
    (given : List φ) (before : Entries) {extra : Entries} (areExtra : extra.AreExtra ofKey?) :
    readFields ofKey? assign other given (withExtra before) extra.rawFields =
      .ok (withExtra (before ++ extra)) := by
  induction extra generalizing before with
  | nil => rw [List.append_nil]; rfl
  | cons head tail induction =>
      rcases head with ⟨name, value⟩
      rcases List.forall_mem_cons.mp areExtra.unknown with ⟨⟨text, isText, isUnknown⟩, unknown⟩
      rcases List.forall_mem_cons.mp areExtra.tagFree with ⟨isFree, tagFree⟩
      cases isText
      have others : Entries.AreExtra ofKey? tail :=
        ⟨unknown, tagFree, (List.forall_mem_cons.mp areExtra.orderly).2⟩
      rw [Entries.rawFields, List.map_cons, readFields, ← Entries.rawFields]
      simp only [readText, untagged, bind, Except.bind, isUnknown, keeps before text value isFree]
      rw [induction _ others, List.append_assoc, List.singleton_append]

include isKey

theorem isStable_record {value : φ → Yaml} (each : ∀ field, (value field).IsStable)
    {fields : List φ} (once : fields.Nodup) {extra : Entries} (areExtra : extra.AreExtra ofKey?)
    (distinct : extra.areDistinct = true) :
    (mapping (recordEntries key value fields extra)).IsStable := by
  apply isStable_mapping
  case distinct =>
    refine List.pairwise_append.mpr ⟨List.pairwise_map.mpr (once.imp fun different => ?_),
      areExtra.unknown.pairwise distinct, fun earlier mem later isLater => ?_⟩
    · have otherKey : key _ ≠ key _ := fun equal =>
        different (Option.some.inj (by rw [← isKey, ← isKey, equal]))
      simpa [same, eq_comm] using otherKey
    · rcases List.mem_map.mp mem with ⟨field, _, rfl⟩
      rcases areExtra.unknown later isLater with ⟨name, isName, isUnknown⟩
      have otherKey : name ≠ key field := by
        rintro rfl
        cases isUnknown.symm.trans (isKey field)
      rw [isName]
      simpa [same] using otherKey
  case each =>
    refine List.forall_mem_append.mpr ⟨?_, areExtra.isStable⟩
    exact List.forall_mem_map.mpr fun field _ => ⟨isStable_string _, each field⟩

/-- A record reads as it was written if its fields do. -/
theorem readFields_record [DecidableEq φ] {ρ : Type} {assign : ρ → φ → Yaml → Reading ρ}
    {other : ρ → String → Reading Yaml → Reading ρ} (withExtra : Entries → ρ)
    (keeps : ∀ before name value, value.isTagFree = true →
      other (withExtra before) name (.ok value) = .ok (withExtra (before ++ [(.string name, value)])))
    {value : φ → Yaml} {fields : List φ} (once : fields.Nodup) {empty : ρ}
    (assigned : fields.foldlM (fun record field => assign record field (value field)) empty =
      .ok (withExtra [])) {extra : Entries} (areExtra : extra.AreExtra ofKey?) :
    readFields ofKey? assign other [] empty
        (Entries.rawFields (recordEntries key value fields extra)) = .ok (withExtra extra) := by
  have split : Entries.rawFields (recordEntries key value fields extra) =
      fields.map (fun field => (.ok (key field), .ok (value field))) ++ extra.rawFields := by
    rw [recordEntries, Entries.rawFields, List.map_append, List.map_map]
    rfl
  rw [split, readFields_append isKey once (fun _ _ => List.not_mem_nil) assigned]
  exact readFields_extra keeps _ [] areExtra

end Records

theorem Yaml.Entries.completed_eq {extra : Entries} (distinct : extra.areDistinct = true) :
    extra.completed = .ok extra := if_pos distinct

/-! ## Steps -/

namespace StepDefinition

/-- No tag that is kept in the step or in a step inside of it loses a mark. -/
inductive KeepsTags : StepDefinition → Prop
  | mk {step : StepDefinition} (kept : step.Keeps Yaml.KeepsTags)
      (inside : ∀ children ∈ step.children, ∀ child ∈ children, child.KeepsTags) : step.KeepsTags

theorem allToYaml_eq_map (steps : List StepDefinition) : allToYaml steps = steps.map toYaml := by
  induction steps with
  | nil => rfl
  | cons head tail induction => rw [allToYaml, induction, List.map_cons]

/-- How the children of a step are written. -/
def childrenValue : Option (List StepDefinition) → Yaml :=
  ofOption fun children => .sequence (children.map toYaml)

theorem toYaml_eq (step : StepDefinition) :
    step.toYaml = .mapping (recordEntries StepField.key
      (step.fieldValue (childrenValue step.children)) StepField.all step.extra) := by
  rcases step with ⟨settings, none | children⟩
  · rfl
  · rw [toYaml, allToYaml_eq_map]
    rfl

section Written

variable {step : StepDefinition}

theorem isStable_fieldValue (fit : step.HasFitFields) (keeps : step.Keeps Yaml.KeepsTags)
    {children : Yaml} (stable : children.IsStable) (field : StepField) :
    (step.fieldValue children field).IsStable := by
  cases field with
  | inputs => exact isStable_handedOn fit.kept.inputs keeps.inputs
  | env => exact isStable_handedOn fit.kept.env keeps.env
  | continueOnError => exact isStable_ofOption fun flag _ => isStable_bool flag
  | timeoutMinutes => exact isStable_ofOption fun minutes _ => isStable_ofNat minutes
  | outputs => exact isStable_texts step.outputs
  | dependsOn | after | consumes => exact isStable_ofNames _
  | children => exact stable
  | _ => exact isStable_ofOption fun text _ => isStable_string text

theorem readMembers_sequence {children : List StepDefinition}
    (each : ∀ child ∈ children, read child.toYaml = .ok child) :
    readMembers (.sequence (children.map toYaml)) = .ok children := by
  change readAll (children.map toYaml) = .ok children
  rw [readAll_eq_mapM]
  exact mapM_of_forall each

theorem readChildren_childrenValue
    (each : ∀ children ∈ step.children, ∀ child ∈ children, read child.toYaml = .ok child) :
    readChildren (childrenValue step.children) = .ok step.children := by
  cases isGroup : step.children with
  | none => rfl
  | some children =>
      change (readMembers (.sequence (children.map toYaml))).map some = _
      rw [readMembers_sequence (each children isGroup)]
      rfl

theorem foldlM_assignAny (fit : step.HasFitFields) (keeps : step.Keeps Yaml.KeepsTags)
    (each : ∀ children ∈ step.children, ∀ child ∈ children, read child.toYaml = .ok child) :
    StepField.all.foldlM (fun record field =>
      assignAny record field (step.fieldValue (childrenValue step.children) field)) {} =
        .ok { step with extra := [] } := by
  simp only [StepField.all, List.foldlM_cons, List.foldlM_nil, assignAny, assign,
    StepSettings.fieldValue, readOptional_text, readOptional_flag,
    readOptional_minutes fit.minutes, readTexts_texts, readNames_ofNames,
    readEntries_handedOn fit.kept.inputs keeps.inputs, readEntries_handedOn fit.kept.env keeps.env,
    readChildren_childrenValue each, reduceCtorEq, if_true, if_false, bind, Except.bind]
  rfl

/-- A step reads as it was written, with all steps inside of it. -/
theorem isStable_and_read_toYaml (fit : step.IsFit) (keeps : step.KeepsTags) :
    step.toYaml.IsStable ∧ read step.toYaml = .ok step := by
  induction fit with
  | @mk step fields distinct _ induction =>
      cases keeps with
      | mk kept insideKeeps =>
          have each : ∀ children ∈ step.children, ∀ child ∈ children,
              child.toYaml.IsStable ∧ read child.toYaml = .ok child :=
            fun children isGroup child mem =>
              induction children isGroup child mem (insideKeeps children isGroup child mem)
          have once : StepField.all.Nodup := by decide
          rw [toYaml_eq]
          constructor
          case left =>
            have children : (childrenValue step.children).IsStable :=
              isStable_ofOption fun children isGroup =>
                isStable_sequence (List.forall_mem_map.mpr fun child mem =>
                  (each children isGroup child mem).1)
            exact isStable_record StepField.ofKey?_key (isStable_fieldValue fields kept children)
              once fields.extra distinct
          case right =>
            have assigned := foldlM_assignAny fields kept fun children isGroup child mem =>
              (each children isGroup child mem).2
            have keepsOther : ∀ before name value, value.isTagFree = true →
                keepOther { step with extra := before } name (.ok value) =
                  .ok { step with extra := before ++ [(.string name, value)] } := by
              intro before name value isFree
              simp only [keepOther, Entries.withExtra, isFree, if_true, bind, Except.bind]
              rfl
            change readFrom [] {} _ = _
            rw [readFrom_eq, readFields_record StepField.ofKey?_key (fun extra => { step with extra })
              keepsOther once assigned fields.extra]
            simp only [bind, Except.bind, Entries.completed_eq distinct]
            cases step
            rfl

end Written

end StepDefinition

/-! ## Jobs -/

namespace JobDefinition

/-- No tag that is kept in the job or in its steps loses a mark. -/
structure KeepsTags (job : JobDefinition) : Prop where
  kept : job.Keeps Yaml.KeepsTags
  steps : ∀ step ∈ job.steps, step.KeepsTags

section Written

variable {job : JobDefinition} (fit : job.IsFit) (keeps : job.KeepsTags)

theorem toYaml_eq : job.toYaml =
    .mapping (recordEntries JobField.key job.fieldValue JobField.all job.extra) := rfl

include fit keeps

theorem isStable_and_read_steps (step : StepDefinition) (mem : step ∈ job.steps) :
    step.toYaml.IsStable ∧ StepDefinition.read step.toYaml = .ok step :=
  StepDefinition.isStable_and_read_toYaml (fit.steps step mem) (keeps.steps step mem)

theorem isStable_fieldValue (field : JobField) : (job.fieldValue field).IsStable := by
  cases field with
  | runsOn => exact isStable_ofKept fit.kept.runsOn keeps.kept.runsOn
  | permissions => exact isStable_ofKept fit.kept.permissions keeps.kept.permissions
  | environment => exact isStable_ofKept fit.kept.environment keeps.kept.environment
  | strategy => exact isStable_ofKept fit.kept.strategy keeps.kept.strategy
  | services => exact isStable_ofKept fit.kept.services keeps.kept.services
  | container => exact isStable_ofKept fit.kept.container keeps.kept.container
  | env => exact isStable_handedOn fit.kept.env keeps.kept.env
  | timeoutMinutes => exact isStable_ofOption fun minutes _ => isStable_ofNat minutes
  | outputs => exact isStable_ofNamed fun output _ => isStable_string output.2
  | needs => exact isStable_ofNames job.needs
  | steps =>
      change (sequence (StepDefinition.allToYaml job.steps)).IsStable
      rw [StepDefinition.allToYaml_eq_map]
      exact isStable_sequence (List.forall_mem_map.mpr fun step mem =>
        (isStable_and_read_steps fit keeps step mem).1)
  | name | condition => exact isStable_ofOption fun text _ => isStable_string text

theorem isStable_toYaml : job.toYaml.IsStable :=
  isStable_record JobField.ofKey?_key (isStable_fieldValue fit keeps) (by decide) fit.extra
    fit.distinct

theorem foldlM_assign (distinct : (job.outputs.map Prod.fst).Nodup) :
    JobField.all.foldlM (fun record field => assign record field (job.fieldValue field)) {} =
      .ok { job with extra := [] } := by
  have outputs : readNamed readText (ofNamed .string job.outputs) = .ok job.outputs :=
    readNamed_ofNamed distinct (fun output _ => isStable_string output.2) fun _ _ => rfl
  have steps : StepDefinition.readMembers (.sequence (job.steps.map StepDefinition.toYaml)) =
      .ok job.steps :=
    StepDefinition.readMembers_sequence fun step mem => (isStable_and_read_steps fit keeps step mem).2
  simp only [JobField.all, List.foldlM_cons, List.foldlM_nil, assign, fieldValue,
    readOptional_text, readOptional_minutes fit.minutes, readNames_ofNames, outputs,
    StepDefinition.allToYaml_eq_map, steps, readEntries_handedOn fit.kept.env keeps.kept.env,
    readAny_ofKept fit.kept.runsOn keeps.kept.runsOn,
    readAny_ofKept fit.kept.permissions keeps.kept.permissions,
    readAny_ofKept fit.kept.environment keeps.kept.environment,
    readAny_ofKept fit.kept.strategy keeps.kept.strategy, readAny_ofKept fit.kept.services keeps.kept.services,
    readAny_ofKept fit.kept.container keeps.kept.container, bind, Except.bind]
  rfl

/-- A job reads as it was written if no two of its outputs have one name. -/
theorem read_toYaml (distinct : (job.outputs.map Prod.fst).Nodup) :
    JobDefinition.read job.toYaml = .ok job := by
  have keepsOther : ∀ before name value, value.isTagFree = true →
      keepOther { job with extra := before } name (.ok value) =
        .ok { job with extra := before ++ [(.string name, value)] } := by
    intro before name value isFree
    simp only [keepOther, Entries.withExtra, isFree, if_true, bind, Except.bind]
    rfl
  have once : JobField.all.Nodup := by decide
  rw [toYaml_eq]
  change (do
    let job ← readFields JobField.ofKey? assign keepOther [] {} (Entries.rawFields _)
    return { job with extra := ← job.extra.completed }) = _
  rw [readFields_record JobField.ofKey?_key (fun extra => { job with extra }) keepsOther once
    (foldlM_assign fit keeps distinct) fit.extra]
  simp only [bind, Except.bind, Entries.completed_eq fit.distinct]
  rfl

end Written

end JobDefinition

end FlowPlan
