import FlowPlan.Proofs.EmbeddedSteps

/-! # Definitions of a single job

All jobs but one may be left out of a definition. The library stays, and so does
what names mean in it and in the job that is left. Only the number of the job is
another one now, and with it the positions of the job's own steps.
-/

namespace FlowPlan

/-! ## Positions under another scope -/

namespace StepDefinition

mutual

theorem withPositions_moved (image : Scope → Scope) (position : Position) :
    ∀ step : StepDefinition, step.withPositions (position.moved image) =
      (step.withPositions position).map fun entry => (entry.1.moved image, entry.2)
  | ⟨settings, none⟩ => rfl
  | ⟨settings, some children⟩ => by
      rw [withPositions, withPositions, List.map_cons, allWithPositions_moved image position 0]

theorem allWithPositions_moved (image : Scope → Scope) (position : Position) (index : Nat) :
    ∀ steps : List StepDefinition, allWithPositions (position.moved image) index steps =
      (allWithPositions position index steps).map fun entry => (entry.1.moved image, entry.2)
  | [] => rfl
  | step :: rest => by
      rw [allWithPositions, allWithPositions, List.map_append, ← Position.moved_child,
        withPositions_moved image (position.child index) step,
        allWithPositions_moved image position (index + 1) rest]

end

/-- The steps below a position are written in its scope. -/
theorem scope_of_mem_allWithPositions {position : Position} {index : Nat}
    {steps : List StepDefinition} {entry : Position × StepDefinition}
    (mem : entry ∈ allWithPositions position index steps) : entry.1.scope = position.scope := by
  -- A scope that is an image of every scope is that of every image.
  have same := allWithPositions_moved (fun _ => position.scope) position index steps
  have unmoved : position.moved (fun _ => position.scope) = position := rfl
  rw [unmoved] at same
  rw [same] at mem
  rcases List.mem_map.mp mem with ⟨_, _, rfl⟩
  rfl

end StepDefinition

/-! ## Tables of names -/

namespace NameTable

theorem offerAll_eq (table : NameTable) (offers : List (String × Position)) :
    table.offerAll offers = table ++ offers := by
  induction offers generalizing table with
  | nil => exact (List.append_nil table).symm
  | cons head tail induction =>
      have next := induction (table.offer head.1 head.2)
      rw [offer, List.append_assoc] at next
      exact next

theorem find?_map (f : Position → Position) (table : NameTable) (name : String) :
    NameTable.find? (table.map fun entry => (entry.1, f entry.2)) name =
      (table.find? name).map f := by
  induction table with
  | nil => rfl
  | cons head tail induction =>
      rw [find?, find?] at induction ⊢
      rw [List.map_cons, List.lookup_cons, List.lookup_cons, induction]
      split <;> rfl

end NameTable

namespace WorkflowDefinition

variable {definition : WorkflowDefinition}

theorem placedIds_map (f : Position → Position) (steps : List (Position × StepDefinition)) :
    definition.placedIds (steps.map fun entry => (f entry.1, entry.2)) =
      (definition.placedIds steps).map fun entry => (entry.1, f entry.2) := by
  rw [placedIds, placedIds, List.filterMap_map, List.map_filterMap]
  congr 1
  funext entry
  simp [Option.map_map, Function.comp_def]

theorem exists_of_mem_placedIds {steps : List (Position × StepDefinition)}
    {entry : String × Position} (mem : entry ∈ definition.placedIds steps) :
    ∃ step, (entry.2, step) ∈ steps := by
  rcases List.mem_filterMap.mp mem with ⟨⟨position, step⟩, stepMem, found⟩
  rcases Option.map_eq_some_iff.mp found with ⟨_, _, rfl⟩
  exact ⟨step, stepMem⟩

theorem scope_of_mem_libraryIds {name : String} {step : StepDefinition} {entry : String × Position}
    (mem : entry ∈ definition.libraryIds name step) : entry.2.scope = .library name := by
  rcases List.mem_append.mp mem with own | below
  · rcases Option.map_eq_some_iff.mp (Option.mem_toList.mp own) with ⟨_, _, rfl⟩
    rfl
  · rcases exists_of_mem_placedIds below with ⟨child, childMem⟩
    exact StepDefinition.scope_of_mem_allWithPositions childMem

theorem scope_of_mem_libraryTable {entry : String × Position}
    (mem : entry ∈ definition.libraryTable) : ∃ name, entry.2.scope = .library name := by
  have all : ∀ entry ∈ definition.libraryTable, ∃ name, entry.2.scope = .library name := by
    apply List.foldlRecOn definition.library _ (motive := fun table : NameTable =>
      ∀ entry ∈ table, ∃ name, entry.2.scope = .library name)
    · exact List.forall_mem_nil _
    · rintro table known ⟨name, step⟩ _
      dsimp only
      rw [NameTable.offerAll_eq, NameTable.assign]
      intro entry mem
      rcases List.mem_append.mp mem with before | isNew
      · exact List.forall_mem_cons.mpr ⟨⟨name, rfl⟩, known⟩ entry before
      · exact ⟨name, scope_of_mem_libraryIds isNew⟩
  exact all entry mem

theorem jobTable_eq (index : Nat) (job : JobDefinition) :
    definition.jobTable index job = definition.placedIds (job.withPositions index) := by
  rw [jobTable, NameTable.offerAll_eq, List.nil_append]

theorem scope_of_mem_jobTable {index : Nat} {job : JobDefinition} {entry : String × Position}
    (mem : entry ∈ definition.jobTable index job) : entry.2.scope = .job index := by
  rw [jobTable_eq] at mem
  rcases exists_of_mem_placedIds mem with ⟨step, stepMem⟩
  exact StepDefinition.scope_of_mem_allWithPositions stepMem

theorem findInJob?_eq {index : Nat} {entry : String × JobDefinition}
    (isJob : definition.jobs[index]? = some entry) (name : String) :
    definition.names.findInJob? index name = (definition.jobTable index entry.2).find? name := by
  have isTable : definition.names.jobs[index]? = some (definition.jobTable index entry.2) := by
    rw [names, List.getElem?_map, List.getElem?_zipIdx, isJob, Nat.zero_add]
    rfl
  rw [Names.findInJob?, isTable, Option.bind_some]

end WorkflowDefinition

/-! ## The job that is left -/

/-- The scope as it is when only one job is left. -/
def Scope.alone : Scope → Scope
  | .library name => .library name
  | .job _ => .job 0

/-- The scope is that of the job or in the library. -/
def Scope.IsOf (index : Nat) : Scope → Prop
  | .library _ => True
  | .job other => other = index

namespace WorkflowDefinition

/-- The definition with a single job. -/
def reducedTo (definition : WorkflowDefinition) (job : String × JobDefinition) :
    WorkflowDefinition :=
  { definition with jobs := [job] }

variable {definition : WorkflowDefinition} {index : Nat} {entry : String × JobDefinition}

/-- What is written in the library stays where it is. -/
theorem map_moved_library (name : String) :
    (definition.names.library.find? name).map (Position.moved Scope.alone) =
      definition.names.library.find? name := by
  cases found : definition.names.library.find? name with
  | none => rfl
  | some target =>
      rcases scope_of_mem_libraryTable (mem_of_lookup found) with ⟨library, isLibrary⟩
      rw [Option.map_some, Position.moved, isLibrary]
      congr 1
      exact congrArg (Position.mk · target.path) isLibrary.symm

theorem isOf_of_library {name : String} {target : Position}
    (found : definition.names.library.find? name = some target) : Scope.IsOf index target.scope := by
  rcases scope_of_mem_libraryTable (mem_of_lookup found) with ⟨library, isLibrary⟩
  rw [isLibrary]
  trivial

variable (isJob : definition.jobs[index]? = some entry)

include isJob

theorem findInJob?_reducedTo (name : String) :
    (definition.reducedTo entry).names.findInJob? 0 name =
      (definition.names.findInJob? index name).map (Position.moved Scope.alone) := by
  have moved : (⟨.job 0, []⟩ : Position) = Position.moved Scope.alone ⟨.job index, []⟩ := rfl
  have isAlone : (definition.reducedTo entry).jobs[0]? = some entry := rfl
  have sameIds : (definition.reducedTo entry).placedIds = definition.placedIds := rfl
  rw [findInJob?_eq isAlone, findInJob?_eq isJob, jobTable_eq, jobTable_eq, sameIds,
    JobDefinition.withPositions, JobDefinition.withPositions, moved,
    StepDefinition.allWithPositions_moved, placedIds_map, NameTable.find?_map]

theorem step?_reducedTo {position : Position} (isAmong : Scope.IsOf index position.scope) :
    (definition.reducedTo entry).step? (position.moved Scope.alone) = definition.step? position := by
  rcases position with ⟨scope, path⟩
  cases scope with
  | library name => cases path <;> rfl
  | job other =>
      cases isAmong
      rw [step?, step?]
      dsimp only [Position.moved, Scope.alone]
      rw [isJob]
      rfl

theorem find?_reducedTo {scope : Scope} (isAmong : Scope.IsOf index scope) (name : String) :
    (definition.reducedTo entry).names.find? (Scope.alone scope) name =
      (definition.names.find? scope name).map (Position.moved Scope.alone) := by
  cases scope with
  | library library => exact (map_moved_library name).symm
  | job other =>
      cases isAmong
      have sameLibrary : (definition.reducedTo entry).names.library = definition.names.library := rfl
      rw [Scope.alone, Names.find?, Names.find?, findInJob?_reducedTo isJob, sameLibrary,
        Option.map_or, map_moved_library]

theorem isOf_of_find? {scope : Scope} (isAmong : Scope.IsOf index scope) {name : String}
    {target : Position} (found : definition.names.find? scope name = some target) :
    Scope.IsOf index target.scope := by
  cases scope with
  | library library => exact isOf_of_library found
  | job other =>
      cases isAmong
      rcases Option.or_eq_some_iff.mp found with inJob | ⟨_, elsewhere⟩
      · rw [findInJob?_eq isJob] at inJob
        rw [scope_of_mem_jobTable (mem_of_lookup inJob)]
        rfl
      · exact isOf_of_library elsewhere

theorem embeds_reducedTo :
    definition.Embeds (definition.reducedTo entry) (Scope.IsOf index) Scope.alone where
  written _ isAmong := step?_reducedTo isJob isAmong
  names _ isAmong := find?_reducedTo isJob isAmong
  within _ isAmong _ _ found := isOf_of_find? isJob isAmong found
  library _ := ⟨trivial, rfl⟩
  apart := by
    intro scope isAmong another isAlsoAmong same
    cases scope with
    | library name =>
        cases another with
        | library other => exact same
        | job other => cases same
    | job number =>
        cases another with
        | library other => cases same
        | job other => rw [isAmong, isAlsoAmong]

end WorkflowDefinition

end FlowPlan
