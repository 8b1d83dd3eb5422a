import FlowPlan.Definition.Position
import FlowPlan.Error

/-! # What names mean

A step is referred to by its id, or by the name it has in the library. In a job
the ids of the job's own steps come first. In the library a name counts more
than an id, and of several steps with the same id the first one has it.
-/

namespace FlowPlan

/-- Names with the positions they stand for. Of several entries for a name the first one counts. -/
abbrev NameTable := List (String × Position)

namespace NameTable

def find? (table : NameTable) (name : String) : Option Position := table.lookup name

/-- Gives the name to the position, whatever it stood for before. -/
def assign (table : NameTable) (name : String) (position : Position) : NameTable :=
  (name, position) :: table

/-- Gives the name to the position if it is still free. -/
def offer (table : NameTable) (name : String) (position : Position) : NameTable :=
  table ++ [(name, position)]

def offerAll (table : NameTable) (offers : List (String × Position)) : NameTable :=
  offers.foldl (fun table offer => table.offer offer.1 offer.2) table

end NameTable

namespace WorkflowDefinition

variable (definition : WorkflowDefinition)

/-- A step that stands for a library step has that step's id, unless it has one of its own. -/
def effectiveId? (step : StepDefinition) : Option String :=
  step.id.or (step.reusable.bind fun name => (definition.libraryStep? name).bind (·.id))

/-- The ids of placed steps, with their positions. -/
def placedIds (steps : List (Position × StepDefinition)) : List (String × Position) :=
  steps.filterMap fun (position, step) => (definition.effectiveId? step).map (·, position)

/-- The ids that come with a library step: its own, and those of the steps below it. -/
def libraryIds (name : String) (step : StepDefinition) : List (String × Position) :=
  (step.id.map (·, Position.library name)).toList ++
    definition.placedIds (StepDefinition.allWithPositions (.library name) 0 (step.children.getD []))

def libraryTable : NameTable :=
  definition.library.foldl (fun (table : NameTable) (name, step) =>
    (table.assign name (.library name)).offerAll (definition.libraryIds name step)) []

def jobTable (index : Nat) (job : JobDefinition) : NameTable :=
  NameTable.offerAll [] (definition.placedIds (job.withPositions index))

end WorkflowDefinition

/-- The names of a definition: those of the library, and those of each job. -/
structure Names where
  library : NameTable
  jobs : List NameTable

def WorkflowDefinition.names (definition : WorkflowDefinition) : Names where
  library := definition.libraryTable
  jobs := definition.jobs.zipIdx.map fun ((_, job), index) => definition.jobTable index job

namespace Names

/-- What a name stands for among the steps of a job alone. -/
def findInJob? (names : Names) (index : Nat) (name : String) : Option Position :=
  names.jobs[index]?.bind (·.find? name)

/-- What a name stands for where it is written in `scope`. -/
def find? (names : Names) (scope : Scope) (name : String) : Option Position :=
  match scope with
  | .job index => (names.findInJob? index name).or (names.library.find? name)
  | .library _ => names.library.find? name

end Names

/-- A reference to a step of another job, parted at its first point into job and id. -/
def Text.jobAndStep? (reference : Text) : Option (Text × Text) :=
  match reference.dropWhile (· ≠ '.') with
  | [] => none
  | _ :: id => some (reference.takeWhile (· ≠ '.'), id)

namespace WorkflowDefinition

variable (definition : WorkflowDefinition)

/-- What a name stands for, which has to be something. -/
def resolveName (scope : Scope) (name : String) : Except DefinitionError Position :=
  match definition.names.find? scope name with
  | some position => .ok position
  | none => .error (.unknownStep name)

def resolveReusable (name : String) : Except DefinitionError Position :=
  if (definition.libraryStep? name).isSome then .ok (.library name) else .error (.unknownStep name)

/-- The position that a reference of the form `job.step` leads to. -/
def resolveCrossJob (reference : String) : Except DefinitionError Position :=
  match Text.jobAndStep? reference.toList with
  | none => .error (.malformedCrossJobReference reference)
  | some (job, id) =>
    let job := String.ofList job
    match definition.jobs.findIdx? (·.1 = job) with
    | none => .error (.unknownJob job)
    | some index =>
      match definition.names.findInJob? index (String.ofList id) with
      | some position => .ok position
      | none => .error (.unknownStep reference)

/-- What the step at a position is called in messages. -/
def labelAt (position : Position) : String :=
  ((definition.step? position).bind StepDefinition.label?).getD position.text

end WorkflowDefinition

end FlowPlan
