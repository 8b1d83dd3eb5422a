import FlowPlan.Definition.Basic

/-! # Positions in a definition

A step is identified by where it is written: in the library under a name, or in
a job, and from there by the numbers of the children on the way down to it.
-/

namespace FlowPlan

/-- The part of a definition that a step is written in. Names have their meaning in it. -/
inductive Scope where
  | library (name : String)
  | job (index : Nat)
deriving DecidableEq, Repr

structure Position where
  scope : Scope
  path : List Nat
deriving DecidableEq, Repr

namespace Position

def library (name : String) : Position := ⟨.library name, []⟩

def job (index place : Nat) : Position := ⟨.job index, [place]⟩

def child (position : Position) (index : Nat) : Position :=
  { position with path := position.path ++ [index] }

/-- The position of a library step itself, as opposed to one of its children. -/
def isLibraryRoot (position : Position) : Bool :=
  match position with
  | ⟨.library _, []⟩ => true
  | _ => false

/-- The position as it is shown where a step has no name of its own. -/
def text (position : Position) : String :=
  let start := match position.scope with
    | .library name => name
    | .job index => "jobs[" ++ toString index ++ "]"
  start ++ String.join (position.path.map fun index => ".steps[" ++ toString index ++ "]")

example : ((Position.job 0 2).child 1).text = "jobs[0].steps[2].steps[1]" := by decide +kernel

end Position

namespace StepDefinition

/-- The step that a path leads to from the children of a step. -/
def within? : List StepDefinition → List Nat → Option StepDefinition
  | _, [] => none
  | steps, [index] => steps[index]?
  | steps, index :: next :: rest => do
    let step ← steps[index]?
    within? (← step.children) (next :: rest)

mutual

/-- A step and all steps below it, in the order in which they are written. -/
def withPositions (position : Position) : StepDefinition → List (Position × StepDefinition)
  | ⟨settings, none⟩ => [(position, ⟨settings, none⟩)]
  | ⟨settings, some children⟩ =>
    (position, ⟨settings, some children⟩) :: allWithPositions position 0 children
termination_by structural step => step

/-- The same for the children at `position` from number `index` on. -/
def allWithPositions (position : Position) (index : Nat) :
    List StepDefinition → List (Position × StepDefinition)
  | [] => []
  | step :: rest =>
    withPositions (position.child index) step ++ allWithPositions position (index + 1) rest
termination_by structural steps => steps

end

theorem mem_withPositions_self (position : Position) (step : StepDefinition) :
    (position, step) ∈ withPositions position step := by
  rcases step with ⟨settings, none | children⟩ <;> simp [withPositions]

theorem mem_allWithPositions {position : Position} {entry : Position × StepDefinition} :
    ∀ {steps : List StepDefinition} {index offset : Nat} {step : StepDefinition},
      steps[index]? = some step → entry ∈ withPositions (position.child (offset + index)) step →
      entry ∈ allWithPositions position offset steps
  | [], _, _, _, found, _ => by simp at found
  | first :: rest, 0, offset, step, found, member => by
    cases found
    exact List.mem_append_left _ member
  | first :: rest, index + 1, offset, step, found, member => by
    have found : rest[index]? = some step := by simpa using found
    rw [show offset + (index + 1) = offset + 1 + index by omega] at member
    exact List.mem_append_right _ (mem_allWithPositions found member)

/-- What a path leads to is among the steps below its start. -/
theorem mem_of_within? (scope : Scope) (base : List Nat) {steps : List StepDefinition}
    {path : List Nat} {step : StepDefinition} (found : within? steps path = some step) :
    (⟨scope, base ++ path⟩, step) ∈ allWithPositions ⟨scope, base⟩ 0 steps := by
  fun_induction within? steps path generalizing base with
  | case1 => simp at found
  | case2 steps index =>
    refine mem_allWithPositions found ?_
    simpa [Position.child] using mem_withPositions_self ⟨scope, base ++ [index]⟩ step
  | case3 steps index next rest induction =>
    simp only [Option.bind_eq_bind, Option.bind_eq_some_iff] at found
    obtain ⟨⟨settings, children⟩, atIndex, children', isChildren, found⟩ := found
    cases isChildren
    refine mem_allWithPositions atIndex ?_
    have below := induction children' (base ++ [index]) found
    simp only [withPositions, Position.child, Nat.zero_add]
    simpa using below

end StepDefinition

namespace JobDefinition

/-- The steps of the job with this number, in the order in which they are written. -/
def withPositions (index : Nat) (job : JobDefinition) : List (Position × StepDefinition) :=
  StepDefinition.allWithPositions ⟨.job index, []⟩ 0 job.steps

end JobDefinition

namespace WorkflowDefinition

/-- The step that is written at a position. -/
def step? (definition : WorkflowDefinition) (position : Position) : Option StepDefinition :=
  match position.scope, position.path with
  | .library name, [] => definition.libraryStep? name
  | .library name, path => do
    StepDefinition.within? (← (← definition.libraryStep? name).children) path
  | .job index, path => do
    let (_, job) ← definition.jobs[index]?
    StepDefinition.within? job.steps path

/-- Every step of the definition with its position. -/
def withPositions (definition : WorkflowDefinition) : List (Position × StepDefinition) :=
  definition.library.flatMap (fun (name, step) => step.withPositions (.library name)) ++
    definition.jobs.zipIdx.flatMap fun ((_, job), index) => job.withPositions index

/-- A name that is found is an entry. -/
theorem mem_of_lookup {α : Type} {entries : List (String × α)} {name : String} {value : α}
    (found : entries.lookup name = some value) : (name, value) ∈ entries := by
  obtain ⟨before, behind, rfl, _⟩ := List.lookup_eq_some_iff.1 found
  simp

theorem mem_withPositions {definition : WorkflowDefinition} {position : Position}
    {step : StepDefinition} (found : definition.step? position = some step) :
    (position, step) ∈ definition.withPositions := by
  rcases position with ⟨name | index, path⟩
  · refine List.mem_append_left _ (List.mem_flatMap.2 ?_)
    cases path with
    | nil =>
      exact ⟨(name, step), mem_of_lookup found, StepDefinition.mem_withPositions_self _ _⟩
    | cons next rest =>
      simp only [step?, Option.bind_eq_bind, Option.bind_eq_some_iff] at found
      obtain ⟨⟨settings, children⟩, root, children', isChildren, found⟩ := found
      cases isChildren
      refine ⟨_, mem_of_lookup root, ?_⟩
      have below := StepDefinition.mem_of_within? (.library name) [] found
      simpa [StepDefinition.withPositions, Position.library] using below
  · refine List.mem_append_right _ (List.mem_flatMap.2 ?_)
    simp only [step?, Option.bind_eq_bind, Option.bind_eq_some_iff] at found
    obtain ⟨entry, atIndex, found⟩ := found
    refine ⟨(entry, index), ?_, ?_⟩
    · exact List.mem_zipIdx_iff_getElem?.2 atIndex
    · simpa [JobDefinition.withPositions] using
        StepDefinition.mem_of_within? (.job index) [] found

end WorkflowDefinition

end FlowPlan
