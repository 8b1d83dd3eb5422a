import FlowPlan.Proofs.DocumentOrder
import FlowPlan.Proofs.ReducedDefinitions
import Mathlib.Order.Bounds.Basic

/-! # The precedence of names

A name that is written in a job stands for the first step of the job that has it
as its id. If there is none, or the name is written in the library, it stands for
the library step of that name, wherever in the library that is written, and else
for the first step of the library with that id. First means first in document
order.
-/

namespace FlowPlan

/-! ## Ids at their places -/

/-- An id, where it is written, and the position that it stands for. -/
structure PlacedId where
  place : List Nat
  id : String
  position : Position

namespace PlacedId

variable {placed : List PlacedId} {id : String}

/-- Of ids that are listed in the order of their places the first one counts. -/
theorem lookup_eq_some_iff
    (ordered : placed.Pairwise fun first second => first.place < second.place)
    {position : Position} :
    (placed.map fun entry => (entry.id, entry.position)).lookup id = some position ↔ ∃ place,
      IsLeast {place | ∃ position, ⟨place, id, position⟩ ∈ placed} place ∧
        ⟨place, id, position⟩ ∈ placed := by
  induction placed with
  | nil => simp
  | cons head tail induction =>
      obtain ⟨ahead, tailOrdered⟩ := List.pairwise_cons.mp ordered
      obtain ⟨place, id', here⟩ := head
      rw [List.map_cons, List.lookup_cons]
      by_cases same : id' = id
      · subst same
        rw [beq_self_eq_true]
        have less : ∀ other position, ⟨other, id', position⟩ ∈ tail → place < other :=
          fun _ _ mem => ahead _ mem
        constructor
        · intro found
          cases found
          refine ⟨place, ⟨⟨here, List.mem_cons_self⟩, ?_⟩, List.mem_cons_self⟩
          intro other hasId
          obtain ⟨position, mem⟩ := hasId
          cases List.mem_cons.mp mem with
          | inl isHead => exact le_of_eq (congrArg PlacedId.place isHead).symm
          | inr later => exact le_of_lt (less other position later)
        · intro found
          obtain ⟨other, first, mem⟩ := found
          cases List.mem_cons.mp mem with
          | inl isHead => exact congrArg some (congrArg PlacedId.position isHead).symm
          | inr later =>
              have before := first.2 ⟨here, List.mem_cons_self⟩
              exact absurd (less other position later) (not_lt_of_ge before)
      · have skipped : (id == id') = false := beq_false_of_ne (Ne.symm same)
        rw [skipped, induction tailOrdered]
        simp [Ne.symm same]

theorem lookup_eq_none_iff :
    (placed.map fun entry => (entry.id, entry.position)).lookup id = none ↔
      ∀ place position, ⟨place, id, position⟩ ∉ placed := by
  rw [List.lookup_eq_none_iff, List.forall_mem_map]
  constructor
  · intro other place position mem
    exact bne_iff_ne.mp (other _ mem) rfl
  · intro absent entry mem
    apply bne_iff_ne.mpr
    intro same
    subst same
    exact absent entry.place entry.position mem

end PlacedId

namespace WorkflowDefinition

variable (definition : WorkflowDefinition)

/-! ## Steps with an id -/

/-- A step that stands for a library step goes by that step's id if it has none of its own. -/
inductive GoesBy (step : StepDefinition) (id : String) : Prop
  | own (isOwn : step.id = some id)
  | reusable {name : String} {target : StepDefinition} (noOwn : step.id = none)
      (refers : step.reusable = some name) (isTarget : definition.libraryStep? name = some target)
      (isTheirs : target.id = some id)

/-- The step at this path of the job goes by the id. -/
def HasIdInJob (index : Nat) (id : String) (path : List Nat) : Prop :=
  ∃ step, definition.step? ⟨.job index, path⟩ = some step ∧ definition.GoesBy step id

/-- A place in the library is the number of an entry with the path from there. An entry has its own
id alone, and a step below it the one that it goes by. -/
inductive HasIdInLibrary (id : String) : List Nat → Position → Prop
  | entry {number : Nat} {name : String} {step : StepDefinition}
      (written : definition.library[number]? = some (name, step)) (own : step.id = some id) :
      HasIdInLibrary id [number] (.library name)
  | below {number : Nat} {name : String} {step child : StepDefinition} {path : List Nat}
      (written : definition.library[number]? = some (name, step))
      (found : StepDefinition.within? (step.children.getD []) path = some child)
      (goesBy : definition.GoesBy child id) :
      HasIdInLibrary id (number :: path) ⟨.library name, path⟩

/-- The ids of steps in a list of steps, each placed behind `front`. -/
def placedBehind (front : List Nat) (steps : List (Position × StepDefinition)) : List PlacedId :=
  steps.filterMap fun (position, step) =>
    (definition.effectiveId? step).map (⟨front ++ position.path, ·, position⟩)

def idsOfJob (index : Nat) (job : JobDefinition) : List PlacedId :=
  definition.placedBehind [] (job.withPositions index)

def idsOfEntry (number : Nat) (name : String) (step : StepDefinition) : List PlacedId :=
  (step.id.map (⟨[number], ·, .library name⟩)).toList ++
    definition.placedBehind [number]
      (StepDefinition.allWithPositions (.library name) 0 (step.children.getD []))

def idsOfLibrary : List PlacedId :=
  definition.library.zipIdx.flatMap fun ((name, step), number) =>
    definition.idsOfEntry number name step

/-- The table with what an entry of the library adds to it. -/
def withEntry (table : NameTable) (entry : String × StepDefinition) : NameTable :=
  (table.assign entry.1 (.library entry.1)).offerAll (definition.libraryIds entry.1 entry.2)

variable {definition}

theorem effectiveId?_eq_some_iff {step : StepDefinition} {id : String} :
    definition.effectiveId? step = some id ↔ definition.GoesBy step id := by
  rw [effectiveId?, Option.or_eq_some_iff]
  constructor
  · intro found
    cases found with
    | inl isOwn => exact .own isOwn
    | inr elsewhere =>
        obtain ⟨noOwn, found⟩ := elsewhere
        obtain ⟨name, refers, found⟩ := Option.bind_eq_some_iff.mp found
        obtain ⟨target, isTarget, isTheirs⟩ := Option.bind_eq_some_iff.mp found
        exact .reusable noOwn refers isTarget isTheirs
  · intro goesBy
    cases goesBy with
    | own isOwn => exact Or.inl isOwn
    | reusable noOwn refers isTarget isTheirs => simp [noOwn, refers, isTarget, isTheirs]

theorem mem_placedBehind {front : List Nat} {steps : List (Position × StepDefinition)}
    {placed : PlacedId} :
    placed ∈ definition.placedBehind front steps ↔ ∃ step, (placed.position, step) ∈ steps ∧
      definition.GoesBy step placed.id ∧ placed.place = front ++ placed.position.path := by
  simp only [← effectiveId?_eq_some_iff]
  rw [placedBehind, List.mem_filterMap]
  constructor
  · intro mem
    obtain ⟨⟨position, step⟩, stepMem, hasId⟩ := mem
    obtain ⟨id, goesBy, isPlaced⟩ := Option.map_eq_some_iff.mp hasId
    cases isPlaced
    exact ⟨step, stepMem, goesBy, rfl⟩
  · intro isThere
    obtain ⟨step, stepMem, goesBy, isPlace⟩ := isThere
    exact ⟨(placed.position, step), stepMem, by simp [goesBy, ← isPlace]⟩

theorem pairwise_placedBehind {steps : List (Position × StepDefinition)}
    (ordered : steps.Pairwise fun first second => first.1.path < second.1.path)
    (front : List Nat) :
    (definition.placedBehind front steps).Pairwise fun first second =>
      first.place < second.place := by
  rw [placedBehind, List.pairwise_filterMap]
  refine ordered.imp fun less first isFirst second isSecond => ?_
  obtain ⟨_, _, rfl⟩ := Option.map_eq_some_iff.mp isFirst
  obtain ⟨_, _, rfl⟩ := Option.map_eq_some_iff.mp isSecond
  exact List.append_left_lt less

theorem map_placedBehind (front : List Nat) (steps : List (Position × StepDefinition)) :
    (definition.placedBehind front steps).map (fun entry => (entry.id, entry.position)) =
      definition.placedIds steps := by
  simp [placedBehind, placedIds, List.map_filterMap, Function.comp_def]

/-! ## The ids of a job -/

theorem pairwise_idsOfJob (index : Nat) (job : JobDefinition) :
    (definition.idsOfJob index job).Pairwise fun first second => first.place < second.place :=
  pairwise_placedBehind (StepDefinition.pairwise_allWithPositions _ _ _ _) []

theorem map_idsOfJob (index : Nat) (job : JobDefinition) :
    (definition.idsOfJob index job).map (fun entry => (entry.id, entry.position)) =
      definition.jobTable index job := by
  rw [idsOfJob, map_placedBehind, jobTable_eq]

theorem mem_idsOfJob {index : Nat} {entry : String × JobDefinition}
    (isJob : definition.jobs[index]? = some entry) {placed : PlacedId} :
    placed ∈ definition.idsOfJob index entry.2 ↔
      definition.HasIdInJob index placed.id placed.place ∧
        placed.position = ⟨.job index, placed.place⟩ := by
  have isStep (path : List Nat) :
      definition.step? ⟨.job index, path⟩ = StepDefinition.within? entry.2.steps path := by
    simp [step?, isJob]
  rw [idsOfJob, mem_placedBehind, JobDefinition.withPositions, HasIdInJob]
  simp only [StepDefinition.mem_allWithPositions_iff, isStep, List.nil_append]
  constructor
  · intro isThere
    obtain ⟨step, ⟨path, isPosition, found⟩, goesBy, isPlace⟩ := isThere
    rw [isPosition] at isPlace
    rw [isPlace]
    exact ⟨⟨step, found, goesBy⟩, isPosition⟩
  · intro isThere
    obtain ⟨⟨step, found, goesBy⟩, isPosition⟩ := isThere
    exact ⟨step, ⟨placed.place, isPosition, found⟩, goesBy, by rw [isPosition]⟩

/-! ## The ids of the library -/

theorem mem_idsOfEntry {number : Nat} {name : String} {step : StepDefinition} {placed : PlacedId} :
    placed ∈ definition.idsOfEntry number name step ↔
      (step.id = some placed.id ∧ placed.place = [number] ∧ placed.position = .library name) ∨
      ∃ path child, StepDefinition.within? (step.children.getD []) path = some child ∧
        definition.GoesBy child placed.id ∧ placed.place = number :: path ∧
          placed.position = ⟨.library name, path⟩ := by
  rw [idsOfEntry, List.mem_append, mem_placedBehind, Position.library]
  simp only [StepDefinition.mem_allWithPositions_iff, List.nil_append]
  refine or_congr ?_ ?_
  · rw [Option.mem_toList, Option.map_eq_some_iff]
    constructor
    · intro isOwn
      obtain ⟨id, own, rfl⟩ := isOwn
      exact ⟨own, rfl, rfl⟩
    · intro isOwn
      obtain ⟨own, isPlace, isPosition⟩ := isOwn
      exact ⟨placed.id, own, by rw [← isPlace, ← isPosition]⟩
  · constructor
    · intro isBelow
      obtain ⟨child, ⟨path, isPosition, found⟩, goesBy, isPlace⟩ := isBelow
      rw [isPosition] at isPlace
      exact ⟨path, child, found, goesBy, isPlace, isPosition⟩
    · intro isBelow
      obtain ⟨path, child, found, goesBy, isPlace, isPosition⟩ := isBelow
      exact ⟨child, ⟨path, isPosition, found⟩, goesBy, by rw [isPlace, isPosition]; rfl⟩

theorem mem_idsOfLibrary {placed : PlacedId} : placed ∈ definition.idsOfLibrary ↔
    definition.HasIdInLibrary placed.id placed.place placed.position := by
  obtain ⟨place, id, position⟩ := placed
  rw [idsOfLibrary, List.mem_flatMap]
  constructor
  · intro mem
    obtain ⟨⟨⟨name, step⟩, number⟩, entryMem, mem⟩ := mem
    have written := List.mem_zipIdx_iff_getElem?.mp entryMem
    cases mem_idsOfEntry.mp mem with
    | inl isOwn =>
        obtain ⟨own, rfl, rfl⟩ := isOwn
        exact .entry written own
    | inr isBelow =>
        obtain ⟨path, child, found, goesBy, rfl, rfl⟩ := isBelow
        exact .below written found goesBy
  · intro hasId
    cases hasId with
    | entry written own =>
        exact ⟨((_, _), _), List.mem_zipIdx_iff_getElem?.mpr written,
          mem_idsOfEntry.mpr (Or.inl ⟨own, rfl, rfl⟩)⟩
    | below written found goesBy =>
        exact ⟨((_, _), _), List.mem_zipIdx_iff_getElem?.mpr written,
          mem_idsOfEntry.mpr (Or.inr ⟨_, _, found, goesBy, rfl, rfl⟩)⟩

theorem place_of_mem_idsOfEntry {number : Nat} {name : String} {step : StepDefinition}
    {placed : PlacedId} (mem : placed ∈ definition.idsOfEntry number name step) :
    ∃ path, placed.place = number :: path := by
  cases mem_idsOfEntry.mp mem with
  | inl isOwn => exact ⟨[], isOwn.2.1⟩
  | inr isBelow =>
      obtain ⟨path, _, _, _, isPlace, _⟩ := isBelow
      exact ⟨path, isPlace⟩

theorem pairwise_idsOfEntry (number : Nat) (name : String) (step : StepDefinition) :
    (definition.idsOfEntry number name step).Pairwise fun first second =>
      first.place < second.place := by
  rw [idsOfEntry, List.pairwise_append]
  refine ⟨?_, pairwise_placedBehind (StepDefinition.pairwise_allWithPositions _ _ _ _) [number], ?_⟩
  · cases step.id with
    | none => exact .nil
    | some id => exact List.pairwise_singleton _ _
  · intro first firstMem second secondMem
    obtain ⟨_, _, rfl⟩ := Option.map_eq_some_iff.mp (Option.mem_toList.mp firstMem)
    obtain ⟨step, stepMem, _, isPlace⟩ := mem_placedBehind.mp secondMem
    rw [isPlace]
    have isBelow : [number] ++ [] < [number] ++ second.position.path :=
      List.append_left_lt (StepDefinition.path_lt_of_mem stepMem)
    exact isBelow

theorem pairwise_idsOfLibrary :
    definition.idsOfLibrary.Pairwise fun first second => first.place < second.place := by
  rw [idsOfLibrary, List.pairwise_flatMap]
  refine ⟨fun entry _ => pairwise_idsOfEntry _ _ _, ?_⟩
  -- Places of different entries differ in their first numbers already.
  have numbered : definition.library.zipIdx.Pairwise fun first second => first.2 < second.2 := by
    rw [← List.pairwise_map (f := Prod.snd), List.zipIdx_map_snd]
    exact List.pairwise_lt_range'
  refine numbered.imp fun less first firstMem second secondMem => ?_
  obtain ⟨front, isFirst⟩ := place_of_mem_idsOfEntry firstMem
  obtain ⟨back, isSecond⟩ := place_of_mem_idsOfEntry secondMem
  rw [isFirst, isSecond]
  exact List.cons_lt_cons_iff.mpr (Or.inl less)

theorem map_idsOfLibrary :
    definition.idsOfLibrary.map (fun entry => (entry.id, entry.position)) =
      definition.library.flatMap fun entry => definition.libraryIds entry.1 entry.2 := by
  have map_idsOfEntry (number : Nat) (name : String) (step : StepDefinition) :
      (definition.idsOfEntry number name step).map (fun entry => (entry.id, entry.position)) =
        definition.libraryIds name step := by
    rw [idsOfEntry, libraryIds, List.map_append, map_placedBehind]
    cases step.id <;> rfl
  calc definition.idsOfLibrary.map (fun entry => (entry.id, entry.position))
      = definition.library.zipIdx.flatMap fun entry =>
          definition.libraryIds entry.1.1 entry.1.2 := by
        simp only [idsOfLibrary, List.map_flatMap, map_idsOfEntry]
    _ = (definition.library.zipIdx.map Prod.fst).flatMap fun entry =>
          definition.libraryIds entry.1 entry.2 := by rw [List.flatMap_map]
    _ = definition.library.flatMap fun entry => definition.libraryIds entry.1 entry.2 := by
        rw [List.zipIdx_map_fst]

/-! ## The two tables -/

theorem findInJob?_eq_some_iff {index : Nat} {name : String} {position : Position} :
    definition.names.findInJob? index name = some position ↔ ∃ path,
      IsLeast {path | definition.HasIdInJob index name path} path ∧
        position = ⟨.job index, path⟩ := by
  cases isJob : definition.jobs[index]? with
  | none => simp [names, Names.findInJob?, HasIdInJob, step?, IsLeast, isJob]
  | some entry =>
      rw [findInJob?_eq isJob, NameTable.find?, ← map_idsOfJob,
        PlacedId.lookup_eq_some_iff (pairwise_idsOfJob _ _)]
      simp only [mem_idsOfJob isJob, exists_and_left, exists_eq, and_true]
      constructor
      · intro found
        obtain ⟨path, first, _, isPosition⟩ := found
        exact ⟨path, first, isPosition⟩
      · intro found
        obtain ⟨path, first, isPosition⟩ := found
        exact ⟨path, first, first.1, isPosition⟩

theorem findInJob?_eq_none_iff {index : Nat} {name : String} :
    definition.names.findInJob? index name = none ↔
      ∀ path, ¬ definition.HasIdInJob index name path := by
  cases isJob : definition.jobs[index]? with
  | none => simp [names, Names.findInJob?, HasIdInJob, step?, isJob]
  | some entry =>
      rw [findInJob?_eq isJob, NameTable.find?, ← map_idsOfJob, PlacedId.lookup_eq_none_iff]
      simp [mem_idsOfJob isJob]

theorem foldl_withEntry (entries : List (String × StepDefinition)) (table : NameTable) :
    entries.foldl definition.withEntry table =
      (entries.reverse.map fun entry => (entry.1, Position.library entry.1)) ++ table ++
        entries.flatMap fun entry => definition.libraryIds entry.1 entry.2 := by
  induction entries generalizing table with
  | nil => simp
  | cons head tail induction =>
      rw [List.foldl_cons, induction]
      simp [withEntry, NameTable.offerAll_eq, NameTable.assign]

/-- The names are in front of the ids, whatever the order in which they were met. -/
theorem libraryTable_eq : definition.libraryTable =
    (definition.library.reverse.map fun entry => (entry.1, Position.library entry.1)) ++
      definition.library.flatMap fun entry => definition.libraryIds entry.1 entry.2 := by
  have filled : definition.libraryTable = definition.library.foldl definition.withEntry [] := rfl
  rw [filled, foldl_withEntry, List.append_nil]

theorem lookup_map_library (entries : List (String × StepDefinition)) (name : String) :
    (entries.map fun entry => (entry.1, Position.library entry.1)).lookup name =
      if name ∈ entries.map Prod.fst then some (.library name) else none := by
  induction entries with
  | nil => rfl
  | cons head tail induction =>
      rw [List.map_cons, List.lookup_cons, induction]
      by_cases same : name = head.1
      · simp [same]
      · simp only [beq_false_of_ne same, List.map_cons, List.mem_cons, same, false_or]

theorem find?_library_eq (name : String) : definition.names.library.find? name =
    if name ∈ definition.library.map Prod.fst then some (.library name)
    else (definition.idsOfLibrary.map fun entry => (entry.id, entry.position)).lookup name := by
  rw [names, NameTable.find?, libraryTable_eq, List.lookup_append, lookup_map_library,
    map_idsOfLibrary]
  simp only [List.map_reverse, List.mem_reverse]
  split <;> rfl

theorem find?_library_eq_some_iff {name : String} {position : Position}
    (noEntry : name ∉ definition.library.map Prod.fst) :
    definition.names.library.find? name = some position ↔ ∃ place,
      IsLeast {place | ∃ position, definition.HasIdInLibrary name place position} place ∧
        definition.HasIdInLibrary name place position := by
  rw [find?_library_eq, if_neg noEntry, PlacedId.lookup_eq_some_iff pairwise_idsOfLibrary]
  simp only [mem_idsOfLibrary]

theorem find?_library_eq_none_iff {name : String} :
    definition.names.library.find? name = none ↔ name ∉ definition.library.map Prod.fst ∧
      ∀ place position, ¬ definition.HasIdInLibrary name place position := by
  rw [find?_library_eq]
  split
  next isEntry => simp [isEntry]
  next noEntry =>
    rw [PlacedId.lookup_eq_none_iff]
    simp only [mem_idsOfLibrary, noEntry, not_false_eq_true, true_and]

/-! ## What a name stands for -/

variable (definition)

/-- The scope is not that of a job in which a step has the id. -/
def NotInJob (scope : Scope) (id : String) : Prop :=
  ∀ index, scope = .job index → ∀ path, ¬ definition.HasIdInJob index id path

/-- What a name stands for in a scope. Paths and places are compared lexicographically, which is
document order. -/
inductive Designates (name : String) : Scope → Position → Prop
  | inJob {index : Nat} {path : List Nat}
      (first : IsLeast {path | definition.HasIdInJob index name path} path) :
      Designates name (.job index) ⟨.job index, path⟩
  | entry {scope : Scope} (notInJob : definition.NotInJob scope name)
      (isEntry : name ∈ definition.library.map Prod.fst) :
      Designates name scope (.library name)
  | inLibrary {scope : Scope} {place : List Nat} {position : Position}
      (notInJob : definition.NotInJob scope name)
      (noEntry : name ∉ definition.library.map Prod.fst)
      (first : IsLeast {place | ∃ position, definition.HasIdInLibrary name place position} place)
      (hasId : definition.HasIdInLibrary name place position) :
      Designates name scope position

variable {definition}

theorem notInJob_job {index : Nat} {id : String} :
    definition.NotInJob (.job index) id ↔ definition.names.findInJob? index id = none := by
  rw [findInJob?_eq_none_iff]
  constructor
  · intro notInJob
    exact notInJob index rfl
  · intro nobody other isJob
    cases isJob
    exact nobody

theorem notInJob_library (library id : String) : definition.NotInJob (.library library) id :=
  fun _ isJob => nomatch isJob

theorem find?_of_notInJob {scope : Scope} {name : String}
    (notInJob : definition.NotInJob scope name) :
    definition.names.find? scope name = definition.names.library.find? name := by
  cases scope with
  | library library => rfl
  | job index => rw [Names.find?, notInJob_job.mp notInJob, Option.none_or]

/-- Of the library alone: the entry of that name, else the first step with that id. -/
theorem designates_iff_of_notInJob {scope : Scope} {name : String} {position : Position}
    (notInJob : definition.NotInJob scope name) :
    definition.Designates name scope position ↔
      definition.names.library.find? name = some position := by
  by_cases isEntry : name ∈ definition.library.map Prod.fst
  · rw [find?_library_eq, if_pos isEntry]
    constructor
    · intro designates
      cases designates with
      | inJob first => exact absurd first.1 (notInJob _ rfl _)
      | entry => rfl
      | inLibrary _ noEntry => exact absurd isEntry noEntry
    · intro isThere
      cases isThere
      exact .entry notInJob isEntry
  · rw [find?_library_eq_some_iff isEntry]
    constructor
    · intro designates
      cases designates with
      | inJob first => exact absurd first.1 (notInJob _ rfl _)
      | entry _ isEntry' => exact absurd isEntry' isEntry
      | inLibrary _ _ first hasId => exact ⟨_, first, hasId⟩
    · intro found
      obtain ⟨place, first, hasId⟩ := found
      exact .inLibrary notInJob isEntry first hasId

/-- A name is found exactly where the precedence has it, and is unknown when nothing has it. -/
theorem find?_follows_precedence (definition : WorkflowDefinition) (scope : Scope)
    (name : String) :
    (∀ position, definition.names.find? scope name = some position ↔
      definition.Designates name scope position) ∧
    (definition.names.find? scope name = none ↔
      definition.NotInJob scope name ∧ name ∉ definition.library.map Prod.fst ∧
        ∀ place position, ¬ definition.HasIdInLibrary name place position) := by
  by_cases notInJob : definition.NotInJob scope name
  · rw [find?_of_notInJob notInJob, find?_library_eq_none_iff]
    exact ⟨fun position => (designates_iff_of_notInJob notInJob).symm, by simp [notInJob]⟩
  · cases scope with
    | library library => exact absurd (notInJob_library library name) notInJob
    | job index =>
        obtain ⟨found, isFound⟩ := Option.ne_none_iff_exists'.mp (notInJob_job.not.mp notInJob)
        have here : definition.names.find? (.job index) name =
            definition.names.findInJob? index name := by
          rw [Names.find?, isFound, Option.some_or]
        constructor
        · intro position
          rw [here, findInJob?_eq_some_iff]
          constructor
          · intro hasPath
            obtain ⟨path, first, rfl⟩ := hasPath
            exact .inJob first
          · intro designates
            cases designates with
            | inJob first => exact ⟨_, first, rfl⟩
            | entry nowhere => exact absurd nowhere notInJob
            | inLibrary nowhere => exact absurd nowhere notInJob
        · rw [here, isFound]
          simp [notInJob]

-- The id is met before the name is.
example :
    let definition : WorkflowDefinition :=
      { library := [("build", { id := some "test" }), ("test", {})] }
    definition.names.find? (.library "build") "test" = some (.library "test") := by
  decide

end WorkflowDefinition

end FlowPlan
