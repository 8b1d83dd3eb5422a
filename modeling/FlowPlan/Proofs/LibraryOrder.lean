import FlowPlan.CommandLine
import FlowPlan.Proofs.Depth
import FlowPlan.Proofs.ReducedDefinitions

/-! # The order of the library

The library is indexed in the order in which it is written: a name takes the
place of whatever had it before, and an id is only given away while it is free.
If no name is claimed twice, neither happens, and every name is found where it
is claimed, in whatever order the library is written. What is found under names
and at positions is all that building asks of a definition.
-/

namespace FlowPlan

/-- Lists with the same entries, of which no two have one name, have the same value for a name. -/
theorem lookup_eq_of_mem_iff {α : Type} {first second : List (String × α)}
    (same : ∀ entry, entry ∈ first ↔ entry ∈ second)
    (clear : ∀ entry ∈ first, ∀ other ∈ first, entry.1 = other.1 → entry.2 = other.2)
    (name : String) : first.lookup name = second.lookup name := by
  cases inFirst : first.lookup name with
  | none =>
      cases inSecond : second.lookup name with
      | none => rfl
      | some value =>
          have mem := (same _).mpr (WorkflowDefinition.mem_of_lookup inSecond)
          rw [List.lookup_eq_none_iff] at inFirst
          simpa using inFirst _ mem
  | some value =>
      have mem := WorkflowDefinition.mem_of_lookup inFirst
      cases inSecond : second.lookup name with
      | none =>
          rw [List.lookup_eq_none_iff] at inSecond
          simpa using inSecond _ ((same _).mp mem)
      | some other =>
          have otherMem := (same _).mpr (WorkflowDefinition.mem_of_lookup inSecond)
          exact congrArg some (clear _ mem _ otherMem rfl)

namespace WorkflowDefinition

/-! ## What building asks of a definition -/

/-- At every position the same step is written, and every name and reference leads to the same
position. -/
structure AsksAlike (definition other : WorkflowDefinition) : Prop where
  step : other.step? = definition.step?
  names : other.names.find? = definition.names.find?
  reusable : other.resolveReusable = definition.resolveReusable
  crossJob : other.resolveCrossJob = definition.resolveCrossJob
  jobs : other.jobs = definition.jobs
  settings : other.workflowSettings = definition.workflowSettings

namespace AsksAlike

variable {definition other : WorkflowDefinition} (alike : definition.AsksAlike other)

include alike

theorem circle_eq : other.circle = definition.circle := by
  have labels : other.labelAt = definition.labelAt := by
    funext position
    rw [labelAt, labelAt, alike.step]
  funext taken position
  rw [circle, circle, labels]

theorem resolveName_eq : other.resolveName = definition.resolveName := by
  funext scope name
  rw [resolveName, resolveName, alike.names]

theorem scopeAt_eq (builder : Builder) : builder.scopeAt other = builder.scopeAt definition := by
  have reads : builder.readAt other = builder.readAt definition := by
    funext scope current text id
    rw [Builder.readAt, Builder.readAt, alike.names]
  funext scope current text
  rw [Builder.scopeAt, Builder.scopeAt, reads]

theorem textAt_eq (builder : Builder) : builder.textAt other = builder.textAt definition := by
  funext position text
  cases text with
  | none => rfl
  | some text => simp only [Builder.textAt, alike.scopeAt_eq]

theorem newItemAt_eq (builder : Builder) :
    builder.newItemAt other = builder.newItemAt definition := by
  have starts : builder.startAt other = builder.startAt definition := by
    funext position written
    rw [Builder.startAt, Builder.startAt, alike.reusable]
  have dependencies : builder.dependencyAt other = builder.dependencyAt definition := by
    funext scope name
    rw [Builder.dependencyAt, Builder.dependencyAt, alike.resolveName_eq]
  have predecessors : builder.predecessorAt other = builder.predecessorAt definition := by
    funext scope name
    rw [Builder.predecessorAt, Builder.predecessorAt, alike.resolveName_eq]
  funext position written
  rw [Builder.newItemAt, Builder.newItemAt, starts, alike.textAt_eq, dependencies, predecessors]

theorem newStepAt_eq (builder : Builder) :
    builder.newStepAt other = builder.newStepAt definition := by
  have consumed : builder.consumedAt other = builder.consumedAt definition := by
    funext reference
    rw [Builder.consumedAt, Builder.consumedAt, alike.crossJob]
  funext position written
  simp only [Builder.newStepAt, alike.reusable, alike.textAt_eq, consumed]

/-- One layer of building is the same for both. -/
theorem above_eq : Builder.above other = Builder.above definition := by
  funext below underway
  simp only [Builder.above, alike.circle_eq, alike.step, alike.newItemAt_eq, alike.newStepAt_eq]

theorem constructWith_eq (builder : Builder) :
    builder.construct other = builder.construct definition := by
  have known : other.job? = definition.job? := by
    funext id
    rw [job?, job?, alike.jobs]
  have jobs : builder.jobAt other = builder.jobAt definition := by
    funext index id written
    rw [Builder.jobAt, Builder.jobAt, known, alike.scopeAt_eq]
  rw [Builder.construct, Builder.construct, jobs, alike.jobs, alike.settings]

/-- So building is, with enough layers for both. -/
theorem construct_eq : other.construct = definition.construct := by
  let count := 2 * definition.withPositions.length + 2 * other.withPositions.length + 1
  have enough : 2 * definition.withPositions.length < count := by omega
  have otherEnough : 2 * other.withPositions.length < count := by omega
  rw [← other.construct_iterate_above definition.builder otherEnough,
    ← definition.construct_iterate_above definition.builder enough,
    alike.above_eq, alike.constructWith_eq]

theorem build_eq : other.build = definition.build := by
  rw [build, build, alike.construct_eq]

end AsksAlike

/-! ## Claims to names -/

/-- Every name that a library step claims, with the position that it claims it for: its own name,
its own id, and the ids of the steps below it. -/
def libraryClaims (definition : WorkflowDefinition) : List (String × Position) :=
  definition.library.flatMap fun (name, step) =>
    (name, .library name) :: definition.libraryIds name step

/-- No two entries of the library have one name, and no name is claimed for two positions. -/
structure ClaimsOnce (definition : WorkflowDefinition) : Prop where
  entries : (definition.library.map Prod.fst).Nodup
  positions : ∀ claim ∈ definition.libraryClaims, ∀ other ∈ definition.libraryClaims,
    claim.1 = other.1 → claim.2 = other.2

theorem mem_libraryTable {definition : WorkflowDefinition} {entry : String × Position} :
    entry ∈ definition.libraryTable ↔ entry ∈ definition.libraryClaims := by
  have indexed : ∀ (library : List (String × StepDefinition)) (table : NameTable),
      entry ∈ library.foldl (fun (table : NameTable) (name, step) =>
        (table.assign name (.library name)).offerAll (definition.libraryIds name step)) table ↔
      entry ∈ table ∨ entry ∈ library.flatMap fun (name, step) =>
        (name, .library name) :: definition.libraryIds name step := by
    intro library
    induction library with
    | nil => simp
    | cons head tail induction =>
        obtain ⟨name, step⟩ := head
        intro table
        rw [List.foldl_cons, induction]
        dsimp only
        rw [NameTable.offerAll_eq, NameTable.assign]
        simp only [List.flatMap_cons, List.mem_append, List.mem_cons]
        tauto
  rw [libraryTable, indexed, libraryClaims]
  simp

/-! ## Another order -/

/-- The definition with another library. -/
def withLibrary (definition : WorkflowDefinition) (library : List (String × StepDefinition)) :
    WorkflowDefinition :=
  { definition with library }

section Permuted

variable {definition : WorkflowDefinition} (once : definition.ClaimsOnce)
  {library : List (String × StepDefinition)} (permuted : library.Perm definition.library)

include once permuted

theorem libraryStep?_withLibrary :
    (definition.withLibrary library).libraryStep? = definition.libraryStep? := by
  funext name
  refine (lookup_eq_of_mem_iff (fun entry => permuted.symm.mem_iff) ?_ name).symm
  intro entry mem other otherMem same
  exact congrArg Prod.snd (List.inj_on_of_nodup_map once.entries mem otherMem same)

theorem libraryIds_withLibrary :
    (definition.withLibrary library).libraryIds = definition.libraryIds := by
  funext name step
  simp only [libraryIds, placedIds, effectiveId?, libraryStep?_withLibrary once permuted]

theorem find?_library_withLibrary :
    NameTable.find? (definition.withLibrary library).libraryTable =
      NameTable.find? definition.libraryTable := by
  funext name
  refine (lookup_eq_of_mem_iff ?_ ?_ name).symm
  · intro entry
    rw [mem_libraryTable, mem_libraryTable, libraryClaims, libraryClaims,
      libraryIds_withLibrary once permuted]
    exact (permuted.symm.flatMap_right _).mem_iff
  · intro entry mem other otherMem
    exact once.positions entry (mem_libraryTable.mp mem) other (mem_libraryTable.mp otherMem)

theorem jobTables_withLibrary :
    (definition.withLibrary library).names.jobs = definition.names.jobs := by
  simp only [names, jobTable, placedIds, effectiveId?, libraryStep?_withLibrary once permuted]
  rfl

theorem asksAlike_withLibrary : definition.AsksAlike (definition.withLibrary library) := by
  have steps := libraryStep?_withLibrary once permuted
  have jobs := jobTables_withLibrary once permuted
  refine ⟨?step, ?names, ?reusable, ?crossJob, rfl, rfl⟩
  case step =>
    funext ⟨scope, path⟩
    cases scope with
    | library name => cases path <;> simp only [step?, steps]
    | job index => rfl
  case names =>
    funext scope name
    have inLibrary := congrFun (find?_library_withLibrary once permuted) name
    cases scope with
    | library other => exact inLibrary
    | job index =>
        rw [Names.find?, Names.find?, Names.findInJob?, Names.findInJob?, jobs]
        exact congrArg _ inLibrary
  case reusable =>
    funext name
    rw [resolveReusable, resolveReusable, steps]
  case crossJob =>
    funext reference
    simp only [resolveCrossJob, Names.findInJob?, jobs]
    rfl

/-- If no name is claimed twice, the library may be written in any order: building fails with the
same error or gives the same workflow, with the same warnings on the way, and so the resolved
workflow and the document are the same. -/
theorem library_order_is_free :
    (definition.withLibrary library).build = definition.build ∧
      CommandLine.resolveDefinition (definition.withLibrary library) =
        CommandLine.resolveDefinition definition ∧
      ∀ command, (CommandLine.resolveDefinition (definition.withLibrary library)).map
          (fun built => CommandLine.outputOf? command built.1 built.2) =
        (CommandLine.resolveDefinition definition).map
          fun built => CommandLine.outputOf? command built.1 built.2 := by
  have built := (asksAlike_withLibrary once permuted).build_eq
  have resolved : CommandLine.resolveDefinition (definition.withLibrary library) =
      CommandLine.resolveDefinition definition := by
    rw [CommandLine.resolveDefinition, CommandLine.resolveDefinition, built]
  exact ⟨built, resolved, fun command => by rw [resolved]⟩

end Permuted

end WorkflowDefinition

namespace Sample

/-- A group with an id of its own, and a step in it that stands for the other library step. -/
def toolLibrary : List (String × StepDefinition) :=
  [("setup", { run := some "s" }),
    ("build", { id := some "compile", children := some [
      { id := some "fetch", reusable := some "setup" }, { run := some "make" }] })]

def twoTools : WorkflowDefinition where
  library := toolLibrary
  jobs := [("j", { steps := [{ reusable := some "build" }, { run := some "r", after := .single "fetch" }] })]

theorem claimsOnce_twoTools : twoTools.ClaimsOnce where
  entries := by decide
  positions := by
    have claims : twoTools.libraryClaims = [("setup", .library "setup"), ("build", .library "build"),
        ("compile", .library "build"), ("fetch", (Position.library "build").child 0)] := by decide
    rw [claims]
    decide

theorem library_order_is_free_twoTools :
    toolLibrary.reverse.Perm twoTools.library ∧
      (twoTools.withLibrary toolLibrary.reverse).build = twoTools.build := by
  have permuted : toolLibrary.reverse.Perm twoTools.library := List.reverse_perm toolLibrary
  exact ⟨permuted,
    (WorkflowDefinition.library_order_is_free claimsOnce_twoTools permuted).1⟩

end Sample

end FlowPlan
