import FlowPlan.Proofs.Needs
import FlowPlan.Proofs.Stages
import FlowPlan.Proofs.Standing

/-! # The chronicle of a construction

The steps of a construction are told by the table of what has been made. Each
entry was made from what is written at its position and from entries before it,
and nothing else went into it. So the table accounts for every part of a step:
what it contains, what it consumes and what its condition reads.
-/

namespace FlowPlan

/-- Positions with the steps that have been made for them, the latest first. -/
abbrev StepTable := List (Position × Step)

namespace StepTable

/-- What the table has for an id that is read in the scope. -/
inductive Supplies (table : StepTable) (definition : WorkflowDefinition) (scope : Scope)
    (current : Option Position) (id : String) : Option Step → Prop
  | unknown (absent : definition.names.find? scope id = none) :
      table.Supplies definition scope current id none
  | itself {target : Position} (found : definition.names.find? scope id = some target)
      (same : current = some target) : table.Supplies definition scope current id none
  | step {target : Position} {step : Step}
      (found : definition.names.find? scope id = some target) (other : current ≠ some target)
      (mem : (target, step) ∈ table) : table.Supplies definition scope current id (some step)

/-- The ids of the text stand for what the table has for them, and no other ids for anything. -/
structure IsScope (table : StepTable) (definition : WorkflowDefinition) (scope : Scope)
    (current : Option Position) (text : String) (known : StepScope Step) : Prop where
  inside : ∀ id ∈ Text.referencedSteps text.toList,
    table.Supplies definition scope current id (known id)
  outside : ∀ id ∉ Text.referencedSteps text.toList, known id = none

/-- The condition is the one of the text at the position. -/
def Reads (table : StepTable) (definition : WorkflowDefinition) (position : Position)
    (text : String) (condition : Condition Step) : Prop :=
  ∃ known, table.IsScope definition position.scope (some position) text known ∧
    Condition.parse known text.toList = .ok condition

/-- The item is the one that is placed at the position. -/
inductive IsItemAt (table : StepTable) (definition : WorkflowDefinition) : Position → Item → Prop
  | place {position : Position} {written : StepDefinition} {start : Item}
      {condition : Option (Condition Step)} {dependencies : List (Position × Item)}
      {predecessors : List (Position × Step)}
      (found : definition.step? position = some written)
      (reference : ∀ name, written.reusable = some name →
        table.IsItemAt definition (.library name) start)
      (own : written.reusable = none → ∃ step, (position, step) ∈ table ∧ start = .ofStep step)
      (stated : Option.Rel (table.Reads definition position) (written.placeText? position)
        condition)
      (dependsOn : List.Forall₂
        (fun name entry => definition.resolveName position.scope name = .ok entry.1)
        written.dependsOn.names dependencies)
      (library : ∀ entry ∈ dependencies, entry.1.isLibraryRoot = true →
        table.IsItemAt definition entry.1 entry.2)
      (other : ∀ entry ∈ dependencies, entry.1.isLibraryRoot = false →
        ∃ step, (entry.1, step) ∈ table ∧ entry.2 = .ofStep step)
      (after : List.Forall₂
        (fun name entry => definition.resolveName position.scope name = .ok entry.1 ∧
          entry ∈ table) written.after.names predecessors) :
      table.IsItemAt definition position (start.furnished condition (dependencies.map Prod.snd)
        (predecessors.map fun entry => .ofStep entry.2))

/-- The step is the one that is made for the position. -/
inductive IsMadeFor (table : StepTable) (definition : WorkflowDefinition) (position : Position)
    (written : StepDefinition) : Step → Prop
  | reference {name : String} {step : Step} (reusable : written.reusable = some name)
      (mem : (.library name, step) ∈ table) : table.IsMadeFor definition position written step
  | group {children : List StepDefinition} {items : List Item} {key : Nat} {step : Step}
      (isRoot : written.reusable = none) (isGroup : written.children = some children)
      (placed : List.Forall₂ (fun index item => table.IsItemAt definition (position.child index) item)
        (List.range children.length) items)
      (made : Step.ofGroup key written.id written.outputs written.name items = .ok step) :
      table.IsMadeFor definition position written step
  | action {own : Option (Condition Step)} {consumed : List (Position × Step)} {key : Nat}
      {step : Step} (isRoot : written.reusable = none) (isAction : written.children = none)
      (stated : Option.Rel (table.Reads definition position) (written.ownText? position) own)
      (consumes : List.Forall₂
        (fun reference entry => definition.resolveCrossJob reference = .ok entry.1 ∧ entry ∈ table)
        written.consumes.names consumed)
      (made : Step.ofAction key written.id written.outputs (written.action own)
        (consumed.map Prod.snd) = .ok step) :
      table.IsMadeFor definition position written step

/-- Every step was made from those before it, and no position has two. -/
inductive IsChronicle (definition : WorkflowDefinition) : StepTable → Prop
  | nil : IsChronicle definition []
  | cons {table : StepTable} {position : Position} {written : StepDefinition} {step : Step}
      (before : IsChronicle definition table) (fresh : position ∉ table.map Prod.fst)
      (found : definition.step? position = some written)
      (made : table.IsMadeFor definition position written step) :
      IsChronicle definition ((position, step) :: table)

/-! ## A table that grows -/

section Grows

variable {definition : WorkflowDefinition} {table wider : StepTable} (grows : table ⊆ wider)

include grows

theorem Supplies.mono {scope : Scope} {current : Option Position} {id : String}
    {found : Option Step} (supplies : table.Supplies definition scope current id found) :
    wider.Supplies definition scope current id found := by
  cases supplies with
  | unknown absent => exact .unknown absent
  | itself found same => exact .itself found same
  | step found other mem => exact .step found other (grows mem)

theorem IsScope.mono {scope : Scope} {current : Option Position} {text : String}
    {known : StepScope Step} (isScope : table.IsScope definition scope current text known) :
    wider.IsScope definition scope current text known :=
  ⟨fun id mem => (isScope.inside id mem).mono grows, isScope.outside⟩

theorem Reads.mono {position : Position} {text : String} {condition : Condition Step}
    (reads : table.Reads definition position text condition) :
    wider.Reads definition position text condition := by
  rcases reads with ⟨known, isScope, parsed⟩
  exact ⟨known, isScope.mono grows, parsed⟩

theorem Reads.mono_rel {position : Position} {text : Option String}
    {condition : Option (Condition Step)}
    (reads : Option.Rel (table.Reads definition position) text condition) :
    Option.Rel (wider.Reads definition position) text condition := by
  cases reads with
  | none => exact .none
  | some reads => exact .some (reads.mono grows)

theorem IsItemAt.mono {position : Position} {item : Item}
    (isItem : table.IsItemAt definition position item) :
    wider.IsItemAt definition position item := by
  induction isItem with
  | place found _ own stated dependsOn _ other after referenceInduction libraryInduction =>
      refine .place found referenceInduction ?_ (Reads.mono_rel grows stated) dependsOn
        libraryInduction ?_ ?_
      · intro isRoot
        exact (own isRoot).imp fun _ => And.imp_left (grows ·)
      · intro entry mem isOther
        exact (other entry mem isOther).imp fun _ => And.imp_left (grows ·)
      · exact after.imp fun _ _ => And.imp_right (grows ·)

theorem IsMadeFor.mono {position : Position} {written : StepDefinition} {step : Step}
    (made : table.IsMadeFor definition position written step) :
    wider.IsMadeFor definition position written step := by
  cases made with
  | reference reusable mem => exact .reference reusable (grows mem)
  | group isRoot isGroup placed made =>
      exact .group isRoot isGroup (placed.imp fun _ _ isItem => isItem.mono grows) made
  | action isRoot isAction stated consumes made =>
      exact .action isRoot isAction (Reads.mono_rel grows stated)
        (consumes.imp fun _ _ => And.imp_right (grows ·)) made

end Grows

/-! ## What a chronicle says of its entries -/

namespace IsChronicle

variable {definition : WorkflowDefinition} {table : StepTable}
  (chronicle : IsChronicle definition table)

include chronicle

theorem exists_made {position : Position} {step : Step} (mem : (position, step) ∈ table) :
    ∃ written, definition.step? position = some written ∧
      table.IsMadeFor definition position written step := by
  induction chronicle with
  | nil => cases mem
  | cons before fresh found made induction =>
      rcases List.mem_cons.mp mem with same | earlier
      · cases same
        exact ⟨_, found, made.mono (List.subset_cons_self _ _)⟩
      · rcases induction earlier with ⟨written, isWritten, earlierMade⟩
        exact ⟨written, isWritten, earlierMade.mono (List.subset_cons_self _ _)⟩

theorem nodup_positions : (table.map Prod.fst).Nodup := by
  induction chronicle with
  | nil => exact List.nodup_nil
  | cons before fresh _ _ induction => exact List.nodup_cons.mpr ⟨fresh, induction⟩

/-- A position has one step. -/
theorem eq_of_mem {position : Position} {step other : Step} (mem : (position, step) ∈ table)
    (otherMem : (position, other) ∈ table) : step = other :=
  congrArg Prod.snd
    (List.inj_on_of_nodup_map chronicle.nodup_positions mem otherMem rfl)

end IsChronicle

end StepTable

end FlowPlan
