import FlowPlan.Proofs.Chronicle
import FlowPlan.Proofs.SoundConstruction

/-! # Building keeps the chronicle

The builder enters a step for its position once it has been made, and it asks
for nothing but steps that are in the table by then. Positions that are being
worked on are not entered by anybody else in the meantime, so none of them gets
two steps.
-/

namespace FlowPlan

open Building (Reaches)

variable {definition : WorkflowDefinition}

/-- If every member is an image, the list is the image of a list. -/
theorem exists_images_of_forall₂ {α β γ : Type} {relation : α → γ → Prop} {f : γ → β}
    {members : List α} {images : List β}
    (related : List.Forall₂ (fun member image => ∃ value, relation member value ∧ f value = image)
      members images) :
    ∃ values, List.Forall₂ relation members values ∧ values.map f = images := by
  induction related with
  | nil => exact ⟨[], .nil, rfl⟩
  | cons head _ induction =>
      rcases head with ⟨value, holds, rfl⟩
      rcases induction with ⟨values, allHold, rfl⟩
      exact ⟨value :: values, .cons holds allHold, rfl⟩

/-! ## Progress of the table -/

/-- The chronicle goes on, and the positions that are taken are spared. -/
structure Construction.Continues (definition : WorkflowDefinition) (taken : List Position)
    (before after : Construction) : Prop where
  built : before.built ⊆ after.built
  chronicle : StepTable.IsChronicle definition before.built →
    StepTable.IsChronicle definition after.built
  spares : ∀ position ∈ taken, position ∉ before.built.map Prod.fst →
    position ∉ after.built.map Prod.fst

namespace Construction.Continues

variable {taken : List Position}

instance : Std.Refl (Continues definition taken) :=
  ⟨fun _ => ⟨List.Subset.refl _, id, fun _ _ => id⟩⟩

instance : IsTrans Construction (Continues definition taken) :=
  ⟨fun _ _ _ former latter =>
    ⟨List.Subset.trans former.built latter.built,
      fun chronicle => latter.chronicle (former.chronicle chronicle),
      fun position mem fresh => latter.spares position mem (former.spares position mem fresh)⟩⟩

theorem of_built_eq {before after : Construction} (same : after.built = before.built) :
    before.Continues definition taken after := by
  constructor
  case built => exact same ▸ List.Subset.refl _
  case chronicle => exact fun chronicle => same ▸ chronicle
  case spares => exact fun _ _ fresh => same ▸ fresh

theorem of_cons {position : Position} {before after : Construction}
    (continues : before.Continues definition (position :: taken) after) :
    before.Continues definition taken after :=
  { continues with
    spares := fun other mem => continues.spares other (List.mem_cons_of_mem position mem) }

theorem enter {state : Construction} {position : Position} {written : StepDefinition} {step : Step}
    (isFree : position ∉ taken) (fresh : position ∉ state.built.map Prod.fst)
    (found : definition.step? position = some written)
    (made : StepTable.IsMadeFor state.built definition position written step) :
    state.Continues definition taken (state.enter position step) := by
  constructor
  case built => exact List.subset_cons_self _ _
  case chronicle => exact fun chronicle => .cons chronicle fresh found made
  case spares =>
    intro other mem otherFresh present
    rcases List.mem_cons.mp present with rfl | present
    · exact isFree mem
    · exact otherFresh present

end Construction.Continues

namespace Building

/-- Continues the chronicle and comes to something that has the property by the table. -/
abbrev Records {α : Type} (definition : WorkflowDefinition) (taken : List Position)
    (start : Construction) (work : Building α) (property : StepTable → α → Prop) : Prop :=
  Reaches (Construction.Continues definition taken) start work fun state => property state.built

variable {taken : List Position} {start : Construction}

theorem records_warn (warning : Warning) :
    Records definition taken start (warn warning) fun _ _ => True :=
  (Reaches.modify (Construction.Continues.of_built_eq rfl)).mono fun _ _ _ _ => trivial

theorem records_newStep (make : Nat → Except PlanError Step) :
    Records definition taken start (newStep make) fun table step =>
      table = start.built ∧ ∃ key, make key = .ok step := by
  apply Reaches.get.bind
  rintro _ state _ ⟨rfl, rfl⟩
  split
  · rename_i step made
    have next : state.Continues definition taken { state with nextKey := state.nextKey + 1 } :=
      .of_built_eq rfl
    apply (Reaches.modify next).bind
    rintro _ _ _ rfl
    exact .pure ⟨rfl, _, made⟩
  · exact .throw _

/-- A step is entered only where its position is free. -/
theorem records_shared (position : Position) {make : Building Step}
    (makes : Records definition (position :: taken) start make fun table step =>
      position ∉ taken ∧ ∃ written, definition.step? position = some written ∧
        table.IsMadeFor definition position written step) :
    Records definition taken start (shared position make) fun table step =>
      (position, step) ∈ table := by
  apply Reaches.get.bind
  rintro _ state _ ⟨rfl, rfl⟩
  split
  · rename_i step found
    rcases List.lookup_eq_some_iff.mp found with ⟨earlier, later, whole, _⟩
    exact .pure (whole ▸ List.mem_append_right earlier List.mem_cons_self)
  · rename_i absent
    have fresh : position ∉ state.built.map Prod.fst := by
      intro present
      rcases List.mem_map.mp present with ⟨entry, mem, rfl⟩
      simpa using List.lookup_eq_none_iff.mp absent entry mem
    have stillFresh := makes.mono fun middle step continues made =>
      And.intro (continues.spares position List.mem_cons_self fresh) made
    apply (stillFresh.widen fun _ _ => Construction.Continues.of_cons).bind
    rintro middle step _ ⟨middleFresh, isFree, written, found, made⟩
    apply (Reaches.modify (Construction.Continues.enter isFree middleFresh found made)).bind
    rintro _ _ _ rfl
    exact .pure List.mem_cons_self

end Building

open Building (Records)

namespace WorkflowDefinition

variable {underway : Underway} {start : Construction}

/-! ## Given the steps -/

/-- The steps that are asked for are entered for their positions. -/
def RecordsSteps (definition : WorkflowDefinition) (underway : Underway) : Prop :=
  ∀ position start, Records definition underway.steps start (definition.stepAt underway position)
    fun table step => (position, step) ∈ table

/-- The items that are asked for are those of their positions. -/
def RecordsItems (definition : WorkflowDefinition) (underway : Underway) : Prop :=
  ∀ position start, Records definition underway.steps start (definition.itemAt underway position)
    fun table item => table.IsItemAt definition position item

/-- Nothing is looked up under a name that has not been gone through. -/
theorem lookup_eq_none_of_not_mem {names : List String} {known : List (Option (String × Step))}
    {finds : String → Option Step → Prop}
    (related : List.Forall₂
      (fun name entry => ∃ found, finds name found ∧ entry = found.map (name, ·)) names known)
    {name : String} (absent : name ∉ names) : (known.filterMap id).lookup name = none := by
  rw [List.lookup_eq_none_iff]
  intro entry mem
  rcases List.mem_filterMap.mp mem with ⟨_, entryMem, rfl⟩
  rcases exists_of_mem_forall₂ related entryMem with ⟨other, otherMem, found, _, isEntry⟩
  rcases Option.map_eq_some_iff.mp isEntry.symm with ⟨_, rfl, equal⟩
  have isOther : entry.1 = other := congrArg Prod.fst equal.symm
  have apart : name ≠ entry.1 := fun same => absent (same.trans isOther ▸ otherMem)
  simpa using apart

section Steps

variable (steps : definition.RecordsSteps underway)

include steps

theorem records_readAt (scope : Scope) (current : Option Position) (text id : String) :
    Records definition underway.steps start (definition.readAt underway scope current text id)
      fun table entry => ∃ found, table.Supplies definition scope current id found ∧
        entry = found.map (id, ·) := by
  rw [readAt]
  cases found : definition.names.find? scope id with
  | none =>
      apply (Building.records_warn _).bind
      intro state _ _ _
      exact .pure ⟨none, .unknown found, rfl⟩
  | some target =>
      dsimp only
      split
      · rename_i same
        exact .pure ⟨none, .itself found same, rfl⟩
      · rename_i other
        apply (steps target start).map
        intro state step _ mem
        exact ⟨some step, .step found other mem, rfl⟩

theorem records_scopeAt (scope : Scope) (current : Option Position) (text : String) :
    Records definition underway.steps start (definition.scopeAt underway scope current text)
      fun table known => table.IsScope definition scope current text known := by
  rw [scopeAt_eq]
  refine (Reaches.mapM ?keeps fun id _ state _ =>
    records_readAt steps scope current text id).bind fun state known _ related => ?_
  case keeps =>
    rintro before after id entry continues ⟨found, supplies, isEntry⟩
    exact ⟨found, supplies.mono continues.built, isEntry⟩
  · exact .pure ⟨fun _ mem => finds_of_lookup related mem,
      fun _ absent => lookup_eq_none_of_not_mem related absent⟩

theorem records_conditionAt (position : Position) (text : String) :
    Records definition underway.steps start (definition.conditionAt underway position text)
      fun table condition => table.Reads definition position text condition := by
  rw [conditionAt]
  apply (records_scopeAt steps position.scope (some position) text).bind
  intro state known _ isScope
  apply (Reaches.ofExpression _).mono
  rintro _ condition _ ⟨rfl, parsed⟩
  exact ⟨known, isScope, parsed⟩

theorem records_textAt (position : Position) (text : Option String) :
    Records definition underway.steps start (definition.textAt underway position text)
      fun table condition => Option.Rel (table.Reads definition position) text condition := by
  cases text with
  | none => exact .pure .none
  | some text =>
      apply (records_conditionAt steps position text).map
      intro state condition _ reads
      exact .some reads

theorem records_predecessorAt (scope : Scope) (name : String) :
    Records definition underway.steps start (definition.predecessorAt underway scope name)
      fun table item => ∃ entry : Position × Step,
        (definition.resolveName scope name = .ok entry.1 ∧ entry ∈ table) ∧
          .ofStep entry.2 = item := by
  apply (Reaches.ofDefinition _).bind
  rintro state target _ ⟨_, resolved⟩
  apply (steps target state).map
  intro after step _ mem
  exact ⟨(target, step), ⟨resolved, mem⟩, rfl⟩

theorem records_consumedAt (reference : String) :
    Records definition underway.steps start (definition.consumedAt underway reference)
      fun table step => ∃ entry : Position × Step,
        (definition.resolveCrossJob reference = .ok entry.1 ∧ entry ∈ table) ∧ entry.2 = step := by
  apply (Reaches.ofDefinition _).bind
  rintro state target _ ⟨_, resolved⟩
  apply (steps target state).mono
  intro after step _ mem
  exact ⟨(target, step), ⟨resolved, mem⟩, rfl⟩

end Steps

/-! ## Given the steps and the items -/

section Items

variable (steps : definition.RecordsSteps underway) (items : definition.RecordsItems underway)

include steps items

theorem records_startAt (position : Position) (written : StepDefinition) :
    Records definition underway.steps start (definition.startAt underway position written)
      fun table item =>
        (∀ name, written.reusable = some name →
          table.IsItemAt definition (.library name) item) ∧
        (written.reusable = none → ∃ step, (position, step) ∈ table ∧ item = .ofStep step) := by
  rw [startAt]
  cases reusable : written.reusable with
  | none =>
      apply (steps position start).map
      intro state step _ mem
      exact ⟨fun name isSome => absurd isSome.symm (Option.some_ne_none name),
        fun _ => ⟨step, mem, rfl⟩⟩
  | some name =>
      apply (Reaches.ofDefinition _).bind
      rintro state target _ ⟨_, resolved⟩
      apply (items target state).mono
      intro after item _ isItem
      rw [eq_of_resolveReusable resolved] at isItem
      exact ⟨fun other isOther => Option.some.inj isOther ▸ isItem,
        fun isNone => absurd isNone (Option.some_ne_none name)⟩

theorem records_dependencyAt (scope : Scope) (name : String) :
    Records definition underway.steps start (definition.dependencyAt underway scope name)
      fun table item => ∃ entry : Position × Item,
        (definition.resolveName scope name = .ok entry.1 ∧
          (entry.1.isLibraryRoot = true → table.IsItemAt definition entry.1 entry.2) ∧
          (entry.1.isLibraryRoot = false →
            ∃ step, (entry.1, step) ∈ table ∧ entry.2 = .ofStep step)) ∧ entry.2 = item := by
  rw [dependencyAt]
  apply (Reaches.ofDefinition _).bind
  rintro state target _ ⟨_, resolved⟩
  cases isLibrary : target.isLibraryRoot with
  | true =>
      apply (items target state).mono
      intro after item _ isItem
      refine ⟨(target, item), ⟨resolved, fun _ => isItem, fun isOther => ?_⟩, rfl⟩
      cases isLibrary.symm.trans isOther
  | false =>
      apply (steps target state).map
      intro after step _ mem
      refine ⟨(target, .ofStep step), ⟨resolved, fun isOther => ?_, fun _ => ⟨step, mem, rfl⟩⟩, rfl⟩
      cases isLibrary.symm.trans isOther

theorem records_newItemAt {position : Position} {written : StepDefinition}
    (found : definition.step? position = some written) :
    Records definition underway.steps start (definition.newItemAt underway position written)
      fun table item => table.IsItemAt definition position item := by
  rw [newItemAt_eq]
  apply (records_startAt steps items position written).bind
  rintro first begun _ ⟨reference, own⟩
  apply (records_textAt steps position _).bind
  intro second condition toSecond stated
  refine (Reaches.mapM ?keepsDependency fun name _ state _ =>
    records_dependencyAt steps items position.scope name).bind
      fun third dependencies toThird dependsOn => ?_
  case keepsDependency =>
    rintro before after name item continues ⟨entry, ⟨resolved, library, other⟩, isEntry⟩
    exact ⟨entry, ⟨resolved, fun isLibrary => (library isLibrary).mono continues.built,
      fun isOther => (other isOther).imp fun _ => And.imp_left (continues.built ·)⟩, isEntry⟩
  refine (Reaches.mapM ?keepsPredecessor fun name _ state _ =>
    records_predecessorAt steps position.scope name).bind fun fourth predecessors toFourth after => ?_
  case keepsPredecessor =>
    rintro before after name item continues ⟨entry, ⟨resolved, mem⟩, isEntry⟩
    exact ⟨entry, ⟨resolved, continues.built mem⟩, isEntry⟩
  have fromSecond := List.Subset.trans toThird.built toFourth.built
  have fromFirst := List.Subset.trans toSecond.built fromSecond
  rcases exists_images_of_forall₂ dependsOn with ⟨entries, entriesRelated, rfl⟩
  rcases exists_images_of_forall₂ after with ⟨others, othersRelated, rfl⟩
  apply Reaches.pure
  apply StepTable.IsItemAt.place found
  case reference => exact fun name reusable => (reference name reusable).mono fromFirst
  case own => exact fun isRoot => (own isRoot).imp fun _ => And.imp_left (fromFirst ·)
  case stated => exact StepTable.Reads.mono_rel fromSecond stated
  case dependsOn => exact entriesRelated.imp fun _ _ related => related.1
  case library =>
    intro entry mem isLibrary
    rcases exists_of_mem_forall₂ entriesRelated mem with ⟨_, _, _, isItem, _⟩
    exact (isItem isLibrary).mono toFourth.built
  case other =>
    intro entry mem isOther
    rcases exists_of_mem_forall₂ entriesRelated mem with ⟨_, _, _, _, isStep⟩
    exact (isStep isOther).imp fun _ => And.imp_left (toFourth.built ·)
  case after => exact othersRelated

theorem records_newStepAt (position : Position) (written : StepDefinition) :
    Records definition underway.steps start (definition.newStepAt underway position written)
      fun table step => table.IsMadeFor definition position written step := by
  rw [newStepAt_eq]
  split
  · rename_i name reusable
    apply (Reaches.ofDefinition _).bind
    rintro state target _ ⟨_, resolved⟩
    apply (steps target state).mono
    intro after step _ mem
    exact .reference reusable (eq_of_resolveReusable resolved ▸ mem)
  · rename_i children isRoot isGroup
    refine (Reaches.mapM ?keepsChild fun index _ state _ =>
      items (position.child index) state).bind fun middle children _ placed => ?_
    case keepsChild => exact fun _ _ _ _ continues isItem => isItem.mono continues.built
    apply (Building.records_newStep _).mono
    rintro state step _ ⟨same, key, made⟩
    rw [same]
    exact .group isRoot isGroup placed made
  · rename_i isRoot isAction
    apply (records_textAt steps position _).bind
    intro first own _ stated
    refine (Reaches.mapM ?keepsConsumed fun reference _ state _ =>
      records_consumedAt steps reference).bind fun middle consumed toMiddle consumes => ?_
    case keepsConsumed =>
      rintro before after reference step continues ⟨entry, ⟨resolved, mem⟩, isEntry⟩
      exact ⟨entry, ⟨resolved, continues.built mem⟩, isEntry⟩
    rcases exists_images_of_forall₂ consumes with ⟨entries, entriesRelated, rfl⟩
    apply (Building.records_newStep _).mono
    rintro state step _ ⟨same, key, made⟩
    rw [same]
    exact .action isRoot isAction (StepTable.Reads.mono_rel toMiddle.built stated) entriesRelated made

end Items

/-! ## All positions -/

theorem records_stepAt_of_newStepAt {position : Position}
    (fresh : ∀ written, definition.step? position = some written → position ∉ underway.steps →
      Records definition (position :: underway.steps) start (definition.newStepAt
        { underway with steps := position :: underway.steps } position written) fun table step =>
          table.IsMadeFor definition position written step) :
    Records definition underway.steps start (definition.stepAt underway position) fun table step =>
      (position, step) ∈ table := by
  rw [stepAt]
  apply Building.records_shared
  split
  · exact .throw _
  · rename_i isFree
    split
    · exact .throw _
    · rename_i written found
      exact (fresh written found isFree).mono fun _ _ _ made => ⟨isFree, written, found, made⟩

theorem records_itemAt_of_newItemAt {position : Position}
    (fresh : ∀ written, definition.step? position = some written → position ∉ underway.items →
      Records definition underway.steps start (definition.newItemAt
        { underway with items := position :: underway.items } position written) fun table item =>
          table.IsItemAt definition position item) :
    Records definition underway.steps start (definition.itemAt underway position) fun table item =>
      table.IsItemAt definition position item := by
  rw [itemAt]
  split
  · exact .throw _
  · rename_i isFree
    split
    · exact .throw _
    · rename_i written found
      exact fresh written found isFree

theorem recordsSteps_and_recordsItems (underway : Underway) :
    definition.RecordsSteps underway ∧ definition.RecordsItems underway := by
  -- The induction is on how many positions are free to be taken up.
  induction free : definition.freeAll underway using Nat.strong_induction_on
    generalizing underway with
  | _ count induction =>
      subst free
      constructor
      · intro position start
        apply records_stepAt_of_newStepAt
        intro written found isFree
        have fewer := definition.free_cons_lt found isFree
        have below := induction _ (by simp only [freeAll]; omega)
          { underway with steps := position :: underway.steps } rfl
        exact records_newStepAt below.1 below.2 position written
      · intro position start
        apply records_itemAt_of_newItemAt
        intro written found isFree
        have fewer := definition.free_cons_lt found isFree
        have below := induction _ (by simp only [freeAll]; omega)
          { underway with items := position :: underway.items } rfl
        exact records_newItemAt below.1 below.2 found

end WorkflowDefinition

end FlowPlan
