import FlowPlan.Proofs.Growth
import FlowPlan.Proofs.PlacedItems

/-! # Building keeps constructions sound

Each function of the builder is taken on its own: given that the steps and items
it asks for come from their positions, so does what it makes. A step is entered
for its position only once it has been made, with a key that no other step has.
-/

namespace FlowPlan

open Building (Reaches)

variable {definition : WorkflowDefinition}

namespace Construction

/-- The construction has grown and is still sound if it was. -/
structure Advances (definition : WorkflowDefinition) (before after : Construction) : Prop where
  grows : before.Grows after
  sound : before.IsSound definition → after.IsSound definition

instance : Std.Refl (Advances definition) :=
  ⟨fun construction => ⟨.refl construction, id⟩⟩

instance : IsTrans Construction (Advances definition) :=
  ⟨fun _ _ _ former latter =>
    ⟨former.grows.trans latter.grows, fun sound => latter.sound (former.sound sound)⟩⟩

/-- Warnings and used keys do not matter to the steps that have been made. -/
theorem IsSound.of_built_eq {before after : Construction} (sound : before.IsSound definition)
    (grows : before.Grows after) (same : after.built = before.built)
    (later : before.nextKey ≤ after.nextKey) : after.IsSound definition where
  steps entry mem := (sound.steps entry (same ▸ mem)).mono grows
  made position written step stands mem :=
    (sound.made position written step stands (same ▸ mem)).mono grows
  numbered entry mem := Nat.lt_of_lt_of_le (sound.numbered entry (same ▸ mem)) later
  keys left leftMem right rightMem := sound.keys left (same ▸ leftMem) right (same ▸ rightMem)

/-- The step was made with the next key, which no step had before. -/
theorem IsSound.enter_made {before after : Construction} (sound : before.IsSound definition)
    {position : Position} {written : StepDefinition}
    (found : definition.step? position = some written) (isRoot : written.reusable = none)
    {step : Step} (makes : before.Makes definition position written step)
    (isAfter : after = { before with nextKey := before.nextKey + 1 })
    (key : step.key = before.nextKey) : (after.enter position step).IsSound definition := by
  have grows : before.Grows after := by
    rw [isAfter]
    exact ⟨List.Subset.refl _, List.Subset.refl _⟩
  have afterSound : after.IsSound definition :=
    sound.of_built_eq grows (by rw [isAfter]) (by rw [isAfter]; exact Nat.le_succ _)
  refine afterSound.enter_root found isRoot (makes.mono grows) ?_ ?_
  · intro entry mem
    rw [isAfter] at mem
    exact key ▸ sound.numbered entry mem
  · rw [isAfter, key]
    exact Nat.lt_succ_self _

theorem isSound_empty : ({} : Construction).IsSound definition where
  steps _ mem := nomatch mem
  made _ _ _ _ mem := nomatch mem
  numbered _ mem := nomatch mem
  keys _ mem := nomatch mem

end Construction

namespace Building

/-- Keeps the construction sound and comes to something with the property. -/
abbrev Secures {α : Type} (definition : WorkflowDefinition) (start : Construction)
    (work : Building α) (property : Construction → α → Prop) : Prop :=
  Reaches (Construction.Advances definition) start work property

variable {start : Construction}

theorem secures_warn (warning : Warning) :
    Secures definition start (warn warning) fun state _ => warning ∈ state.warnings := by
  have grows : start.Grows { start with warnings := start.warnings ++ [warning] } :=
    ⟨List.Subset.refl _, List.subset_append_left _ _⟩
  have advances : start.Advances definition
      { start with warnings := start.warnings ++ [warning] } :=
    ⟨grows, fun sound => sound.of_built_eq grows rfl (Nat.le_refl _)⟩
  refine (Reaches.modify advances).mono fun state _ _ isState => ?_
  rw [isState]
  exact List.mem_append_right _ List.mem_cons_self

theorem secures_newStep (make : Nat → Except PlanError Step) :
    Secures definition start (newStep make) fun state step =>
      make start.nextKey = .ok step ∧ state = { start with nextKey := start.nextKey + 1 } := by
  refine Reaches.get.bind fun _ _ _ same => ?_
  rw [same.1, same.2]
  split
  · rename_i step made
    have grows : start.Grows { start with nextKey := start.nextKey + 1 } :=
      ⟨List.Subset.refl _, List.Subset.refl _⟩
    have advances : start.Advances definition { start with nextKey := start.nextKey + 1 } :=
      ⟨grows, fun sound => sound.of_built_eq grows rfl (Nat.le_succ _)⟩
    exact (Reaches.modify advances).bind fun state _ _ isState => .pure ⟨made, isState⟩
  · exact .throw _

theorem secures_shared (sound : start.IsSound definition) (position : Position)
    {make : Building Step}
    (makes : Secures definition start make fun state step =>
      (state.enter position step).IsSound definition) :
    Secures definition start (shared position make) fun state step =>
      state.IsStepAt definition position step := by
  refine Reaches.get.bind fun _ _ _ same => ?_
  rw [same.1, same.2]
  split
  · rename_i step found
    rcases List.lookup_eq_some_iff.mp found with ⟨before, behind, whole, _⟩
    have mem : (position, step) ∈ start.built :=
      whole ▸ List.mem_append_right before List.mem_cons_self
    exact .pure (sound.steps _ mem)
  · refine makes.bind fun middle step _ entered => ?_
    refine Reaches.bind (Reaches.modify ⟨middle.grows_enter position step, fun _ => entered⟩)
      fun state _ _ isState => .pure ?_
    rw [isState]
    exact entered.steps _ List.mem_cons_self

end Building

open Building (Secures)

namespace WorkflowDefinition

variable {underway : Underway} {start : Construction}

/-! ## Given the steps -/

/-- The steps that are asked for are those of their positions. -/
def GivesSteps (definition : WorkflowDefinition) (underway : Underway) : Prop :=
  ∀ position start, start.IsSound definition →
    Secures definition start (definition.stepAt underway position) fun state step =>
      state.IsStepAt definition position step

/-- The items that are asked for were placed at their positions. -/
def GivesItems (definition : WorkflowDefinition) (underway : Underway) : Prop :=
  ∀ position start, start.IsSound definition →
    Secures definition start (definition.itemAt underway position) fun state item =>
      state.Places definition position item

/-- What is looked up under one of the names is what has been found for it. -/
theorem finds_of_lookup {names : List String} {known : List (Option (String × Step))}
    {finds : String → Option Step → Prop}
    (related : List.Forall₂
      (fun name entry => ∃ found, finds name found ∧ entry = found.map (name, ·)) names known)
    {name : String} (mem : name ∈ names) : finds name ((known.filterMap id).lookup name) := by
  cases looked : (known.filterMap id).lookup name with
  | some step =>
      rcases List.mem_filterMap.mp (mem_of_lookup looked) with ⟨_, entryMem, rfl⟩
      rcases exists_of_mem_forall₂ related entryMem with ⟨_, _, found, holds, isEntry⟩
      rcases Option.map_eq_some_iff.mp isEntry.symm with ⟨_, rfl, equal⟩
      cases equal
      exact holds
  | none =>
      rcases exists_of_mem_forall₂ related.flip mem with ⟨_, entryMem, found, holds, rfl⟩
      cases found with
      | none => exact holds
      | some step =>
          have listed : (name, step) ∈ known.filterMap id :=
            List.mem_filterMap.mpr ⟨_, entryMem, rfl⟩
          have absent := List.lookup_eq_none_iff.mp looked _ listed
          simp at absent

section Steps

variable (steps : definition.GivesSteps underway)

include steps

theorem secures_scopeAt (sound : start.IsSound definition) (scope : Scope)
    (current : Option Position) (text : String) :
    Secures definition start (definition.scopeAt underway scope current text) fun state known =>
      ∀ id, ⟨.steps, id⟩ ∈ Text.references text.toList →
        state.Finds definition scope current id (known id) := by
  rw [scopeAt]
  refine (Reaches.mapM ?keeps fun id _ state advances => ?read).bind
    fun state known _ (related : List.Forall₂ (fun id entry => ∃ found,
        state.Finds definition scope current id found ∧ entry = found.map (id, ·)) _ _) =>
      .pure fun id mem => finds_of_lookup related (Text.mem_referencedSteps.mpr mem)
  case keeps =>
    rintro before after id entry advances ⟨found, finds, isEntry⟩
    exact ⟨found, finds.mono advances.grows, isEntry⟩
  case read =>
    cases found : definition.names.find? scope id with
    | none =>
        refine (Building.secures_warn _).bind fun state _ _ warned => .pure ?_
        exact ⟨none, .unknown found text warned, rfl⟩
    | some target =>
        dsimp only
        split
        · rename_i same
          exact .pure ⟨none, .itself found same, rfl⟩
        · rename_i other
          refine (steps target state (advances.sound sound)).map fun state step _ isStep => ?_
          exact ⟨some step, .step found other isStep, rfl⟩

theorem secures_conditionAt (sound : start.IsSound definition) {position : Position}
    {written : StepDefinition} (found : definition.step? position = some written) {text : String}
    (isText : written.condition = some text) :
    Secures definition start (definition.conditionAt underway position text)
      fun state condition => state.States definition position condition := by
  rw [conditionAt]
  refine (secures_scopeAt steps sound position.scope (some position) text).bind
    fun middle scope advances finds => (Reaches.ofExpression _).mono fun state condition _ parsed => ?_
  rcases parsed with ⟨rfl, parsed⟩
  have readsAt : ∀ id, ⟨.steps, id⟩ ∈ Text.references text.toList →
      state.ReadsAt definition position id (scope id) :=
    fun id mem => ⟨position, .here position, ⟨written, found, text, isText, mem⟩, finds id mem⟩
  have reads : condition.ReadsSteps fun step =>
      ∃ id, state.ReadsAt definition position id (some step) := by
    refine Condition.readsOnly_of_parse ?_ ?_ parsed
    · intro id step equal
      cases equal
    · intro id step mem known other equal
      cases equal
      exact ⟨id, known ▸ readsAt id mem⟩
  refine ⟨Condition.isCovered_of_parse parsed, reads, fun leaf leafMem shown shownMem id mem => ?_⟩
  rcases Condition.showsSteps_of_parse parsed leaf leafMem shown shownMem id mem with
    ⟨inText, listed⟩
  refine ⟨scope id, readsAt id inText, fun step known => ?_⟩
  rcases listed step known with ⟨kept, keptMem, sameKey⟩
  have isRead : ∃ id, state.ReadsAt definition position id (some step) :=
    ⟨id, known ▸ readsAt id inText⟩
  have keptRead := reads leaf leafMem _ keptMem kept rfl
  have same := (advances.sound sound).keysIdentify kept step
    (keptRead.elim fun _ readsAt => readsAt.exists_isStepAt.imp fun _ => And.right)
    (isRead.elim fun _ readsAt => readsAt.exists_isStepAt.imp fun _ => And.right) sameKey
  exact same ▸ keptMem

/-- What is written at a position is stated of the item there, unless it belongs to the action. -/
theorem secures_stating (sound : start.IsSound definition) {position : Position}
    {written : StepDefinition} (found : definition.step? position = some written)
    {finish : Item → Building Item}
    (finishes : ∀ item state, state.IsSound definition → state.Places definition position item →
      Secures definition state (finish item) fun after item =>
        after.Places definition position item)
    {placed : Item} (places : start.Places definition position placed) :
    Secures definition start (match written.condition with
      | some text =>
        if written.ownsCondition position then finish placed
        else do finish (← (definition.conditionAt underway position text).map placed.when)
      | none => finish placed) fun state item => state.Places definition position item := by
  have without := finishes placed start sound places
  cases isText : written.condition with
  | none => exact without
  | some text =>
      dsimp only
      split
      · exact without
      · have stated : Secures definition start
            ((definition.conditionAt underway position text).map placed.when)
            fun state item => state.Places definition position item :=
          (secures_conditionAt steps sound found isText).map
            fun state condition advances states => (places.mono advances.grows).when states
        exact stated.bind fun state item advances places =>
          finishes item state (advances.sound sound) places

end Steps

/-! ## Given the steps and the items -/

section Items

variable (steps : definition.GivesSteps underway) (items : definition.GivesItems underway)

include steps items

theorem secures_dependencyAt (sound : start.IsSound definition) (scope : Scope) (name : String) :
    Secures definition start (definition.dependencyAt underway scope name) fun state item =>
      ∃ target, definition.names.find? scope name = some target ∧
        state.Places definition target item := by
  rw [dependencyAt]
  refine (Reaches.ofDefinition _).bind fun state target advances resolved => ?_
  have isTarget := find?_of_resolveName resolved.2
  split
  · exact (items target state (advances.sound sound)).mono
      fun _ _ _ places => ⟨target, isTarget, places⟩
  · exact (steps target state (advances.sound sound)).map
      fun _ _ _ isStep => ⟨target, isTarget, .of_step isStep⟩

theorem secures_newStepAt (sound : start.IsSound definition) {position : Position}
    {written : StepDefinition} (found : definition.step? position = some written) :
    Secures definition start (definition.newStepAt underway position written) fun state step =>
      (state.enter position step).IsSound definition := by
  rw [newStepAt]
  split
  · rename_i name reusable
    refine (Reaches.ofDefinition _).bind fun state target advances resolved => ?_
    have isLibrary := eq_of_resolveReusable resolved.2
    refine (steps target state (advances.sound sound)).mono fun after step later isStep => ?_
    exact (later.sound (advances.sound sound)).enter_reference found reusable (isLibrary ▸ isStep)
  · rename_i children isRoot isGroup
    have each : ∀ index ∈ List.range children.length, ∀ state, start.Advances definition state →
        Secures definition state (definition.itemAt underway (position.child index))
          fun state child => state.Places definition (position.child index) child :=
      fun index _ state advances => items (position.child index) state (advances.sound sound)
    refine (Reaches.mapM ?_ each).bind fun state children advances places => ?_
    · exact fun _ _ _ _ advances places => places.mono advances.grows
    · refine (Building.secures_newStep _).mono fun after step later made => ?_
      have makes := Construction.Makes.of_ofGroup isGroup places made.1
      exact (advances.sound sound).enter_made found isRoot makes.1 made.2 makes.2
  · rename_i isRoot isAction
    extract_lets finish
    have finishes : ∀ (own : Option (Condition Step)) state, state.IsSound definition →
        (∀ condition ∈ own, state.States definition position condition) →
          Secures definition state (finish own) fun after step =>
            (after.enter position step).IsSound definition := by
      intro own state stateSound states
      have each : ∀ reference ∈ written.consumes.names, ∀ middle, state.Advances definition middle →
          Secures definition middle (do
            definition.stepAt underway (← .ofDefinition (definition.resolveCrossJob reference)))
            fun _ _ => True := by
        intro reference _ middle advances
        refine (Reaches.ofDefinition _).bind fun before target later _ => ?_
        exact (steps target before (later.sound (advances.sound stateSound))).mono
          fun _ _ _ _ => trivial
      refine (Reaches.mapM (fun _ _ _ _ _ _ => trivial) each).bind
        fun middle consumed advances _ => ?_
      refine (Building.secures_newStep _).mono fun after step later made => ?_
      have makes := Construction.Makes.of_ofAction isAction
        (fun condition isOwn => (states condition isOwn).mono advances.grows) made.1
      exact (advances.sound stateSound).enter_made found isRoot makes.1 made.2 makes.2
    have without := finishes none start sound fun _ isOwn => absurd isOwn (Option.not_mem_none _)
    cases isText : written.condition with
    | none => exact without
    | some text =>
        dsimp only
        split
        · have own : Secures definition start
              ((definition.conditionAt underway position text).map some)
              fun state own => ∀ condition ∈ own, state.States definition position condition :=
            (secures_conditionAt steps sound found isText).map
              fun state condition advances states other isOwn => Option.some.inj isOwn ▸ states
          exact own.bind fun state own advances states =>
            finishes own state (advances.sound sound) states
        · exact without

theorem secures_newItemAt (sound : start.IsSound definition) {position : Position}
    {written : StepDefinition} (found : definition.step? position = some written) :
    Secures definition start (definition.newItemAt underway position written) fun state item =>
      state.Places definition position item := by
  rw [newItemAt]
  extract_lets finish
  have finishes : ∀ item state, state.IsSound definition →
      state.Places definition position item →
        Secures definition state (finish item) fun after item =>
          after.Places definition position item := by
    intro item state stateSound places
    refine (Reaches.foldlM places ?_).bind fun middle dependent advances dependentPlaces =>
      Reaches.foldlM dependentPlaces ?_
    · intro name named before item advances places
      refine (secures_dependencyAt steps items (advances.sound stateSound) position.scope name).bind
        fun after dependency later dependencyPlaces => .pure ?_
      rcases dependencyPlaces with ⟨target, isTarget, dependencyPlaces⟩
      exact (places.mono later.grows).dependsOn (later.sound (advances.sound stateSound))
        (.single (.dependency found named isTarget)) dependencyPlaces
    · intro name _ before item later places
      have beforeSound := later.sound (advances.sound stateSound)
      refine (Reaches.ofDefinition _).bind fun after target resolved _ => ?_
      refine (steps target after (resolved.sound beforeSound)).bind fun last step final _ => .pure ?_
      exact (places.mono (resolved.grows.trans final.grows)).comesAfter (.ofStep step)
  have states := fun (state : Construction) (stateSound : state.IsSound definition) placed
      (places : state.Places definition position placed) =>
    secures_stating steps stateSound found finishes places
  cases reusable : written.reusable with
  | some name =>
      refine (Reaches.ofDefinition _).bind fun state target advances resolved => ?_
      refine (items target state (advances.sound sound)).bind fun after item later places => ?_
      have isLibrary := eq_of_resolveReusable resolved.2
      exact states after (later.sound (advances.sound sound)) item
        (.of_reference found reusable (isLibrary ▸ places))
  | none =>
      have placed : Secures definition start ((definition.stepAt underway position).map Item.ofStep)
          fun state item => state.Places definition position item :=
        (steps position start sound).map fun _ _ _ isStep => .of_step isStep
      exact placed.bind fun state item advances places =>
        states state (advances.sound sound) item places

end Items

/-! ## All positions -/

theorem secures_stepAt_of_newStepAt (sound : start.IsSound definition) {position : Position}
    (fresh : ∀ written, definition.step? position = some written → position ∉ underway.steps →
      Secures definition start (definition.newStepAt
        { underway with steps := position :: underway.steps } position written) fun state step =>
          (state.enter position step).IsSound definition) :
    Secures definition start (definition.stepAt underway position) fun state step =>
      state.IsStepAt definition position step := by
  rw [stepAt]
  apply Building.secures_shared sound
  split
  · exact .throw _
  · rename_i free
    split
    · exact .throw _
    · rename_i written found
      exact fresh written found free

theorem secures_itemAt_of_newItemAt {position : Position}
    (fresh : ∀ written, definition.step? position = some written → position ∉ underway.items →
      Secures definition start (definition.newItemAt
        { underway with items := position :: underway.items } position written) fun state item =>
          state.Places definition position item) :
    Secures definition start (definition.itemAt underway position) fun state item =>
      state.Places definition position item := by
  rw [itemAt]
  split
  · exact .throw _
  · rename_i free
    split
    · exact .throw _
    · rename_i written found
      exact fresh written found free

theorem givesSteps_and_givesItems (underway : Underway) :
    definition.GivesSteps underway ∧ definition.GivesItems underway := by
  -- The induction is on how many positions are free to be taken up.
  induction free : definition.freeAll underway using Nat.strong_induction_on
    generalizing underway with
  | _ count induction =>
      subst free
      constructor
      · intro position start sound
        apply secures_stepAt_of_newStepAt sound
        intro written found isFree
        have fewer := definition.free_cons_lt found isFree
        have below := induction _ (by simp only [freeAll]; omega)
          { underway with steps := position :: underway.steps } rfl
        exact secures_newStepAt below.1 below.2 sound found
      · intro position start sound
        apply secures_itemAt_of_newItemAt
        intro written found isFree
        have fewer := definition.free_cons_lt found isFree
        have below := induction _ (by simp only [freeAll]; omega)
          { underway with items := position :: underway.items } rfl
        exact secures_newItemAt below.1 below.2 sound found

end WorkflowDefinition

end FlowPlan
