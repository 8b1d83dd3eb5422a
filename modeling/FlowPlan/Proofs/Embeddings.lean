import FlowPlan.Proofs.Requirements

/-! # Definitions within definitions

A definition may hold a part of another one, perhaps under other scopes. If the
same is written in that part and names mean the same in it, a task of the part
requires the same tasks in both definitions. Only references to other jobs leave
the part, so nothing is said of steps that use artifacts.
-/

namespace FlowPlan

namespace Position

variable (image : Scope → Scope)

/-- The position as it is under the image of its scope. -/
def moved (position : Position) : Position := { position with scope := image position.scope }

theorem moved_child (position : Position) (index : Nat) :
    (position.child index).moved image = (position.moved image).child index := rfl

end Position

def Task.position : Task → Position
  | .item position => position
  | .step position => position

theorem Task.position_dependency (target : Position) : (dependency target).position = target := by
  rw [dependency]
  split <;> rfl

def Task.moved (image : Scope → Scope) : Task → Task
  | .item position => .item (position.moved image)
  | .step position => .step (position.moved image)

namespace WorkflowDefinition

/-- What is written in the scopes is written under their images too and means the same there. -/
structure Embeds (definition other : WorkflowDefinition) (among : Scope → Prop)
    (image : Scope → Scope) : Prop where
  written : ∀ position : Position, among position.scope →
    other.step? (position.moved image) = definition.step? position
  names : ∀ scope, among scope → ∀ name, other.names.find? (image scope) name =
    (definition.names.find? scope name).map (Position.moved image)
  within : ∀ scope, among scope → ∀ name target,
    definition.names.find? scope name = some target → among target.scope
  library : ∀ name, among (.library name) ∧ image (.library name) = .library name
  apart : ∀ scope, among scope → ∀ another, among another → image scope = image another →
    scope = another

namespace Embeds

variable {definition other : WorkflowDefinition} {among : Scope → Prop} {image : Scope → Scope}
  (embeds : definition.Embeds other among image)

include embeds

theorem moved_library (name : String) :
    (Position.library name).moved image = .library name := by
  rw [Position.moved, Position.library, (embeds.library name).2]

theorem moved_inj {position another : Position} (isAmong : among position.scope)
    (isAlsoAmong : among another.scope) :
    position.moved image = another.moved image ↔ position = another := by
  constructor
  · intro same
    rcases position with ⟨scope, path⟩
    rcases another with ⟨other, otherPath⟩
    rcases Position.mk.inj same with ⟨sameImage, rfl⟩
    rw [embeds.apart scope isAmong other isAlsoAmong sameImage]
  · exact congrArg _

theorem isLibraryRoot_moved {position : Position} (isAmong : among position.scope) :
    (position.moved image).isLibraryRoot = position.isLibraryRoot := by
  rcases position with ⟨scope, path⟩
  cases scope with
  | library name => rw [Position.moved, (embeds.library name).2]
  | job index =>
      cases isImage : image (.job index) with
      | job another => rw [Position.moved, isImage]; rfl
      | library name =>
          have same := isImage.trans (embeds.library name).2.symm
          cases embeds.apart _ isAmong _ (embeds.library name).1 same

theorem ownsCondition_moved {position : Position} (isAmong : among position.scope)
    (written : StepDefinition) :
    written.ownsCondition (position.moved image) = written.ownsCondition position := by
  rw [StepDefinition.ownsCondition, StepDefinition.ownsCondition, embeds.isLibraryRoot_moved isAmong]

theorem ownText?_moved {position : Position} (isAmong : among position.scope)
    (written : StepDefinition) :
    written.ownText? (position.moved image) = written.ownText? position := by
  rw [StepDefinition.ownText?, StepDefinition.ownText?, embeds.ownsCondition_moved isAmong]

theorem placeText?_moved {position : Position} (isAmong : among position.scope)
    (written : StepDefinition) :
    written.placeText? (position.moved image) = written.placeText? position := by
  rw [StepDefinition.placeText?, StepDefinition.placeText?, embeds.ownsCondition_moved isAmong]

theorem exists_of_find? {scope : Scope} (isAmong : among scope) {name : String} {target : Position}
    (found : other.names.find? (image scope) name = some target) :
    ∃ origin, definition.names.find? scope name = some origin ∧ among origin.scope ∧
      origin.moved image = target := by
  rw [embeds.names scope isAmong] at found
  rcases Option.map_eq_some_iff.mp found with ⟨origin, isOrigin, isImage⟩
  exact ⟨origin, isOrigin, embeds.within scope isAmong name origin isOrigin, isImage⟩

theorem moved_of_resolveName {scope : Scope} (isAmong : among scope) {name : String}
    {target otherTarget : Position} (resolved : definition.resolveName scope name = .ok target)
    (otherResolved : other.resolveName (image scope) name = .ok otherTarget) :
    among target.scope ∧ otherTarget = target.moved image := by
  have isTarget := find?_of_resolveName resolved
  have isOtherTarget := find?_of_resolveName otherResolved
  rw [embeds.names scope isAmong, isTarget] at isOtherTarget
  exact ⟨embeds.within scope isAmong name target isTarget, (Option.some.inj isOtherTarget).symm⟩

theorem exists_of_asks {scope : Scope} (isAmong : among scope) (current : Option Position)
    {text : String} {target : Position}
    (asks : other.Asks (image scope) (current.map (Position.moved image)) text target) :
    ∃ origin, definition.Asks scope current text origin ∧ among origin.scope ∧
      origin.moved image = target := by
  rcases asks with ⟨id, mem, found, apart⟩
  rcases embeds.exists_of_find? isAmong found with ⟨origin, isOrigin, originAmong, rfl⟩
  refine ⟨origin, ⟨id, mem, isOrigin, ?_⟩, originAmong, rfl⟩
  intro same
  rw [same] at apart
  exact apart rfl

theorem moved_dependency {target : Position} (isAmong : among target.scope) :
    Task.dependency (target.moved image) = (Task.dependency target).moved image := by
  rw [Task.dependency, Task.dependency, embeds.isLibraryRoot_moved isAmong]
  split <;> rfl

/-! ## Tasks -/

/-- A task of the part requires what it requires in the whole. -/
theorem exists_of_requires {task : Task} (isAmong : among task.position.scope)
    (alone : ∀ written, definition.step? task.position = some written →
      written.consumes.names = []) {below : Task}
    (requires : other.Requires (task.moved image) below) :
    ∃ origin, definition.Requires task origin ∧ among origin.position.scope ∧
      origin.moved image = below := by
  have isLibrary := embeds.library
  cases task with
  | item position =>
      have inScope : among position.scope := isAmong
      have inside := embeds.written position inScope
      cases requires with
      | @placed _ _ name found reusable =>
          refine ⟨.item (.library name), .placed (inside ▸ found) reusable, (isLibrary name).1, ?_⟩
          exact congrArg Task.item (embeds.moved_library name)
      | own found isRoot => exact ⟨.step position, .own (inside ▸ found) isRoot, isAmong, rfl⟩
      | stated found isText asks =>
          rw [embeds.placeText?_moved inScope] at isText
          rcases embeds.exists_of_asks inScope (some position) asks with
            ⟨origin, isAsked, originAmong, rfl⟩
          exact ⟨.step origin, .stated (inside ▸ found) isText isAsked, originAmong, rfl⟩
      | dependency found named isTarget =>
          rcases embeds.exists_of_find? isAmong isTarget with ⟨origin, isOrigin, originAmong, rfl⟩
          refine ⟨.dependency origin, .dependency (inside ▸ found) named isOrigin, ?_, ?_⟩
          · rw [Task.position_dependency]
            exact originAmong
          · exact (embeds.moved_dependency originAmong).symm
      | after found named isTarget =>
          rcases embeds.exists_of_find? isAmong isTarget with ⟨origin, isOrigin, originAmong, rfl⟩
          exact ⟨.step origin, .after (inside ▸ found) named isOrigin, originAmong, rfl⟩
  | step position =>
      have inScope : among position.scope := isAmong
      have inside := embeds.written position inScope
      cases requires with
      | @shared _ _ name found reusable =>
          refine ⟨.step (.library name), .shared (inside ▸ found) reusable, (isLibrary name).1, ?_⟩
          exact congrArg Task.step (embeds.moved_library name)
      | @child _ _ _ index found isRoot isGroup isChild =>
          exact ⟨.item (position.child index), .child (inside ▸ found) isRoot isGroup isChild, isAmong,
            rfl⟩
      | ownStated found isRoot isAction isText asks =>
          rw [embeds.ownText?_moved inScope] at isText
          rcases embeds.exists_of_asks inScope (some position) asks with
            ⟨origin, isAsked, originAmong, rfl⟩
          exact ⟨.step origin, .ownStated (inside ▸ found) isRoot isAction isText isAsked, originAmong,
            rfl⟩
      | consumed found _ _ refers =>
          rw [alone _ (inside ▸ found)] at refers
          cases refers

theorem accepts_moved {task : Task} (isAmong : among task.position.scope)
    (alone : ∀ written, definition.step? task.position = some written →
      written.consumes.names = []) (accepted : definition.Accepts task) :
    other.Accepts (task.moved image) := by
  have found : ∀ {scope : Scope} {name : String}, among scope →
      (∃ target, definition.names.find? scope name = some target) →
        ∃ target, other.names.find? (image scope) name = some target := by
    rintro scope name isAmong ⟨target, isTarget⟩
    exact ⟨target.moved image, by rw [embeds.names scope isAmong, isTarget]; rfl⟩
  cases task with
  | item position =>
      rcases accepted with ⟨written, isWritten, accepted⟩
      refine ⟨written, (embeds.written position isAmong).trans isWritten, ?_⟩
      constructor
      case text => exact embeds.placeText?_moved isAmong written ▸ accepted.text
      case dependsOn => exact fun name named => found isAmong (accepted.dependsOn name named)
      case after => exact fun name named => found isAmong (accepted.after name named)
  | step position =>
      rcases accepted with ⟨written, isWritten, accepted⟩
      refine ⟨written, (embeds.written position isAmong).trans isWritten, accepted.outputs, ?_, ?_⟩
      · exact embeds.ownText?_moved isAmong written ▸ accepted.text
      · intro _ _ reference refers
        rw [alone written isWritten] at refers
        cases refers

/-- What is grounded in the whole is grounded in the part, if it uses no artifacts. -/
theorem grounded_moved {task : Task} (grounded : definition.Grounded task)
    (isAmong : among task.position.scope)
    (alone : ∀ below, Relation.ReflTransGen definition.Requires task below → ∀ written,
      definition.step? below.position = some written → written.consumes.names = []) :
    other.Grounded (task.moved image) := by
  induction grounded with
  | intro accepted _ induction =>
      constructor
      case accepted => exact embeds.accepts_moved isAmong (alone _ .refl) accepted
      case below =>
        intro below requires
        rcases embeds.exists_of_requires isAmong (alone _ .refl) requires with
          ⟨origin, isRequired, originAmong, rfl⟩
        exact induction origin isRequired originAmong fun next reached => alone next (.head isRequired reached)

end Embeds

end WorkflowDefinition

end FlowPlan
