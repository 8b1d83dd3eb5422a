import FlowPlan.Definition.Build
import Mathlib.Data.List.Forall2

/-! # How far building gets

Where the state of a construction only ever progresses, what has been returned
keeps the properties that progress keeps. So what work returns is described
together with the state that it leaves, and the rules hand both on from one step
of the work to the next.
-/

namespace FlowPlan

namespace Building

variable {α β : Type}

theorem run_bind (work : Building α) (next : α → Building β) (state : Construction) :
    (work >>= next).run.run state =
      match work.run.run state with
      | (.ok value, after) => (next value).run.run after
      | (.error error, after) => (.error error, after) := by
  rw [ExceptT.run_bind, StateT.run_bind]
  rcases work.run.run state with ⟨error | value, after⟩ <;> rfl

/-- From the start on the work makes progress, also where it fails, and where it ends what it
returns has the property. -/
def Reaches (progress : Construction → Construction → Prop) (start : Construction)
    (work : Building α) (property : Construction → α → Prop) : Prop :=
  progress start (work.run.run start).2 ∧
    ∀ value, (work.run.run start).1 = .ok value → property (work.run.run start).2 value

namespace Reaches

variable {progress : Construction → Construction → Prop} {start : Construction}

theorem mono {work : Building α} {property weaker : Construction → α → Prop}
    (reaches : Reaches progress start work property)
    (included : ∀ state value, progress start state → property state value → weaker state value) :
    Reaches progress start work weaker :=
  ⟨reaches.1, fun value returned => included _ value reaches.1 (reaches.2 value returned)⟩

/-- Progress of one kind is progress of every wider kind. -/
theorem widen {wider : Construction → Construction → Prop} {work : Building α}
    {property : Construction → α → Prop} (reaches : Reaches progress start work property)
    (included : ∀ before after, progress before after → wider before after) :
    Reaches wider start work property :=
  ⟨included _ _ reaches.1, reaches.2⟩

section Refl

variable [Std.Refl progress]

theorem pure {property : Construction → α → Prop} {value : α} (holds : property start value) :
    Reaches progress start (pure value) property :=
  ⟨Std.Refl.refl start, fun _ returned => Except.ok.inj returned ▸ holds⟩

theorem throw {property : Construction → α → Prop} (error : BuildError) :
    Reaches progress start (throw error) property :=
  ⟨Std.Refl.refl start, fun _ returned => nomatch returned⟩

theorem ofDefinition (result : Except DefinitionError α) :
    Reaches progress start (ofDefinition result) fun state value =>
      state = start ∧ result = .ok value := by
  cases result with
  | ok value => exact pure ⟨rfl, rfl⟩
  | error error => exact throw _

theorem ofExpression (result : Except ExpressionError α) :
    Reaches progress start (ofExpression result) fun state value =>
      state = start ∧ result = .ok value := by
  refine (ofDefinition _).mono fun state value _ found => ⟨found.1, ?_⟩
  cases result with
  | ok _ => exact congrArg Except.ok (Except.ok.inj found.2)
  | error _ => cases found.2

theorem get : Reaches progress start (get : Building Construction) fun state value =>
    state = start ∧ value = start :=
  ⟨Std.Refl.refl start, fun _ returned => ⟨rfl, (Except.ok.inj returned).symm⟩⟩

end Refl

theorem modify {change : Construction → Construction} (advances : progress start (change start)) :
    Reaches progress start (modify change : Building Unit) fun state _ => state = change start :=
  ⟨advances, fun _ _ => rfl⟩

section Trans

variable [IsTrans Construction progress]

theorem bind {work : Building α} {next : α → Building β} {property : Construction → α → Prop}
    {result : Construction → β → Prop} (first : Reaches progress start work property)
    (second : ∀ middle value, progress start middle → property middle value →
      Reaches progress middle (next value) result) :
    Reaches progress start (work >>= next) result := by
  rcases first with ⟨advances, returns⟩
  rw [Reaches, run_bind]
  rcases outcome : work.run.run start with ⟨error | value, middle⟩
  · rw [outcome] at advances
    exact ⟨advances, fun _ returned => nomatch returned⟩
  · rw [outcome] at advances returns
    have rest := second middle value advances (returns value rfl)
    exact ⟨IsTrans.trans _ _ _ advances rest.1, rest.2⟩

end Trans

section Preorder

variable [Std.Refl progress] [IsTrans Construction progress]

theorem map {work : Building α} {f : α → β} {property : Construction → α → Prop}
    {result : Construction → β → Prop} (reaches : Reaches progress start work property)
    (image : ∀ state value, progress start state → property state value → result state (f value)) :
    Reaches progress start (f <$> work) result := by
  rw [← bind_pure_comp]
  exact reaches.bind fun state value advances holds => pure (image state value advances holds)

/-- What has been returned for the first members is not lost while the others are gone through. -/
theorem mapM {work : α → Building β} {relation : Construction → α → β → Prop}
    (keeps : ∀ before after member result, progress before after →
      relation before member result → relation after member result)
    {members : List α}
    (each : ∀ member ∈ members, ∀ state, progress start state →
      Reaches progress state (work member) fun state result => relation state member result) :
    Reaches progress start (members.mapM work) fun state results =>
      List.Forall₂ (relation state) members results := by
  induction members generalizing start with
  | nil =>
      rw [List.mapM_nil]
      exact pure .nil
  | cons head tail induction =>
      rw [List.mapM_cons]
      refine (each head List.mem_cons_self start (Std.Refl.refl start)).bind
        fun middle first advances related => ?_
      refine (induction fun member mem state later => each member (List.mem_cons_of_mem head mem)
        state (IsTrans.trans _ _ _ advances later)).bind fun state rest later allRelated => ?_
      exact pure (.cons (keeps _ _ _ _ later related) allRelated)

theorem foldlM {step : β → α → Building β} {members : List α} {property : Construction → β → Prop}
    {initial : β} (holds : property start initial)
    (each : ∀ member ∈ members, ∀ state sum, progress start state → property state sum →
      Reaches progress state (step sum member) property) :
    Reaches progress start (members.foldlM step initial) property := by
  induction members generalizing start initial with
  | nil =>
      rw [List.foldlM_nil]
      exact pure holds
  | cons head tail induction =>
      rw [List.foldlM_cons]
      refine (each head List.mem_cons_self start initial (Std.Refl.refl start) holds).bind
        fun middle sum advances middleHolds => ?_
      exact induction middleHolds fun member mem state sum later =>
        each member (List.mem_cons_of_mem head mem) state sum (IsTrans.trans _ _ _ advances later)

end Preorder

end Reaches

end Building

end FlowPlan
