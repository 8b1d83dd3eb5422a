import FlowPlan.Proofs.Growth

/-! # Failing work

Work may fail, whatever has been made before. The errors that it can fail with
are those of its parts, so they are found without a look at the states in
between.
-/

namespace FlowPlan

namespace Building

variable {α β : Type}

/-- Wherever the work fails, it does so with an allowed error. -/
def FailsOnly (allowed : BuildError → Prop) (work : Building α) : Prop :=
  ∀ state error, (work.run.run state).1 = .error error → allowed error

namespace FailsOnly

variable {allowed : BuildError → Prop}

theorem pure (value : α) : FailsOnly allowed (pure value) := fun _ _ failed => nomatch failed

theorem throw {error : BuildError} (isAllowed : allowed error) :
    FailsOnly allowed (throw error : Building α) :=
  fun _ _ failed => Except.error.inj failed ▸ isAllowed

theorem bind {work : Building α} {next : α → Building β} (first : FailsOnly allowed work)
    (second : ∀ value, FailsOnly allowed (next value)) : FailsOnly allowed (work >>= next) := by
  intro state error failed
  rw [run_bind] at failed
  rcases outcome : work.run.run state with ⟨early | value, middle⟩
  · rw [outcome] at failed
    cases failed
    exact first state error (congrArg Prod.fst outcome)
  · rw [outcome] at failed
    exact second value middle error failed

theorem map {work : Building α} (fails : FailsOnly allowed work) (f : α → β) :
    FailsOnly allowed (f <$> work) := by
  rw [← bind_pure_comp]
  exact fails.bind fun value => pure (f value)

theorem mapM {work : α → Building β} {members : List α}
    (each : ∀ member ∈ members, FailsOnly allowed (work member)) :
    FailsOnly allowed (members.mapM work) := by
  induction members with
  | nil => exact pure []
  | cons head tail induction =>
      rw [List.mapM_cons]
      apply (each head List.mem_cons_self).bind
      intro first
      apply (induction fun member mem => each member (List.mem_cons_of_mem head mem)).bind
      exact fun rest => pure (first :: rest)

theorem foldlM {step : β → α → Building β} {members : List α}
    (each : ∀ member ∈ members, ∀ sum, FailsOnly allowed (step sum member)) (initial : β) :
    FailsOnly allowed (members.foldlM step initial) := by
  induction members generalizing initial with
  | nil => exact pure initial
  | cons head tail induction =>
      rw [List.foldlM_cons]
      apply (each head List.mem_cons_self initial).bind
      exact induction fun member mem => each member (List.mem_cons_of_mem head mem)

/-- What comes next may rely on what has been looked up. -/
theorem ofDefinition_bind {result : Except DefinitionError α} {next : α → Building β}
    (each : ∀ error, result = .error error → allowed (.definition error))
    (second : ∀ value, result = .ok value → FailsOnly allowed (next value)) :
    FailsOnly allowed (Building.ofDefinition result >>= next) := by
  cases result with
  | ok value =>
      change FailsOnly allowed (Pure.pure value >>= next)
      rw [pure_bind]
      exact second value rfl
  | error error => exact fun _ _ failed => Except.error.inj failed ▸ each error rfl

theorem ofExpression {result : Except ExpressionError α}
    (each : ∀ error, result = .error error → allowed (.definition (.expression error))) :
    FailsOnly allowed (ofExpression result) := by
  cases result with
  | ok value => exact pure value
  | error error => exact throw (each error rfl)

theorem warn (warning : Warning) : FailsOnly allowed (warn warning) := fun _ _ failed => nomatch failed

theorem get_bind {next : Construction → Building α}
    (each : ∀ state error, ((next state).run.run state).1 = .error error → allowed error) :
    FailsOnly allowed (get >>= next) := by
  intro state error failed
  rw [run_bind] at failed
  exact each state error failed

theorem newStep {make : Nat → Except PlanError Step}
    (each : ∀ key error, make key = .error error → allowed (.plan error)) :
    FailsOnly allowed (newStep make) := by
  apply get_bind
  intro state error failed
  cases made : make state.nextKey with
  | ok step => rw [made] at failed; cases failed
  | error planError =>
      rw [made] at failed
      exact Except.error.inj failed ▸ each state.nextKey planError made

theorem shared {position : Position} {make : Building Step} (makes : FailsOnly allowed make) :
    FailsOnly allowed (shared position make) := by
  have enters : ∀ step, FailsOnly allowed (do
      modify fun (state : Construction) => { state with built := (position, step) :: state.built }
      return step) := fun _ _ _ failed => nomatch failed
  apply get_bind
  intro state error failed
  cases looked : state.built.lookup position with
  | some step => rw [looked] at failed; cases failed
  | none =>
      rw [looked] at failed
      exact makes.bind enters state error failed

end FailsOnly

end Building

end FlowPlan
