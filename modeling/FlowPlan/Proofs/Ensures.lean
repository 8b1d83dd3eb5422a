import FlowPlan.Proofs.Growth

/-! # What building ensures

Work on a construction keeps an invariant of the construction, also where it
fails, and what it returns has a property. That is progress of a kind, so the
rules are those for progress without a mention of the states in between.
-/

namespace FlowPlan

namespace Building

variable {α β : Type}

/-- The work goes from states with the invariant to such states and returns nothing without the
property. -/
def Ensures (invariant : Construction → Prop) (work : Building α) (property : α → Prop) : Prop :=
  ∀ state, invariant state → invariant (work.run.run state).2 ∧
    ∀ value, (work.run.run state).1 = .ok value → property value

/-- What has the invariant before has it afterwards. -/
def Keeps (invariant : Construction → Prop) (before after : Construction) : Prop :=
  invariant before → invariant after

variable {invariant : Construction → Prop}

instance : Std.Refl (Keeps invariant) := ⟨fun _ => id⟩

instance : IsTrans Construction (Keeps invariant) := ⟨fun _ _ _ former latter => latter ∘ former⟩

namespace Ensures

theorem reaches {work : Building α} {property : α → Prop}
    (ensures : Ensures invariant work property) {state : Construction} (start : invariant state) :
    Reaches (Keeps invariant) state work fun _ => property :=
  ⟨fun _ => (ensures state start).1, (ensures state start).2⟩

theorem of_reaches {work : Building α} {property : α → Prop}
    (reaches : ∀ state, invariant state → Reaches (Keeps invariant) state work fun _ => property) :
    Ensures invariant work property :=
  fun state start => ⟨(reaches state start).1 start, (reaches state start).2⟩

theorem pure {property : α → Prop} {value : α} (holds : property value) :
    Ensures invariant (pure value) property :=
  fun _ start => ⟨start, fun _ returned => Except.ok.inj returned ▸ holds⟩

theorem throw {property : α → Prop} (error : BuildError) :
    Ensures invariant (throw error) property :=
  fun _ start => ⟨start, fun _ returned => nomatch returned⟩

theorem mono {work : Building α} {property weaker : α → Prop}
    (ensures : Ensures invariant work property)
    (included : ∀ value, property value → weaker value) : Ensures invariant work weaker := by
  intro state start
  rcases ensures state start with ⟨kept, returns⟩
  exact ⟨kept, fun value returned => included value (returns value returned)⟩

theorem bind {work : Building α} {next : α → Building β} {property : α → Prop}
    {result : β → Prop} (first : Ensures invariant work property)
    (second : ∀ value, property value → Ensures invariant (next value) result) :
    Ensures invariant (work >>= next) result :=
  of_reaches fun _ start => (first.reaches start).bind fun _ value kept holds =>
    (second value holds).reaches (kept start)

theorem map {work : Building α} {f : α → β} {property : α → Prop} {result : β → Prop}
    (ensures : Ensures invariant work property)
    (image : ∀ value, property value → result (f value)) :
    Ensures invariant (f <$> work) result := by
  rw [← bind_pure_comp]
  exact ensures.bind fun value holds => pure (image value holds)

theorem mapM {work : α → Building β} {members : List α} {relation : α → β → Prop}
    (each : ∀ member ∈ members, Ensures invariant (work member) (relation member)) :
    Ensures invariant (members.mapM work) fun results => List.Forall₂ relation members results :=
  of_reaches fun _ start => Reaches.mapM (fun _ _ _ _ _ related => related)
    fun member mem _ kept => (each member mem).reaches (kept start)

theorem mapM_all {work : α → Building β} {members : List α} {property : β → Prop}
    (each : ∀ member ∈ members, Ensures invariant (work member) property) :
    Ensures invariant (members.mapM work) fun results => ∀ result ∈ results, property result := by
  refine (mapM each).mono fun results related => ?_
  induction related with
  | nil => exact List.forall_mem_nil _
  | cons holds _ induction =>
      exact List.forall_mem_cons.mpr
        ⟨holds, induction fun member mem => each member (List.mem_cons_of_mem _ mem)⟩

theorem foldlM_seen {step : β → α → Building β} {members : List α} {property : List α → β → Prop}
    {seen : List α} {initial : β} (start : property seen initial)
    (each : ∀ seen sum, property seen sum → ∀ member ∈ members,
      Ensures invariant (step sum member) (property (seen ++ [member]))) :
    Ensures invariant (members.foldlM step initial) (property (seen ++ members)) := by
  induction members generalizing seen initial with
  | nil =>
      rw [List.foldlM_nil, List.append_nil]
      exact pure start
  | cons head tail induction =>
      rw [List.foldlM_cons]
      refine (each seen initial start head List.mem_cons_self).bind fun sum holds => ?_
      have rest := induction holds fun seen sum known member mem =>
        each seen sum known member (List.mem_cons_of_mem head mem)
      rwa [List.append_assoc, List.singleton_append] at rest

/-- The property speaks of the members that have been gone through and of what came out. -/
theorem foldlM {step : β → α → Building β} {members : List α} (property : List α → β → Prop)
    {initial : β} (start : property [] initial)
    (each : ∀ seen sum, property seen sum → ∀ member ∈ members,
      Ensures invariant (step sum member) (property (seen ++ [member]))) :
    Ensures invariant (members.foldlM step initial) (property members) :=
  foldlM_seen start each

/-! ## The steps of building -/

theorem ofDefinition (result : Except DefinitionError α) :
    Ensures invariant (ofDefinition result) fun value => result = .ok value :=
  of_reaches fun _ _ => (Reaches.ofDefinition result).mono fun _ _ _ found => found.2

theorem ofExpression (result : Except ExpressionError α) :
    Ensures invariant (ofExpression result) fun value => result = .ok value :=
  of_reaches fun _ _ => (Reaches.ofExpression result).mono fun _ _ _ found => found.2

theorem get : Ensures invariant (get : Building Construction) invariant :=
  fun _ start => ⟨start, fun _ returned => Except.ok.inj returned ▸ start⟩

theorem modify {change : Construction → Construction}
    (keeps : ∀ state, invariant state → invariant (change state)) :
    Ensures invariant (modify change : Building Unit) fun _ => True :=
  fun state start => ⟨keeps state start, fun _ _ => trivial⟩

end Ensures

end Building

end FlowPlan
