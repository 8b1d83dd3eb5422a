import FlowPlan.Proofs.CoveredTexts
import FlowPlan.Proofs.TwoScopes

/-! # Covered conditions

Where the sources of every leaf cover what the leaf shows, the sources of the
whole condition cover its text. Conditions that are read from a text are of that
kind, and whatever is put together from them.
-/

namespace FlowPlan

open Text (ClosesQuotes IsSeparator)

namespace Condition

variable {σ : Type} [Keyed σ]

/-- The texts of a leaf in which something may be read. -/
def shown : Condition σ → List Text
  | .comparison left _ _ _ => [left]
  | .call name arguments _ => name :: arguments
  | .raw text _ => [text]
  | _ => []

/-- Each leaf reads every job that its text names. -/
def IsCovered (condition : Condition σ) : Prop :=
  condition.Over fun leaf => ∀ text ∈ leaf.shown, Sources.Cover leaf.sources text

/-! ## The whole text -/

omit [Keyed σ] in
theorem cover_comparison {left : Text} {sources : List (Source σ)}
    (covers : Sources.Cover sources left) (comparator : Comparator) (right : Literal) :
    Sources.Cover sources (comparison left comparator right sources).render := by
  have separate : ∀ c ∈ ' ' :: comparator.token ++ [' '], IsSeparator c := by
    cases comparator <;> decide
  have whole := covers.append (List.cons_ne_nil _ _) separate (right.cover_render sources)
  rw [render]
  simpa using whole

omit [Keyed σ] in
theorem cover_call {name : Text} {arguments : List Text} {sources : List (Source σ)}
    (covers : ∀ text ∈ name :: arguments, Sources.Cover sources text) :
    Sources.Cover sources (call name arguments sources).render := by
  rcases List.forall_mem_cons.mp covers with ⟨nameCovers, argumentsCover⟩
  have opening : ∀ c ∈ ['('], IsSeparator c := by decide
  have closing : ∀ c ∈ [')'], IsSeparator c := by decide
  have between : ∀ c ∈ [',', ' '], IsSeparator c := by decide
  have listed := Sources.Cover.joinWith (List.cons_ne_nil _ _) between argumentsCover
  have whole := nameCovers.append (List.cons_ne_nil _ _) opening
    (listed.append_separators closing)
  rw [render]
  simpa using whole

/-- The text of a covered condition names no job that the condition does not read. -/
theorem IsCovered.cover_render {condition : Condition σ} (covered : condition.IsCovered) :
    Sources.Cover condition.sources condition.render := by
  induction condition with
  | comparison left comparator right sources =>
      have covers := over_comparison.mp covered left List.mem_cons_self
      exact cover_comparison covers comparator right
  | call name arguments sources => exact cover_call (over_call.mp covered)
  | raw text sources => exact over_raw.mp covered text List.mem_cons_self
  | negated inner induction =>
      have mark : ∀ c ∈ ['!'], IsSeparator c := by decide
      exact ((induction covered).parenthesized inner.wrapsUnderNegation).separators_append mark
  | joined connective left right leftInduction rightInduction =>
      rcases over_joined.mp covered with ⟨leftCovered, rightCovered⟩
      have separate : ∀ c ∈ ' ' :: connective.token ++ [' '], IsSeparator c := by
        cases connective <;> decide
      have leftCovers : Sources.Cover (joined connective left right).sources left.render :=
        (leftInduction leftCovered).mono fun _ => Sources.mem_union_of_mem_left
      have rightCovers : Sources.Cover (joined connective left right).sources right.render :=
        (rightInduction rightCovered).mono fun _ => Sources.job_mem_union_right left.sources
      have whole := (leftCovers.parenthesized (left.wrapsUnder connective)).append
        (List.cons_ne_nil _ _) separate (rightCovers.parenthesized (right.wrapsUnder connective))
      rw [render]
      simpa using whole

/-! ## Putting conditions together -/

omit [Keyed σ] in
theorem cover_booleanText (value : Bool) (sources : List (Source σ)) :
    Sources.Cover sources (booleanText value) :=
  .of_isWordChar (by cases value <;> decide)

theorem closed_isCovered : Closed (IsCovered : Condition σ → Prop) :=
  closed_over fun value sources => List.forall_mem_singleton.mpr (cover_booleanText value sources)

omit [Keyed σ] in
/-- A negation keeps the condition, or changes a comparator, or turns a constant round. -/
theorem negate_cases (condition : Condition σ) :
    condition = .negated condition.negate ∨ condition.negate = .negated condition ∨
      (∃ left comparator opposite right sources,
        condition = .comparison left comparator right sources ∧
          condition.negate = .comparison left opposite right sources) ∨
      ∃ text value sources, condition = .raw text sources ∧
        condition.negate = .raw (booleanText value) sources := by
  cases condition with
  | comparison left comparator right sources =>
      rw [negate]
      cases comparator.opposite? with
      | none => exact .inr (.inl rfl)
      | some opposite =>
          exact .inr (.inr (.inl ⟨left, comparator, opposite, right, sources, rfl, rfl⟩))
  | call | joined => exact .inr (.inl rfl)
  | negated inner => exact .inl rfl
  | raw text sources =>
      rw [negate]
      split
      · exact .inr (.inr (.inr ⟨text, false, sources, rfl, rfl⟩))
      · split
        · exact .inr (.inr (.inr ⟨text, true, sources, rfl, rfl⟩))
        · exact .inr (.inl rfl)

omit [Keyed σ] in
theorem over_negate {leaf : Condition σ → Prop}
    (comparisons : ∀ left comparator opposite right sources,
      leaf (.comparison left comparator right sources) →
        leaf (.comparison left opposite right sources))
    (constants : ∀ text value sources, leaf (.raw text sources) →
      leaf (.raw (booleanText value) sources))
    {condition : Condition σ} (isOver : condition.Over leaf) : condition.negate.Over leaf := by
  rcases negate_cases condition with same | turned | ⟨left, comparator, opposite, right, sources,
    before, after⟩ | ⟨text, value, sources, before, after⟩
  · rw [same] at isOver
    exact over_negated.mp isOver
  · rw [turned]
    exact over_negated.mpr isOver
  · rw [before] at isOver
    rw [after]
    exact over_comparison.mpr
      (comparisons left comparator opposite right sources (over_comparison.mp isOver))
  · rw [before] at isOver
    rw [after]
    exact over_raw.mpr (constants text value sources (over_raw.mp isOver))

theorem IsCovered.negate {condition : Condition σ} (covered : condition.IsCovered) :
    condition.negate.IsCovered :=
  over_negate (fun _ _ _ _ _ covers => covers)
    (fun _ value sources _ => List.forall_mem_singleton.mpr (cover_booleanText value sources))
    covered

theorem ReadsOnly.negate {property : Source σ → Prop} {condition : Condition σ}
    (only : condition.ReadsOnly property) : condition.negate.ReadsOnly property :=
  over_negate (fun _ _ _ _ _ reads => reads) (fun _ _ _ reads => reads) only

/-! ## Reading a text -/

section Reading

variable {scope : StepScope σ} {among : Condition σ → Prop} (closed : Closed among)
  (negates : ∀ condition, among condition → among condition.negate)

include closed negates

theorem compatible_among : Compatible fun condition (_ : Condition σ) => among condition where
  joinAll {connective conditions others condition} both found := by
    have members : ∀ member ∈ conditions, among member := by
      intro member mem
      rcases exists_of_mem_forall₂ both.flip mem with ⟨_, _, isAmong⟩
      exact isAmong
    have nonempty : others ≠ [] := by
      rintro rfl
      cases both
      cases connective <;> cases found
    rcases Option.isSome_iff_exists.mp (joinAll_isSome connective nonempty) with
      ⟨another, otherFound⟩
    refine ⟨another, otherFound, ?_⟩
    cases connective with
    | and => exact closed.allOf members found
    | or => exact closed.anyOf members found
  negate := negates _

/-- What holds of all leaves that are read from parts of a text holds of its condition. -/
theorem among_parse {text : Text} {condition : Condition σ}
    (leaves : ∀ part : Text, part.IsPartOf text → among (leaf scope part))
    (parsed : parse scope text = .ok condition) : among condition := by
  have outcome : (∃ error, parse scope text = .error error ∧ parse scope text = .error error) ∨
      ∃ found another, parse scope text = .ok found ∧ parse scope text = .ok another ∧
        among found :=
    related_parse (compatible_among closed negates) leaves
  rcases outcome with ⟨_, failed, _⟩ | ⟨found, _, read, _, isAmong⟩
  · cases parsed.symm.trans failed
  · cases parsed.symm.trans read
    exact isAmong

end Reading

/-! ## Leaves that are read -/

section Leaves

variable {scope : StepScope σ} {text : Text}

theorem isCovered_leaf (closes : ClosesQuotes text) : (leaf scope text).IsCovered := by
  rcases leaf_shape σ closes with ⟨left, comparator, right, isPart, shape⟩ |
    ⟨name, arguments, word, parts, shape⟩ | shape
  · rw [shape]
    exact over_comparison.mpr
      (List.forall_mem_singleton.mpr (Text.cover_sources scope isPart.closes))
  · rw [shape]
    refine over_call.mpr (List.forall_mem_cons.mpr ⟨.of_isWordChar word, ?_⟩)
    intro argument mem
    refine ⟨(parts argument mem).closes, fun name read => ?_⟩
    have among : ⟨.needs, name⟩ ∈ arguments.flatMap Text.references :=
      List.mem_flatMap.mpr ⟨argument, mem, read⟩
    exact Sources.job_mem_union_right [] (List.mem_filterMap.mpr ⟨_, among, rfl⟩)
  · rw [shape]
    exact over_raw.mpr (List.forall_mem_singleton.mpr (Text.cover_sources scope closes))

/-- A step that is read is one of the scope, and the text refers to it. -/
theorem exists_reference_of_mem_ofList {references : List Reference} {step : σ}
    (mem : .step step ∈ Sources.ofList (references.filterMap (Reference.source? scope))) :
    ∃ id, ⟨.steps, id⟩ ∈ references ∧ scope id = some step := by
  rcases Sources.mem_or_mem_of_mem_union mem with inNothing | inMembers
  · cases inNothing
  · rcases List.mem_filterMap.mp inMembers with ⟨⟨root, id⟩, referenceMem, found⟩
    cases root with
    | steps =>
        rcases Option.map_eq_some_iff.mp found with ⟨other, known, equal⟩
        cases equal
        exact ⟨id, referenceMem, known⟩
    | needs => cases found

theorem readsOnly_leaf {property : Source σ → Prop}
    (jobs : ∀ id, property (.job id))
    (steps : ∀ id step, ⟨.steps, id⟩ ∈ Text.references text → scope id = some step →
      property (.step step))
    (closes : ClosesQuotes text) : (leaf scope text).ReadsOnly property := by
  have listed : ∀ references : List Reference, references ⊆ Text.references text →
      ∀ source ∈ Sources.ofList (references.filterMap (Reference.source? scope)),
        property source := by
    intro references included source mem
    cases source with
    | job id => exact jobs id
    | step step =>
        rcases exists_reference_of_mem_ofList mem with ⟨id, referenceMem, known⟩
        exact steps id step (included referenceMem) known
  rcases leaf_shape σ closes with ⟨left, comparator, right, isPart, shape⟩ |
    ⟨name, arguments, _, parts, shape⟩ | shape
  · rw [shape]
    exact over_comparison.mpr (listed _ isPart.references)
  · rw [shape]
    refine over_call.mpr (listed _ fun reference mem => ?_)
    rcases List.mem_flatMap.mp mem with ⟨argument, argumentMem, inside⟩
    exact (parts argument argumentMem).references inside
  · rw [shape]
    exact over_raw.mpr (listed _ (List.Subset.refl _))

/-- Every job that the text of a parsed condition names is one of its sources. -/
theorem isCovered_of_parse {condition : Condition σ} (parsed : parse scope text = .ok condition) :
    condition.IsCovered :=
  among_parse closed_isCovered (fun _ => IsCovered.negate)
    (fun _ isPart => isCovered_leaf isPart.closes) parsed

/-- A parsed condition reads what the scope has for the references of the text. -/
theorem readsOnly_of_parse {property : Source σ → Prop} (jobs : ∀ id, property (.job id))
    (steps : ∀ id step, ⟨.steps, id⟩ ∈ Text.references text → scope id = some step →
      property (.step step))
    {condition : Condition σ} (parsed : parse scope text = .ok condition) :
    condition.ReadsOnly property :=
  among_parse (closed_readsOnly property) (fun _ => ReadsOnly.negate)
    (fun _ isPart => readsOnly_leaf jobs (fun id step mem => steps id step (isPart.references mem))
      isPart.closes) parsed

end Leaves

end Condition

end FlowPlan
