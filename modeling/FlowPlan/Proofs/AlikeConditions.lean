import FlowPlan.Proofs.Alternatives
import FlowPlan.Proofs.BareConditions
import FlowPlan.Proofs.Needs
import FlowPlan.Proofs.SourceOrder

/-! # Conditions that read different steps alike

Two scopes may know different steps under the same ids. What is read from one
text in both of them has the same structure, and what one leaf reads in the one
corresponds to what it reads in the other. The keys of the steps may be ordered
differently, and so may be the sources; nothing else depends on the keys.
-/

namespace FlowPlan

/-! ## Related options -/

section Options

variable {α β : Type} {related : α → β → Prop} {option : Option α} {other : Option β}

theorem rel_flip (both : Option.Rel related option other) :
    Option.Rel (flip related) other option := by
  cases both with
  | none => exact .none
  | some holds => exact .some holds

theorem exists_of_rel_some {value : α} (both : Option.Rel related (some value) other) :
    ∃ another, other = some another ∧ related value another := by
  cases both with
  | some holds => exact ⟨_, rfl, holds⟩

theorem eq_none_of_rel_none (both : Option.Rel related none other) : other = none := by
  cases both
  rfl

theorem rel_toList (both : Option.Rel related option other) :
    List.Forall₂ related option.toList other.toList := by
  cases both with
  | none => exact .nil
  | some holds => exact .cons holds .nil

theorem rel_filter {kept : α → Bool} {otherKept : β → Bool}
    (same : ∀ {value another}, related value another → kept value = otherKept another)
    (both : Option.Rel related option other) :
    Option.Rel (fun value another => related value another ∧ kept value = true)
      (option.filter kept) (other.filter otherKept) := by
  cases both with
  | none => exact .none
  | some holds =>
      rw [Option.filter_some, Option.filter_some, ← same holds]
      split
      · rename_i isKept
        exact .some ⟨holds, isKept⟩
      · exact .none

theorem rel_bind {γ δ : Type} {result : γ → δ → Prop} {f : α → Option γ} {g : β → Option δ}
    (both : Option.Rel related option other)
    (holds : ∀ {value another}, related value another → Option.Rel result (f value) (g another)) :
    Option.Rel result (option.bind f) (other.bind g) := by
  cases both with
  | none => exact .none
  | some found => exact holds found

theorem rel_mapM {γ δ : Type} {result : γ → δ → Prop} {f : α → Option γ} {g : β → Option δ}
    (holds : ∀ {member another}, related member another → Option.Rel result (f member) (g another))
    {members : List α} {others : List β} (both : List.Forall₂ related members others) :
    Option.Rel (List.Forall₂ result) (members.mapM f) (others.mapM g) := by
  induction both with
  | nil => exact .some .nil
  | cons head _ induction =>
      rw [List.mapM_cons, List.mapM_cons]
      apply rel_bind (holds head)
      intro value another first
      apply rel_bind induction
      exact fun rest => .some (.cons first rest)

end Options

/-! ## Pairs -/

/-- Each value on one side belongs to at most one on the other, and is known by its key. -/
structure Keyed.Pairing {σ : Type} [Keyed σ] (paired : σ → σ → Prop) : Prop where
  left : ∀ {first second other another : σ}, paired first other → paired second another →
    key first = key second → first = second ∧ other = another
  right : ∀ {first second other another : σ}, paired first other → paired second another →
    key other = key another → first = second ∧ other = another

namespace Keyed.Pairing

variable {σ : Type} [Keyed σ] {paired : σ → σ → Prop} (pairing : Pairing paired)

include pairing

theorem symm : Pairing (flip paired) where
  left former latter equal := (pairing.right former latter equal).symm
  right former latter equal := (pairing.left former latter equal).symm

theorem key_eq_iff {first second other another : σ} (former : paired first other)
    (latter : paired second another) : key first = key second ↔ key other = key another :=
  ⟨fun equal => congrArg key (pairing.left former latter equal).2,
    fun equal => congrArg key (pairing.right former latter equal).1⟩

end Keyed.Pairing

/-! ## Sources -/

namespace Sources

variable {σ : Type} [Keyed σ] {paired : σ → σ → Prop}

omit [Keyed σ] in
/-- Every step on one side has its counterpart on the other. -/
structure Match (paired : σ → σ → Prop) (left right : List (Source σ)) : Prop where
  forth : ∀ step, .step step ∈ left → ∃ other, .step other ∈ right ∧ paired step other
  back : ∀ other, .step other ∈ right → ∃ step, .step step ∈ left ∧ paired step other

structure Alike (paired : σ → σ → Prop) (left right : Sources σ) : Prop
    extends Match paired left right where
  leftSorted : IsSorted left
  rightSorted : IsSorted right

namespace Match

omit [Keyed σ] in
theorem symm {left right : List (Source σ)} (same : Match paired left right) :
    Match (flip paired) right left :=
  ⟨same.back, same.forth⟩

/-- Of the steps with one key the union keeps the one that is there. -/
theorem exists_mem_union (pairing : Keyed.Pairing paired) {left left' : Sources σ}
    {right right' : List (Source σ)} (same : Match paired left left')
    (sameRight : Match paired right right') {step : σ} (mem : .step step ∈ union left right) :
    ∃ other, .step other ∈ union left' right' ∧ paired step other := by
  rcases mem_or_mem_of_mem_union mem with inLeft | inRight
  · rcases same.forth step inLeft with ⟨other, otherMem, isPair⟩
    exact ⟨other, mem_union_of_mem_left otherMem, isPair⟩
  · rcases sameRight.forth step inRight with ⟨other, otherMem, isPair⟩
    rcases exists_key_mem_union_of_mem_right left' otherMem with ⟨kept, keptMem, sameKey⟩
    have isKept : ∃ origin, paired origin kept := by
      rcases mem_or_mem_of_mem_union keptMem with keptLeft | keptRight
      · exact (same.back kept keptLeft).imp fun _ => And.right
      · exact (sameRight.back kept keptRight).imp fun _ => And.right
    rcases isKept with ⟨origin, isOrigin⟩
    have isOther := (pairing.right isOrigin isPair sameKey).2
    exact ⟨kept, keptMem, isOther ▸ isPair⟩

theorem union (pairing : Keyed.Pairing paired) {left left' : Sources σ}
    {right right' : List (Source σ)} (same : Match paired left left')
    (sameRight : Match paired right right') :
    Match paired (union left right) (union left' right') where
  forth _ mem := same.exists_mem_union pairing sameRight mem
  back _ mem := same.symm.exists_mem_union pairing.symm sameRight.symm mem

end Match

namespace Alike

theorem nil : Alike paired [] [] where
  forth _ mem := nomatch mem
  back _ mem := nomatch mem
  leftSorted := List.Pairwise.nil
  rightSorted := List.Pairwise.nil

theorem of_stepless {left right : Sources σ} (stepless : ∀ source ∈ left, source.step? = none)
    (leftSorted : IsSorted left) (otherStepless : ∀ source ∈ right, source.step? = none)
    (rightSorted : IsSorted right) : Alike paired left right where
  forth step mem := absurd (stepless (.step step) mem) (Option.some_ne_none step)
  back other mem := absurd (otherStepless (.step other) mem) (Option.some_ne_none other)
  leftSorted := leftSorted
  rightSorted := rightSorted

theorem union (pairing : Keyed.Pairing paired) {left left' : Sources σ}
    {right right' : List (Source σ)} (alike : Alike paired left left')
    (same : Match paired right right') : Alike paired (union left right) (union left' right') where
  toMatch := alike.toMatch.union pairing same
  leftSorted := isSorted_union alike.leftSorted right
  rightSorted := isSorted_union alike.rightSorted right'

theorem steps_isEmpty {left right : Sources σ} (alike : Alike paired left right) :
    left.steps.isEmpty = right.steps.isEmpty := by
  rw [Bool.eq_iff_iff, List.isEmpty_iff, List.isEmpty_iff, List.eq_nil_iff_forall_not_mem,
    List.eq_nil_iff_forall_not_mem]
  constructor
  · intro none other mem
    rcases alike.back other (mem_steps.mp mem) with ⟨step, stepMem, _⟩
    exact none step (mem_steps.mpr stepMem)
  · intro none step mem
    rcases alike.forth step (mem_steps.mp mem) with ⟨other, otherMem, _⟩
    exact none other (mem_steps.mpr otherMem)

end Alike

end Sources

/-- The scopes know the same ids, for steps that belong together. -/
def StepScope.Alike {σ : Type} (paired : σ → σ → Prop) (scope other : StepScope σ) : Prop :=
  ∀ id, Option.Rel paired (scope id) (other id)

theorem Reference.source?_eq_step {σ : Type} {scope : StepScope σ} {reference : Reference} {step : σ} :
    reference.source? scope = some (.step step) ↔
      reference.root = .steps ∧ scope reference.name = some step := by
  rw [source?]
  cases reference.root <;> simp

/-! ## Conditions -/

namespace Condition

variable {σ : Type} [Keyed σ]

/-- The same structure and texts over leaves that read what belongs together. -/
inductive Alike (paired : σ → σ → Prop) : Condition σ → Condition σ → Prop
  | comparison (left : Text) (comparator : Comparator) (right : Literal)
      {sources others : List (Source σ)} (reads : Sources.Alike paired sources others) :
      Alike paired (.comparison left comparator right sources)
        (.comparison left comparator right others)
  | call (name : Text) (arguments : List Text) {sources others : List (Source σ)}
      (reads : Sources.Alike paired sources others) :
      Alike paired (.call name arguments sources) (.call name arguments others)
  | joined (connective : Connective) {left right left' right' : Condition σ}
      (leftAlike : Alike paired left left') (rightAlike : Alike paired right right') :
      Alike paired (.joined connective left right) (.joined connective left' right')
  | negated {inner other : Condition σ} (alike : Alike paired inner other) :
      Alike paired (.negated inner) (.negated other)
  | raw (text : Text) {sources others : List (Source σ)}
      (reads : Sources.Alike paired sources others) : Alike paired (.raw text sources) (.raw text others)

variable {paired : σ → σ → Prop}

namespace Alike

variable {condition other left right left' right' : Condition σ}

theorem symm (alike : Alike paired condition other) : Alike (flip paired) other condition := by
  have turned : ∀ {sources others : List (Source σ)}, Sources.Alike paired sources others →
      Sources.Alike (flip paired) others sources :=
    fun reads => ⟨reads.toMatch.symm, reads.rightSorted, reads.leftSorted⟩
  induction alike with
  | comparison _ _ _ reads => exact .comparison _ _ _ (turned reads)
  | call _ _ reads => exact .call _ _ (turned reads)
  | joined _ _ _ leftInduction rightInduction => exact .joined _ leftInduction rightInduction
  | negated _ induction => exact .negated induction
  | raw _ reads => exact .raw _ (turned reads)

theorem bare (alike : Alike paired condition other) : condition.bare = other.bare := by
  induction alike with
  | joined connective _ _ leftInduction rightInduction =>
      rw [Condition.bare, Condition.bare, leftInduction, rightInduction]
  | negated _ induction => rw [Condition.bare, Condition.bare, induction]
  | _ => rfl

theorem render (alike : Alike paired condition other) : condition.render = other.render := by
  rw [← render_bare, alike.bare, render_bare]

theorem isTrue (alike : Alike paired condition other) : condition.isTrue = other.isTrue := by
  rw [← isTrue_bare, alike.bare, isTrue_bare]

theorem isFalse (alike : Alike paired condition other) : condition.isFalse = other.isFalse := by
  rw [← isFalse_bare, alike.bare, isFalse_bare]

theorem sources (pairing : Keyed.Pairing paired) (alike : Alike paired condition other) :
    Sources.Alike paired condition.sources other.sources := by
  induction alike with
  | comparison _ _ _ reads => exact reads
  | call _ _ reads => exact reads
  | joined _ _ _ leftInduction rightInduction =>
      exact leftInduction.union pairing rightInduction.toMatch
  | negated _ induction => exact induction
  | raw _ reads => exact reads

theorem isPropagatable (pairing : Keyed.Pairing paired) (alike : Alike paired condition other) :
    condition.isPropagatable = other.isPropagatable :=
  (alike.sources pairing).steps_isEmpty

/-! ## Putting conditions together -/

theorem collapsed (pairing : Keyed.Pairing paired) (value : Bool)
    (leftAlike : Alike paired left left') (rightAlike : Alike paired right right') :
    Alike paired (collapsed value left right) (collapsed value left' right') :=
  .raw _ ((leftAlike.sources pairing).union pairing (rightAlike.sources pairing).toMatch)

theorem conj (pairing : Keyed.Pairing paired) (leftAlike : Alike paired left left')
    (rightAlike : Alike paired right right') :
    Alike paired (left.conj right) (left'.conj right') := by
  rw [Condition.conj, Condition.conj, leftAlike.isTrue, rightAlike.isTrue, leftAlike.isFalse,
    rightAlike.isFalse]
  split
  · exact rightAlike
  · split
    · exact leftAlike
    · split
      · exact leftAlike.collapsed pairing false rightAlike
      · exact .joined .and leftAlike rightAlike

theorem disj (pairing : Keyed.Pairing paired) (leftAlike : Alike paired left left')
    (rightAlike : Alike paired right right') :
    Alike paired (left.disj right) (left'.disj right') := by
  rw [Condition.disj, Condition.disj, leftAlike.isTrue, rightAlike.isTrue, leftAlike.isFalse,
    rightAlike.isFalse]
  split
  · exact leftAlike.collapsed pairing true rightAlike
  · split
    · exact rightAlike
    · split
      · exact leftAlike
      · exact .joined .or leftAlike rightAlike

theorem negate (alike : Alike paired condition other) : Alike paired condition.negate other.negate := by
  cases alike with
  | comparison left comparator right reads =>
      rw [Condition.negate, Condition.negate]
      cases comparator.opposite? with
      | none => exact .negated (.comparison _ _ _ reads)
      | some opposite => exact .comparison _ _ _ reads
  | call _ _ reads => exact .negated (.call _ _ reads)
  | joined _ leftAlike rightAlike => exact .negated (.joined _ leftAlike rightAlike)
  | negated alike => exact alike
  | raw text reads =>
      have isTrue := (Alike.raw text reads).isTrue
      have isFalse := (Alike.raw text reads).isFalse
      rw [Condition.negate, Condition.negate, isTrue, isFalse]
      split
      · exact .raw _ reads
      · split
        · exact .raw _ reads
        · exact .negated (.raw _ reads)

theorem operands (connective : Connective) (alike : Alike paired condition other) :
    List.Forall₂ (Alike paired) (condition.operands connective) (other.operands connective) := by
  induction alike with
  | joined found leftAlike rightAlike leftInduction rightInduction =>
      rw [Condition.operands, Condition.operands]
      split
      · exact List.rel_append leftInduction rightInduction
      · exact .cons (.joined found leftAlike rightAlike) .nil
  | comparison _ _ _ reads => exact .cons (.comparison _ _ _ reads) .nil
  | call _ _ reads => exact .cons (.call _ _ reads) .nil
  | negated alike => exact .cons (.negated alike) .nil
  | raw _ reads => exact .cons (.raw _ reads) .nil

end Alike

variable {conditions others : List (Condition σ)}

theorem alike_allOf (pairing : Keyed.Pairing paired)
    (alike : List.Forall₂ (Alike paired) conditions others) :
    Option.Rel (Alike paired) (allOf conditions) (allOf others) := by
  cases alike with
  | nil => exact .none
  | cons head tail =>
      exact .some (List.rel_foldl (fun _ _ sum _ _ next => sum.conj pairing next) head tail)

theorem alike_anyOf (pairing : Keyed.Pairing paired)
    (alike : List.Forall₂ (Alike paired) conditions others) :
    Option.Rel (Alike paired) (anyOf conditions) (anyOf others) := by
  cases alike with
  | nil => exact .none
  | cons head tail =>
      exact .some (List.rel_foldl (fun _ _ sum _ _ next => sum.disj pairing next) head tail)

theorem map_bare_eq (alike : List.Forall₂ (Alike paired) conditions others) :
    conditions.map bare = others.map bare := by
  induction alike with
  | nil => rfl
  | cons head _ induction => rw [List.map_cons, List.map_cons, head.bare, induction]

/-! ## Conditions that read no step -/

/-- Every leaf lists its sources in order. -/
def IsOrdered (condition : Condition σ) : Prop :=
  condition.Over fun leaf => Sources.IsSorted leaf.sources

theorem IsOrdered.sources {condition : Condition σ} (ordered : condition.IsOrdered) :
    Sources.IsSorted condition.sources := by
  induction condition with
  | comparison | call | raw => exact ordered _ List.mem_cons_self
  | negated inner induction => exact induction (over_negated.mp ordered)
  | joined connective left right leftInduction rightInduction =>
      exact Sources.isSorted_union (leftInduction (over_joined.mp ordered).1) _

theorem closed_isOrdered : Closed (IsOrdered : Condition σ → Prop) where
  splits := splits_over _
  joined _ _ _ leftOrdered rightOrdered := over_joined.mpr ⟨leftOrdered, rightOrdered⟩
  collapsed _ _ _ leftOrdered _ := over_raw.mpr (Sources.isSorted_union leftOrdered.sources _)
  constant _ := over_raw.mpr List.Pairwise.nil

/-- No leaf reads a step, and each lists what else it reads in order. -/
def IsStepless (condition : Condition σ) : Prop :=
  condition.ReadsOnly (fun source => source.step? = none) ∧ condition.IsOrdered

theorem closed_isStepless : Closed (IsStepless : Condition σ → Prop) :=
  (closed_readsOnly _).and closed_isOrdered

theorem Alike.isOrdered {condition other : Condition σ} (alike : Alike paired condition other) :
    condition.IsOrdered := by
  induction alike with
  | comparison _ _ _ reads => exact over_comparison.mpr reads.leftSorted
  | call _ _ reads => exact over_call.mpr reads.leftSorted
  | joined _ _ _ leftInduction rightInduction => exact over_joined.mpr ⟨leftInduction, rightInduction⟩
  | negated _ induction => exact over_negated.mpr induction
  | raw _ reads => exact over_raw.mpr reads.leftSorted

/-- Where no step is read, equal texts are all that it takes. -/
theorem alike_of_isStepless {condition other : Condition σ} (stepless : condition.IsStepless)
    (otherStepless : other.IsStepless) (same : condition.bare = other.bare) :
    Alike paired condition other := by
  induction condition generalizing other with
  | comparison =>
      cases other <;> cases same
      exact .comparison _ _ _ (.of_stepless (over_comparison.mp stepless.1)
        (over_comparison.mp stepless.2) (over_comparison.mp otherStepless.1)
        (over_comparison.mp otherStepless.2))
  | call =>
      cases other <;> cases same
      exact .call _ _ (.of_stepless (over_call.mp stepless.1) (over_call.mp stepless.2)
        (over_call.mp otherStepless.1) (over_call.mp otherStepless.2))
  | raw =>
      cases other <;> cases same
      exact .raw _ (.of_stepless (over_raw.mp stepless.1) (over_raw.mp stepless.2)
        (over_raw.mp otherStepless.1) (over_raw.mp otherStepless.2))
  | negated inner induction =>
      cases other with
      | negated otherInner =>
          apply Alike.negated
          exact induction ⟨over_negated.mp stepless.1, over_negated.mp stepless.2⟩
            ⟨over_negated.mp otherStepless.1, over_negated.mp otherStepless.2⟩
            (Condition.negated.inj same)
      | _ => cases same
  | joined connective left right leftInduction rightInduction =>
      cases other with
      | joined otherConnective otherLeft otherRight =>
          have parts := closed_isStepless.splits _ _ _ stepless
          have otherParts := closed_isStepless.splits _ _ _ otherStepless
          rcases Condition.joined.inj same with ⟨rfl, sameLeft, sameRight⟩
          exact .joined _ (leftInduction parts.1 otherParts.1 sameLeft)
            (rightInduction parts.2 otherParts.2 sameRight)
      | _ => cases same

theorem isStepless_of_simplifyAny
    (alike : List.Forall₂ (Alike paired) conditions others)
    (propagatable : ∀ condition ∈ conditions, condition.isPropagatable = true)
    {result : Condition σ} (found : simplifyAny conditions = some result) : result.IsStepless := by
  apply among_simplifyAny closed_isStepless _ found
  intro condition mem
  rcases exists_of_mem_forall₂ alike.flip mem with ⟨other, _, isAlike⟩
  exact ⟨readsOnly_of_isPropagatable (propagatable condition mem), isAlike.isOrdered⟩

/-- The simplified disjunction of conditions that read no step reads none either. -/
theorem alike_simplifyAny (pairing : Keyed.Pairing paired)
    (alike : List.Forall₂ (Alike paired) conditions others)
    (propagatable : ∀ condition ∈ conditions, condition.isPropagatable = true) :
    Option.Rel (Alike paired) (simplifyAny conditions) (simplifyAny others) := by
  have turned : List.Forall₂ (Alike (flip paired)) others conditions :=
    List.Forall₂.flip (alike.imp fun _ _ isAlike => isAlike.symm)
  have otherPropagatable : ∀ other ∈ others, other.isPropagatable = true := by
    intro other mem
    rcases exists_of_mem_forall₂ alike mem with ⟨condition, conditionMem, isAlike⟩
    exact (isAlike.isPropagatable pairing).symm.trans (propagatable condition conditionMem)
  have same := simplifyAny_map_bare conditions
  rw [map_bare_eq alike, simplifyAny_map_bare] at same
  cases found : simplifyAny conditions with
  | none =>
      rw [found] at same
      rw [Option.map_eq_none_iff.mp same]
      exact .none
  | some result =>
      rw [found] at same
      rcases Option.map_eq_some_iff.mp same with ⟨other, otherFound, sameBare⟩
      rw [otherFound]
      exact .some (alike_of_isStepless (isStepless_of_simplifyAny alike propagatable found)
        (isStepless_of_simplifyAny turned otherPropagatable otherFound) sameBare.symm)

/-! ## Reading a text -/

section Reading

variable {scope other : StepScope σ} (scopes : StepScope.Alike paired scope other)

include scopes

omit [Keyed σ] in
theorem exists_source_of_mem {references : List Reference} {step : σ}
    (mem : .step step ∈ references.filterMap (Reference.source? scope)) :
    ∃ another, .step another ∈ references.filterMap (Reference.source? other) ∧
      paired step another := by
  rcases List.mem_filterMap.mp mem with ⟨reference, isReference, found⟩
  rcases Reference.source?_eq_step.mp found with ⟨root, known⟩
  have related := scopes reference.name
  rw [known] at related
  rcases exists_of_rel_some related with ⟨another, otherKnown, isPair⟩
  exact ⟨another, List.mem_filterMap.mpr
    ⟨reference, isReference, Reference.source?_eq_step.mpr ⟨root, otherKnown⟩⟩, isPair⟩

omit [Keyed σ] in
theorem match_sources (references : List Reference) :
    Sources.Match paired (references.filterMap (Reference.source? scope))
      (references.filterMap (Reference.source? other)) where
  forth _ mem := exists_source_of_mem scopes mem
  back _ mem := exists_source_of_mem (fun id => rel_flip (scopes id)) mem

variable (pairing : Keyed.Pairing paired)

include pairing

theorem alike_ofReferences (references : List Reference) :
    Sources.Alike paired (Sources.ofList (references.filterMap (Reference.source? scope)))
      (Sources.ofList (references.filterMap (Reference.source? other))) :=
  Sources.Alike.nil.union pairing (match_sources scopes references)

theorem alike_leaf {text : Text} (closes : Text.ClosesQuotes text) :
    Alike paired (leaf scope text) (leaf other text) := by
  have read := alike_ofReferences scopes pairing
  rcases leaf_shape σ closes with ⟨left, comparator, right, _, shape⟩ |
    ⟨name, arguments, _, _, shape⟩ | shape
  · rw [shape, shape]
    exact .comparison left comparator right (read (Text.references left))
  · rw [shape, shape]
    exact .call name arguments (read (arguments.flatMap Text.references))
  · rw [shape, shape]
    exact .raw text (read (Text.references text))

omit scopes in
theorem compatible_alike : Compatible (Alike paired) where
  joinAll {connective conditions others condition} alike found := by
    have joined : Option.Rel (Alike paired) (connective.joinAll conditions)
        (connective.joinAll others) := by
      cases connective with
      | and => exact alike_allOf pairing alike
      | or => exact alike_anyOf pairing alike
    rw [found] at joined
    exact exists_of_rel_some joined
  negate alike := alike.negate

theorem alike_parse {text : Text} {condition another : Condition σ}
    (parsed : parse scope text = .ok condition) (otherParsed : parse other text = .ok another) :
    Alike paired condition another := by
  rcases related_parse (compatible_alike pairing)
    (fun part isPart => alike_leaf scopes pairing isPart.closes) with
      ⟨_, failed, _⟩ | ⟨found, otherFound, read, otherRead, alike⟩
  · cases parsed.symm.trans failed
  · cases parsed.symm.trans read
    cases otherParsed.symm.trans otherRead
    exact alike

end Reading

end Condition

end FlowPlan
