import FlowPlan.Proofs.CoveredConditions

/-! # References that conditions show

The references of a rendered condition are those of its leaves, from left to
right, since everything that stands between leaves ends them. A condition that
is read from a text shows only references of the text, and each leaf reads what
stands for the references that it shows.
-/

namespace FlowPlan

open Text (ClosesQuotes IsSeparator)

namespace Text

/-! ## Written references -/

/-- Outside strings and behind no longer name, the text has a root and a whole name behind it. -/
inductive Writes : Reference → Text → Prop
  | intro {root : ReferenceRoot} {front name back : Text} (outside : ClosesQuotes front)
      (begins : ∀ c ∈ front.getLast?, IsSeparator c) (some : name ≠ [])
      (named : ∀ c ∈ name, isNameChar c = true) (ends : ∀ c ∈ back.head?, isNameChar c = false) :
      Writes ⟨root, String.ofList name⟩ (front ++ (root.opening ++ name ++ back))

theorem atStart?_written {root : ReferenceRoot} {name back : Text} (some : name ≠ [])
    (named : ∀ c ∈ name, isNameChar c = true) (ends : ∀ c ∈ back.head?, isNameChar c = false) :
    Reference.atStart? (root.opening ++ name ++ back) =
      .some (⟨root, String.ofList name⟩, back) := by
  have stops : back.takeWhile isNameChar = [] ∧ back.dropWhile isNameChar = back := by
    cases back with
    | nil => exact ⟨rfl, rfl⟩
    | cons head tail => simp [ends head rfl]
  have rooted : Reference.withRoot? root (root.opening ++ name ++ back) =
      .some (⟨root, String.ofList name⟩, back) := by
    rw [Reference.withRoot?, List.append_assoc, dropStart?_append_self]
    simp only [List.takeWhile_append_of_pos named, List.dropWhile_append_of_pos named, stops,
      List.append_nil, List.isEmpty_eq_false_iff.mpr some, Bool.false_eq_true, if_false]
  cases root with
  | steps => rw [Reference.atStart?, rooted, Option.some_or]
  | needs =>
      have other :
          Reference.withRoot? .steps (ReferenceRoot.needs.opening ++ name ++ back) = none := rfl
      rw [Reference.atStart?, other, Option.none_or, rooted]

/-- The scan finds what is written. -/
theorem mem_references_of_writes {reference : Reference} {text : Text}
    (writes : Writes reference text) : reference ∈ references text := by
  cases writes with
  | @intro root front name back outside begins some named ends =>
      have found : Reference.atStart? (root.opening ++ name ++ back) = _ :=
        atStart?_written some named ends
      have scanned : references (root.opening ++ name ++ back) =
          ⟨root, String.ofList name⟩ :: Reference.scan false false back := by
        cases root <;> exact Reference.scan_of_some (by decide) found
      have first : ⟨root, String.ofList name⟩ ∈ references (root.opening ++ name ++ back) := by
        rw [scanned]
        exact List.mem_cons_self
      rcases List.eq_nil_or_concat' front with rfl | ⟨start, c, rfl⟩
      · exact first
      · have separates : ∀ other ∈ [c], IsSeparator other := by simpa using begins
        have closes : ClosesQuotes start := by
          rw [ClosesQuotes, quotedBehind_append] at outside
          have notQuote : c ≠ '\'' := (separates c List.mem_cons_self).1
          simpa [ClosesQuotes, quotedBehind, notQuote] using outside
        rw [references_append closes (List.cons_ne_nil c []) separates]
        exact List.mem_append_right _ first

theorem references_parenthesized (wrap : Bool) (text : Text) :
    references (Condition.parenthesized wrap text) = references text := by
  cases wrap with
  | false => rfl
  | true =>
      have opening : ∀ c ∈ ['('], IsSeparator c := by decide
      have closing : ∀ c ∈ [')'], IsSeparator c := by decide
      exact (references_append_separators _ closing).trans
        (references_separators_append opening text)

theorem references_joinWith {separators : Text} (nonempty : separators ≠ [])
    (separate : ∀ c ∈ separators, IsSeparator c) {pieces : List Text}
    (close : ∀ piece ∈ pieces, ClosesQuotes piece) :
    references (joinWith separators pieces) = pieces.flatMap references := by
  fun_induction joinWith separators pieces with
  | case1 => exact references_eq_nil_of_not_mem List.not_mem_nil
  | case2 piece => exact (List.append_nil _).symm
  | case3 piece next rest induction =>
      have later := induction fun other mem => close other (List.mem_cons_of_mem piece mem)
      rw [references_append (close piece List.mem_cons_self) nonempty separate, later]
      rfl

end Text

namespace Condition

variable {σ : Type}

/-- The references in what the leaves show, from left to right. -/
def shownReferences (condition : Condition σ) : List Reference :=
  condition.leaves.flatMap fun leaf => leaf.shown.flatMap Text.references

theorem mem_shownReferences {condition : Condition σ} {reference : Reference} :
    reference ∈ condition.shownReferences ↔ ∃ leaf ∈ condition.leaves, ∃ text ∈ leaf.shown,
      reference ∈ Text.references text := by
  simp only [shownReferences, List.mem_flatMap]

/-- The text of a condition shows what its leaves show. -/
theorem IsCovered.references_render [Keyed σ] {condition : Condition σ}
    (covered : condition.IsCovered) :
    Text.references condition.render = condition.shownReferences := by
  induction condition with
  | comparison left comparator right sources =>
      have covers := over_comparison.mp covered left List.mem_cons_self
      have separate : ∀ c ∈ [' '] ++ comparator.token ++ [' '], IsSeparator c := by
        cases comparator <;> decide
      have whole : (comparison left comparator right sources).render =
          left ++ ([' '] ++ comparator.token ++ [' ']) ++ right.render := by
        simp [Condition.render]
      rw [whole, Text.references_append covers.closes (by simp) separate, right.references_eq_nil]
      simp [shownReferences, leaves, shown]
  | call name arguments sources =>
      rcases List.forall_mem_cons.mp (over_call.mp covered) with ⟨nameCovers, argumentsCover⟩
      have opening : ∀ c ∈ ['('], IsSeparator c := by decide
      have closing : ∀ c ∈ [')'], IsSeparator c := by decide
      have between : ∀ c ∈ [',', ' '], IsSeparator c := by decide
      have whole : (call name arguments sources).render =
          name ++ ['('] ++ (Text.joinWith [',', ' '] arguments ++ [')']) := by
        simp [Condition.render]
      rw [whole, Text.references_append nameCovers.closes (List.cons_ne_nil _ _) opening,
        Text.references_append_separators _ closing,
        Text.references_joinWith (List.cons_ne_nil _ _) between
          fun argument mem => (argumentsCover argument mem).closes]
      simp [shownReferences, leaves, shown]
  | raw text sources => simp [Condition.render, shownReferences, leaves, shown]
  | negated inner induction =>
      have mark : ∀ c ∈ ['!'], IsSeparator c := by decide
      have whole := Text.references_separators_append mark
        (parenthesized inner.wrapsUnderNegation inner.render)
      rw [Text.references_parenthesized, induction (over_negated.mp covered)] at whole
      exact whole
  | joined connective left right leftInduction rightInduction =>
      rcases over_joined.mp covered with ⟨leftCovered, rightCovered⟩
      have leftCovers := IsCovered.cover_render leftCovered
      have leftCloses := (leftCovers.parenthesized (left.wrapsUnder connective)).closes
      have separate : ∀ c ∈ [' '] ++ connective.token ++ [' '], IsSeparator c := by
        cases connective <;> decide
      have whole : (joined connective left right).render =
          parenthesized (left.wrapsUnder connective) left.render ++
            ([' '] ++ connective.token ++ [' ']) ++
              parenthesized (right.wrapsUnder connective) right.render := by
        simp [Condition.render]
      rw [whole, Text.references_append leftCloses (by simp) separate,
        Text.references_parenthesized, Text.references_parenthesized, leftInduction leftCovered,
        rightInduction rightCovered]
      simp [shownReferences, leaves]

/-! ## What leaves read for what they show -/

variable [Keyed σ]

/-- Every id that a leaf shows has to do with what the leaf reads. -/
def ShowsSteps (related : List (Source σ) → String → Prop) (condition : Condition σ) : Prop :=
  condition.Over fun leaf => ∀ text ∈ leaf.shown, ∀ id,
    ⟨.steps, id⟩ ∈ Text.references text → related leaf.sources id

variable {related : List (Source σ) → String → Prop}

omit [Keyed σ] in
theorem references_booleanText (value : Bool) : Text.references (booleanText value) = [] :=
  Text.references_eq_nil_of_not_mem (by cases value <;> decide)

omit [Keyed σ] in
theorem showsSteps_booleanText (value : Bool) (sources : List (Source σ)) :
    ∀ text ∈ (raw (booleanText value) sources : Condition σ).shown, ∀ id,
      ⟨.steps, id⟩ ∈ Text.references text → related sources id := by
  intro text mem id shown
  rw [List.mem_singleton.mp mem, references_booleanText] at shown
  cases shown

theorem closed_showsSteps : Closed (ShowsSteps related : Condition σ → Prop) :=
  closed_over showsSteps_booleanText

theorem ShowsSteps.negate {condition : Condition σ} (shows : condition.ShowsSteps related) :
    condition.negate.ShowsSteps related :=
  over_negate (fun _ _ _ _ _ related => related)
    (fun _ value sources _ => showsSteps_booleanText value sources) shows

theorem ShowsSteps.mono {weaker : List (Source σ) → String → Prop} {condition : Condition σ}
    (shows : condition.ShowsSteps related)
    (included : ∀ sources id, related sources id → weaker sources id) :
    condition.ShowsSteps weaker :=
  fun leaf leafMem text mem id shown => included _ id (shows leaf leafMem text mem id shown)

/-- The text refers to the id, and a step that the scope has for it is read, at least by its
key. -/
def ReadsFor (scope : StepScope σ) (text : Text) (sources : List (Source σ)) (id : String) : Prop :=
  ⟨.steps, id⟩ ∈ Text.references text ∧
    ∀ step, scope id = some step → ∃ kept, .step kept ∈ sources ∧ key kept = key step

theorem exists_key_mem_ofList {scope : StepScope σ} {references : List Reference} {id : String}
    (mem : ⟨.steps, id⟩ ∈ references) {step : σ} (known : scope id = some step) :
    ∃ kept, .step kept ∈ Sources.ofList (references.filterMap (Reference.source? scope)) ∧
      key kept = key step := by
  apply Sources.exists_key_mem_union_of_mem_right []
  refine List.mem_filterMap.mpr ⟨_, mem, ?_⟩
  rw [Reference.source?]
  exact congrArg (Option.map Source.step) known

theorem showsSteps_leaf {scope : StepScope σ} {text : Text} (closes : ClosesQuotes text) :
    (leaf scope text).ShowsSteps (ReadsFor scope text) := by
  rcases leaf_shape σ closes with ⟨left, comparator, right, isPart, shape⟩ |
    ⟨name, arguments, word, parts, shape⟩ | shape
  · rw [shape]
    refine over_comparison.mpr (List.forall_mem_singleton.mpr fun id mem => ?_)
    exact ⟨isPart.references mem, fun _ => exists_key_mem_ofList mem⟩
  · rw [shape]
    refine over_call.mpr (List.forall_mem_cons.mpr ⟨?_, ?_⟩)
    · intro id mem
      rw [Text.references_eq_nil_of_not_mem fun point => absurd (word _ point) (by decide)] at mem
      cases mem
    · intro argument argumentMem id mem
      have listed : ⟨.steps, id⟩ ∈ arguments.flatMap Text.references :=
        List.mem_flatMap.mpr ⟨argument, argumentMem, mem⟩
      exact ⟨(parts argument argumentMem).references mem, fun _ => exists_key_mem_ofList listed⟩
  · rw [shape]
    refine over_raw.mpr (List.forall_mem_singleton.mpr fun id mem => ?_)
    exact ⟨mem, fun _ => exists_key_mem_ofList mem⟩

/-- Each leaf of a condition that is read from a text reads what stands for the ids that it
shows. -/
theorem showsSteps_of_parse {scope : StepScope σ} {text : Text} {condition : Condition σ}
    (parsed : parse scope text = .ok condition) : condition.ShowsSteps (ReadsFor scope text) := by
  refine among_parse closed_showsSteps (fun _ => ShowsSteps.negate) (fun part isPart => ?_) parsed
  refine (showsSteps_leaf isPart.closes).mono fun sources id reads => ?_
  exact ⟨isPart.references reads.1, reads.2⟩

end Condition

end FlowPlan
