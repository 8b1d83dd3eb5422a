import FlowPlan.Proofs.Operands
import FlowPlan.Proofs.QuotedText

/-! # Covered texts

Sources cover a text if every job that the text reads is among them. Texts with
separators between them are covered together if each of them is, because a
reference never goes on across a separator. Literals read nothing.
-/

namespace FlowPlan

open Text (ClosesQuotes IsSeparator)

/-! ## Jobs among sources -/

namespace Sources

variable {σ : Type} [Keyed σ]

theorem job_mem_union_right (left : Sources σ) {right : List (Source σ)} {name : String}
    (mem : .job name ∈ right) : .job name ∈ union left right := by
  rcases exists_place_mem_union left mem with ⟨kept, keptMem, same⟩
  cases kept with
  | step read => cases same
  | job other =>
      cases same
      exact keptMem

omit [Keyed σ] in
theorem mem_jobs {name : String} {sources : Sources σ} :
    name ∈ sources.jobs ↔ .job name ∈ sources := by
  simp only [jobs, List.mem_filterMap]
  constructor
  · rintro ⟨source, mem, found⟩
    cases source with
    | step => cases found
    | job => cases found; exact mem
  · intro mem
    exact ⟨.job name, mem, rfl⟩

end Sources

/-! ## Covers -/

/-- Every string of the text ends in it, and every job that it reads is a source. -/
structure Sources.Cover {σ : Type} (sources : List (Source σ)) (text : Text) : Prop where
  closes : ClosesQuotes text
  jobs : ∀ name, ⟨.needs, name⟩ ∈ Text.references text → .job name ∈ sources

namespace Sources.Cover

variable {σ : Type} {sources : List (Source σ)}

theorem of_references_eq_nil {text : Text} (closes : ClosesQuotes text)
    (quiet : Text.references text = []) : Cover sources text where
  closes := closes
  jobs name mem := by
    rw [quiet] at mem
    cases mem

theorem of_isWordChar {text : Text} (word : ∀ c ∈ text, Text.isWordChar c = true) :
    Cover sources text := by
  apply of_references_eq_nil
  · exact .of_not_mem fun mem => absurd (word _ mem) (by decide)
  · exact Text.references_eq_nil_of_not_mem fun mem => absurd (word _ mem) (by decide)

theorem mono {more : List (Source σ)} {text : Text} (covers : Cover sources text)
    (included : ∀ name, .job name ∈ sources → .job name ∈ more) : Cover more text where
  closes := covers.closes
  jobs name mem := included name (covers.jobs name mem)

theorem append {front separators back : Text} (frontCovers : Cover sources front)
    (nonempty : separators ≠ []) (separate : ∀ c ∈ separators, IsSeparator c)
    (backCovers : Cover sources back) : Cover sources (front ++ separators ++ back) where
  closes := (frontCovers.closes.append (.of_isSeparator separate)).append backCovers.closes
  jobs name mem := by
    rw [Text.references_append frontCovers.closes nonempty separate] at mem
    exact (List.mem_append.mp mem).elim (frontCovers.jobs name) (backCovers.jobs name)

theorem separators_append {separators text : Text} (separate : ∀ c ∈ separators, IsSeparator c)
    (covers : Cover sources text) : Cover sources (separators ++ text) where
  closes := (ClosesQuotes.of_isSeparator separate).append covers.closes
  jobs name mem := by
    rw [Text.references_separators_append separate] at mem
    exact covers.jobs name mem

theorem append_separators {text separators : Text} (covers : Cover sources text)
    (separate : ∀ c ∈ separators, IsSeparator c) : Cover sources (text ++ separators) where
  closes := covers.closes.append (.of_isSeparator separate)
  jobs name mem := by
    rw [Text.references_append_separators text separate] at mem
    exact covers.jobs name mem

theorem joinWith {separators : Text} (nonempty : separators ≠ [])
    (separate : ∀ c ∈ separators, IsSeparator c) {pieces : List Text}
    (cover : ∀ piece ∈ pieces, Cover sources piece) :
    Cover sources (Text.joinWith separators pieces) := by
  fun_induction Text.joinWith separators pieces with
  | case1 => exact of_isWordChar (List.forall_mem_nil _)
  | case2 piece => exact cover piece List.mem_cons_self
  | case3 piece next rest induction =>
      have later : ∀ other ∈ next :: rest, Cover sources other :=
        fun other mem => cover other (List.mem_cons_of_mem piece mem)
      exact (cover piece List.mem_cons_self).append nonempty separate (induction later)

theorem parenthesized {text : Text} (covers : Cover sources text) (wrap : Bool) :
    Cover sources (Condition.parenthesized wrap text) := by
  cases wrap with
  | false => exact covers
  | true =>
      have opening : ∀ c ∈ ['('], IsSeparator c := by decide
      have closing : ∀ c ∈ [')'], IsSeparator c := by decide
      exact (covers.separators_append opening).append_separators closing

end Sources.Cover

/-- What an expression reads covers it. -/
theorem Text.cover_sources {σ : Type} [Keyed σ] (scope : StepScope σ) {text : Text}
    (closes : ClosesQuotes text) : Sources.Cover (Text.sources scope text) text where
  closes := closes
  jobs _ mem := Sources.job_mem_union_right [] (List.mem_filterMap.mpr ⟨_, mem, rfl⟩)

/-! ## Literals -/

theorem Literal.cover_render {σ : Type} (sources : List (Source σ)) (literal : Literal) :
    Sources.Cover sources literal.render :=
  .of_references_eq_nil literal.closesQuotes_render literal.references_eq_nil

end FlowPlan
