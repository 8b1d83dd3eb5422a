import FlowPlan.Proofs.Reads
import Mathlib.Data.String.Basic
import Mathlib.Data.Sum.Order

/-! # The order of sources

Sources have places in a linear order, and a set of them lists its members by
their places. Of several sources with one place the first one is kept, so the
union of sets depends only on their members in the order in which they come.
-/

namespace FlowPlan

namespace Source

variable {σ : Type} [Keyed σ]

/-- Steps stand in front of jobs. -/
def place : Source σ → ℕ ⊕ₗ String
  | .step read => Sum.inlₗ (key read)
  | .job id => Sum.inrₗ id

theorem before_iff {first second : Source σ} :
    first.before second = true ↔ first.place < second.place := by
  cases first with
  | step read =>
      cases second with
      | step other => exact decide_eq_true_iff.trans Sum.Lex.inl_lt_inl_iff.symm
      | job id => exact iff_of_true rfl (Sum.Lex.inl_lt_inr _ _)
  | job id =>
      cases second with
      | step read => exact iff_of_false Bool.false_ne_true Sum.Lex.not_inr_lt_inl
      | job other => exact decide_eq_true_iff.trans Sum.Lex.inr_lt_inr_iff.symm

theorem before_eq_false_iff {first second : Source σ} :
    first.before second = false ↔ ¬ first.place < second.place := by
  rw [← before_iff, Bool.not_eq_true]

end Source

namespace Sources

variable {σ : Type} [Keyed σ]

def IsSorted (sources : Sources σ) : Prop :=
  sources.Pairwise fun first second => first.place < second.place

/-! ## Insertion -/

theorem insert_of_lt {source head : Source σ} (tail : Sources σ)
    (less : source.place < head.place) : insert source (head :: tail) = source :: head :: tail := by
  rw [insert, if_pos (Source.before_iff.mpr less)]

theorem insert_of_gt {source head : Source σ} (tail : Sources σ)
    (greater : head.place < source.place) :
    insert source (head :: tail) = head :: insert source tail := by
  have notBefore := Source.before_eq_false_iff.mpr (lt_asymm greater)
  rw [insert, notBefore, if_neg Bool.false_ne_true, if_pos (Source.before_iff.mpr greater)]

theorem insert_of_eq {source head : Source σ} (tail : Sources σ)
    (equal : source.place = head.place) : insert source (head :: tail) = head :: tail := by
  have notBefore := Source.before_eq_false_iff.mpr (not_lt_of_ge equal.ge)
  have notBehind := Source.before_eq_false_iff.mpr (not_lt_of_ge equal.le)
  rw [insert, notBefore, notBehind, if_neg Bool.false_ne_true, if_neg Bool.false_ne_true]

theorem insert_comm {first second : Source σ} (less : first.place < second.place)
    (sources : Sources σ) :
    insert second (insert first sources) = insert first (insert second sources) := by
  induction sources with
  | nil =>
      have single : ∀ source : Source σ, insert source [] = [source] := fun _ => rfl
      rw [single, single, insert_of_gt [] less, insert_of_lt [] less, single]
  | cons head tail induction =>
      rcases lt_trichotomy first.place head.place with firstLess | firstEqual | firstGreater
      · rw [insert_of_lt tail firstLess, insert_of_gt _ less]
        rcases lt_trichotomy second.place head.place with secondLess | secondEqual | secondGreater
        · rw [insert_of_lt tail secondLess, insert_of_lt _ less]
        · rw [insert_of_eq tail secondEqual, insert_of_lt _ firstLess]
        · rw [insert_of_gt tail secondGreater, insert_of_lt _ firstLess]
      · have greater : head.place < second.place := firstEqual ▸ less
        rw [insert_of_eq tail firstEqual, insert_of_gt tail greater, insert_of_eq _ firstEqual]
      · have greater := firstGreater.trans less
        rw [insert_of_gt tail firstGreater, insert_of_gt _ greater, insert_of_gt tail greater,
          insert_of_gt _ firstGreater, induction]

theorem insert_eq_self {source kept : Source σ} {sources : Sources σ} (sorted : IsSorted sources)
    (mem : kept ∈ sources) (equal : source.place = kept.place) :
    insert source sources = sources := by
  induction sources with
  | nil => cases mem
  | cons head tail induction =>
      rcases List.pairwise_cons.mp sorted with ⟨first, tailSorted⟩
      rcases List.mem_cons.mp mem with rfl | later
      · exact insert_of_eq tail equal
      · rw [insert_of_gt tail (equal ▸ first kept later), induction tailSorted later]

theorem isSorted_insert {sources : Sources σ} (sorted : IsSorted sources) (source : Source σ) :
    IsSorted (insert source sources) := by
  induction sources with
  | nil => exact List.pairwise_singleton _ _
  | cons head tail induction =>
      rcases List.pairwise_cons.mp sorted with ⟨first, tailSorted⟩
      rcases lt_trichotomy source.place head.place with less | equal | greater
      · rw [insert_of_lt tail less]
        refine List.pairwise_cons.mpr ⟨?_, sorted⟩
        intro member mem
        rcases List.mem_cons.mp mem with rfl | later
        · exact less
        · exact less.trans (first member later)
      · rw [insert_of_eq tail equal]
        exact sorted
      · rw [insert_of_gt tail greater]
        refine List.pairwise_cons.mpr ⟨?_, induction tailSorted⟩
        intro member mem
        rcases eq_or_mem_of_mem_insert mem with rfl | later
        · exact greater
        · exact first member later

theorem exists_place_mem_insert (source : Source σ) (sources : Sources σ) :
    ∃ kept ∈ insert source sources, kept.place = source.place := by
  induction sources with
  | nil => exact ⟨source, List.mem_singleton_self source, rfl⟩
  | cons head tail induction =>
      rcases lt_trichotomy source.place head.place with less | equal | greater
      · rw [insert_of_lt tail less]
        exact ⟨source, List.mem_cons_self, rfl⟩
      · rw [insert_of_eq tail equal]
        exact ⟨head, List.mem_cons_self, equal.symm⟩
      · rw [insert_of_gt tail greater]
        rcases induction with ⟨kept, mem, same⟩
        exact ⟨kept, List.mem_cons_of_mem head mem, same⟩

/-! ## Unions -/

theorem isSorted_union {left : Sources σ} (sorted : IsSorted left) (right : List (Source σ)) :
    IsSorted (union left right) := by
  induction right generalizing left with
  | nil => exact sorted
  | cons head tail induction => exact induction (isSorted_insert sorted head)

theorem isSorted_ofList (members : List (Source σ)) : IsSorted (ofList members) :=
  isSorted_union List.Pairwise.nil members

theorem exists_place_mem_union {source : Source σ} (left : Sources σ) {right : List (Source σ)}
    (mem : source ∈ right) : ∃ kept ∈ union left right, kept.place = source.place := by
  induction right generalizing left with
  | nil => cases mem
  | cons head tail induction =>
      rw [union_cons]
      rcases List.mem_cons.mp mem with rfl | later
      · rcases exists_place_mem_insert source left with ⟨kept, keptMem, same⟩
        exact ⟨kept, mem_union_of_mem_left keptMem, same⟩
      · exact induction (insert head left) later

theorem union_append (left : Sources σ) (front back : List (Source σ)) :
    union left (front ++ back) = union (union left front) back :=
  List.foldl_append

/-- Whoever stands in front of all members may come first or last. -/
theorem union_insert_of_lt {source : Source σ} {sources : List (Source σ)}
    (first : ∀ member ∈ sources, source.place < member.place) (left : Sources σ) :
    union (insert source left) sources = insert source (union left sources) := by
  induction sources generalizing left with
  | nil => rfl
  | cons head tail induction =>
      rw [union_cons, union_cons, insert_comm (first head List.mem_cons_self),
        induction fun member mem => first member (List.mem_cons_of_mem head mem)]

theorem union_insert {left : Sources σ} (leftSorted : IsSorted left) {sources : Sources σ}
    (sorted : IsSorted sources) (source : Source σ) :
    union left (insert source sources) = insert source (union left sources) := by
  induction sources generalizing left with
  | nil => rfl
  | cons head tail induction =>
      rcases List.pairwise_cons.mp sorted with ⟨first, tailSorted⟩
      rcases lt_trichotomy source.place head.place with less | equal | greater
      · have allBehind : ∀ member ∈ head :: tail, source.place < member.place := by
          intro member mem
          rcases List.mem_cons.mp mem with rfl | later
          · exact less
          · exact less.trans (first member later)
        rw [insert_of_lt tail less, union_cons, union_insert_of_lt allBehind]
      · have headMem : head ∈ head :: tail := List.mem_cons_self
        rcases exists_place_mem_union left headMem with ⟨kept, mem, same⟩
        rw [insert_of_eq tail equal,
          insert_eq_self (isSorted_union leftSorted _) mem (equal.trans same.symm)]
      · rw [insert_of_gt tail greater, union_cons,
          induction (isSorted_insert leftSorted head) tailSorted, union_cons]

theorem union_assoc {left middle : Sources σ} (leftSorted : IsSorted left)
    (middleSorted : IsSorted middle) (right : List (Source σ)) :
    union left (union middle right) = union (union left middle) right := by
  induction right generalizing middle with
  | nil => rfl
  | cons head tail induction =>
      rw [union_cons, induction (isSorted_insert middleSorted head), union_insert leftSorted
        middleSorted, union_cons]

theorem union_ofList (front back : List (Source σ)) :
    union (ofList front) (ofList back) = ofList (front ++ back) :=
  calc
    union (ofList front) (ofList back) = union (union (ofList front) []) back :=
      union_assoc (isSorted_ofList front) List.Pairwise.nil back
    _ = ofList (front ++ back) := (union_append [] front back).symm

end Sources

end FlowPlan
