import FlowPlan.Condition.Nesting
import FlowPlan.Condition.Basic

/-! # References to steps and jobs

An expression reads a step through `steps.<id>` and a job through `needs.<id>`.
Such a reference counts anywhere outside string literals where no longer name
ends in it: neither a word character nor a point stands in front of it.
-/

namespace FlowPlan

inductive ReferenceRoot where
  | steps
  | needs
deriving DecidableEq, Repr

def ReferenceRoot.opening : ReferenceRoot → Text
  | .steps => ['s', 't', 'e', 'p', 's', '.']
  | .needs => ['n', 'e', 'e', 'd', 's', '.']

structure Reference where
  root : ReferenceRoot
  name : String
deriving DecidableEq, Repr

namespace Reference

/-- A nonempty name behind the opening of `root`, and what follows it. -/
def withRoot? (root : ReferenceRoot) (text : Text) : Option (Reference × Text) :=
  match Text.dropStart? root.opening text with
  | none => none
  | some rest =>
    let name := rest.takeWhile Text.isNameChar
    if name.isEmpty then none
    else some (⟨root, String.ofList name⟩, rest.dropWhile Text.isNameChar)

/-- The reference at the very start of the text, and what follows it. -/
def atStart? (text : Text) : Option (Reference × Text) :=
  (withRoot? .steps text).or (withRoot? .needs text)

theorem length_withRoot? {root : ReferenceRoot} {text rest : Text} {reference : Reference}
    (found : withRoot? root text = some (reference, rest)) : rest.length < text.length := by
  unfold withRoot? at found
  split at found
  · simp at found
  · rename_i behind dropped
    dsimp only at found
    split at found
    · simp at found
    · cases found
      rw [Text.eq_append_of_dropStart? dropped]
      have := (List.dropWhile_sublist (l := behind) Text.isNameChar).length_le
      cases root <;> simp [ReferenceRoot.opening] <;> omega

theorem length_atStart? {text rest : Text} {reference : Reference}
    (found : atStart? text = some (reference, rest)) : rest.length < text.length := by
  rcases Option.or_eq_some_iff.1 found with found | ⟨_, found⟩ <;> exact length_withRoot? found

/-- A name that goes on behind this character would hide a reference. -/
def endsName (c : Char) : Bool := !(Text.isWordChar c || c = '.')

/-- The references in a text, read from inside or outside a string literal. `boundary` says that
a reference may begin at the first character. -/
def scan (quoted boundary : Bool) (text : Text) : List Reference :=
  match text with
  | [] => []
  | head :: tail =>
    if head = '\'' then scan (!quoted) true tail
    else if quoted || !boundary then scan quoted (endsName head) tail
    else match _found : atStart? (head :: tail) with
      | some (reference, rest) => reference :: scan quoted false rest
      | none => scan quoted (endsName head) tail
termination_by text.length
decreasing_by
  all_goals simp_wf
  have := length_atStart? _found
  simpa [Nat.lt_succ_iff] using this

end Reference

namespace Text

def references (text : Text) : List Reference := Reference.scan false true text

/-- The step ids that an expression reads, each once and in order of appearance. -/
def referencedSteps (text : Text) : List String :=
  (references text).foldl (fun ids reference =>
    if reference.root = .steps && !ids.contains reference.name then ids ++ [reference.name]
    else ids) []

end Text

/-- The steps that ids stand for, where they stand for one. -/
abbrev StepScope (σ : Type) := String → Option σ

namespace StepScope

/-- No id stands for a step. -/
def none {σ : Type} : StepScope σ := fun _ => .none

end StepScope

namespace Reference

/-- A reference to a job is always a source; one to a step only if the scope knows the step. -/
def source? {σ : Type} (scope : StepScope σ) (reference : Reference) : Option (Source σ) :=
  match reference.root with
  | .steps => (scope reference.name).map .step
  | .needs => some (.job reference.name)

end Reference

/-- What an expression reads. -/
def Text.sources {σ : Type} [Keyed σ] (scope : StepScope σ) (text : Text) : Sources σ :=
  Sources.ofList ((references text).filterMap (Reference.source? scope))

end FlowPlan
