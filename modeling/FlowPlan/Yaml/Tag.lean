import FlowPlan.Yaml.Basic

/-! # Tags

What becomes of the tags in a value that is taken from one document into
another. A tag whose name begins with an exclamation mark of its own loses that
mark on the way, as it cannot be told from the mark of the tag. Two keys may
become the same by this.
-/

namespace FlowPlan.Yaml

/-- The name of a tag in the next document. A name that is nothing but a mark is kept. -/
def nextTag (tag : String) : String :=
  match tag.toList with
  | ['!'] => tag
  | '!' :: rest => String.ofList rest
  | _ => tag

example : nextTag "!local" = "local" := by decide +kernel
example : nextTag "!!local" = "!local" := by decide +kernel

section

variable {m : Type → Type} [Monad m] (add : Entries → Yaml → Yaml → m Entries)

mutual

/-- The value with the tags of the next document. Mappings are put together again by `add`. -/
def withNextTags : Yaml → m Yaml
  | .tagged tag value => return .tagged (nextTag tag) (← withNextTags value)
  | .sequence members => return .sequence (← allWithNextTags members)
  | .mapping entries => return .mapping (← addWithNextTags [] entries)
  | value => return value

def allWithNextTags : List Yaml → m (List Yaml)
  | [] => return []
  | member :: rest => do
    let member ← withNextTags member
    return member :: (← allWithNextTags rest)

/-- Adds entries to those `before` them. -/
def addWithNextTags (before : Entries) : List (Yaml × Yaml) → m Entries
  | [] => return before
  | (name, value) :: rest => do
    let name ← withNextTags name
    let value ← withNextTags value
    addWithNextTags (← add before name value) rest

end

end

/-- The value in the next document, unless two of its keys become the same. -/
def received? (value : Yaml) : Option Yaml := withNextTags Entries.add? value

/-- The entries of a mapping in the next document. -/
def Entries.received? (entries : Entries) : Option Entries :=
  addWithNextTags Entries.add? [] entries

/-- The value in the next document, where of two entries with the same key the later one counts. -/
def handedOn (value : Yaml) : Yaml :=
  Id.run (withNextTags (fun entries name value => return entries.insert name value) value)

def Entries.handedOn (entries : Entries) : Entries :=
  Id.run (addWithNextTags (fun entries name value => return entries.insert name value) [] entries)

example : received? (.tagged "!a" .null) matches some (.tagged "a" .null) := by decide +kernel

end FlowPlan.Yaml
