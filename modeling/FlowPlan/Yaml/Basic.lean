import FlowPlan.Number.Shortest

/-! # Data of documents

The values that a YAML document is made of. Mappings keep the order in which
their entries stand in the document, and their keys are values of any kind.
-/

namespace FlowPlan

inductive Yaml where
  | null
  | bool (value : Bool)
  | integer (value : Int)
  | float (value : Binary64)
  | string (value : String)
  | sequence (members : List Yaml)
  | mapping (entries : List (Yaml × Yaml))
  /-- The tag is kept without the exclamation mark in front of it. -/
  | tagged (tag : String) (value : Yaml)
deriving Repr, Inhabited

namespace Yaml

/-- The entries of a mapping, in order. -/
abbrev Entries := List (Yaml × Yaml)

mutual

/-- Two values that cannot both be keys of one mapping. The order of a mapping's entries does not
matter, and all undefined numbers are the same. -/
def same : Yaml → Yaml → Bool
  | .null, .null => true
  | .bool left, .bool right => left = right
  | .integer left, .integer right => left = right
  | .float left, .float right =>
    left.numericallyEqual right || (left = .undefined && right = .undefined)
  | .string left, .string right => left = right
  | .sequence left, .sequence right => sameMembers left right
  | .mapping left, .mapping right => left.length = right.length && allEntriesIn left right
  | .tagged tag left, .tagged tag' right => tag = tag' && left.same right
  | _, _ => false

def sameMembers : List Yaml → List Yaml → Bool
  | [], [] => true
  | left :: lefts, right :: rights => left.same right && sameMembers lefts rights
  | _, _ => false

def allEntriesIn : Entries → Entries → Bool
  | [], _ => true
  | (name, value) :: rest, entries =>
    (entries.any fun entry => name.same entry.1 && value.same entry.2) && allEntriesIn rest entries

end

namespace Entries

def find? (entries : Entries) (name : Yaml) : Option Yaml :=
  (List.find? (fun entry => name.same entry.1) entries).map Prod.snd

def hasKey (entries : Entries) (name : Yaml) : Bool := entries.any fun entry => name.same entry.1

/-- A key that is there already keeps its place and gets the new value. -/
def insert (entries : Entries) (name value : Yaml) : Entries :=
  if hasKey entries name then
    entries.map fun entry => if name.same entry.1 then (entry.1, value) else entry
  else entries ++ [(name, value)]

/-- One more entry, if its key is still free. -/
def add? (entries : Entries) (name value : Yaml) : Option Entries :=
  if hasKey entries name then none else some (entries ++ [(name, value)])

/-- No two keys are the same. -/
def areDistinct : Entries → Bool
  | [] => true
  | (name, _) :: rest => !hasKey rest name && areDistinct rest

/-- Adds the entries whose keys are still free. -/
def addMissing (entries extra : Entries) : Entries :=
  extra.foldl (fun sum entry => if hasKey sum entry.1 then sum else sum ++ [entry]) entries

end Entries

/-- The value without the tags around it. -/
def untagged : Yaml → Yaml
  | .tagged _ value => value.untagged
  | value => value

end Yaml

end FlowPlan
