import FlowPlan.Text.Hidden
import FlowPlan.Yaml.Basic

/-! # Values in messages

How a value is described where a message has to show it: the kind of the value
and what it holds.
-/

namespace FlowPlan

namespace Yaml

/-- A character inside a described string. -/
def describedChar (c : Char) : String :=
  match c with
  | '"' => "\\\""
  | '\\' => "\\\\"
  | '\n' => "\\n"
  | '\r' => "\\r"
  | '\t' => "\\t"
  | '\x00' => "\\0"
  | _ =>
    if Text.isHidden c then
      "\\u\x7b" ++ String.ofList (Nat.toDigits 16 c.toNat) ++ "\x7d"
    else String.singleton c

def describedString (text : String) : String :=
  "\"" ++ String.join (text.toList.map describedChar) ++ "\""

mutual

def description : Yaml → String
  | .null => "Null"
  | .bool value => "Bool(" ++ toString value ++ ")"
  | .integer value => "Number(" ++ toString value ++ ")"
  | .float value => "Number(" ++ String.ofList value.pointed ++ ")"
  | .string value => "String(" ++ describedString value ++ ")"
  | .sequence members => "Sequence [" ++ String.intercalate ", " (descriptions members) ++ "]"
  | .mapping entries =>
    "Mapping \x7b" ++ String.intercalate ", " (entryDescriptions entries) ++ "\x7d"
  | .tagged tag value =>
    "TaggedValue \x7b tag: !" ++ tag ++ ", value: " ++ description value ++ " \x7d"

def descriptions : List Yaml → List String
  | [] => []
  | member :: rest => description member :: descriptions rest

/-- Simple keys are described by what they hold, without their kind. -/
def entryDescriptions : List (Yaml × Yaml) → List String
  | [] => []
  | (name, value) :: rest =>
    let key := match name with
      | .bool content => toString content
      | .integer content => toString content
      | .float content => String.ofList content.pointed
      | .string content => describedString content
      | _ => description name
    (key ++ ": " ++ description value) :: entryDescriptions rest

end

end Yaml

end FlowPlan
