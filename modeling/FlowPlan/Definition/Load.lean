import FlowPlan.Definition.Reader

/-! # Reading definitions from text

A document is read as its value would be, but for the fields at the top: their
keys count as text whatever they look like, and so does the name of the
workflow. A field without meaning is passed over without a look at its value.
The definition and its environment may be left out, but not be given as null.
What is wrong with a definition is found before any fault in the text behind it.
-/

namespace FlowPlan

/-- What is wrong with a definition, and where the document begins in which it was found. -/
structure LoadError where
  error : ReadError
  line : Nat := 0
  column : Nat := 0

namespace LoadError

/-- The place is left out at the very beginning of a text. -/
def placeText (error : LoadError) : String :=
  if error.line = 0 && error.column = 0 then ""
  else " at line " ++ toString (error.line + 1) ++ " column " ++ toString (error.column + 1)

def message (error : LoadError) : String := error.error.message ++ error.placeText

end LoadError

namespace WorkflowDefinition

def keyText : Yaml.Node → Reading String
  | .scalar text _ => .ok (String.ofList text)
  | _ => .error .unfit

/-- How many collections of a document may stand inside one another. -/
def nestingLimit : Nat := 128

/-- The value of a field at the top, which stands inside one mapping already. -/
def nodeValue (node : Yaml.Node) : Reading Yaml :=
  (node.toYaml (nestingLimit - 1)).mapError .fault

/-- Nothing at all is written in the place of the node. -/
def isLeftOut : Yaml.Node → Bool
  | .scalar [] isPlain => isPlain
  | _ => false

/-- The name of a workflow is text, even if it looks like a number, but may be left open. -/
def nameValue : Yaml.Node → Reading Yaml
  | .scalar text isPlain =>
    .ok (if isPlain && Yaml.Plain.isNull text then .null else .string (String.ofList text))
  | _ => .error .unfit

def envValue : Yaml.Node → Reading Yaml
  | .mapping entries => nodeValue (.mapping entries)
  | node => if isLeftOut node then .ok (.mapping []) else .error .unfit

def rawField (key value : Yaml.Node) : RawField :=
  let key := keyText key
  let value := match key.toOption.bind WorkflowField.ofKey? with
    | some .name => nameValue value
    | some .env => envValue value
    | _ => nodeValue value
  (key, value)

def ofNode : Yaml.Node → Reading WorkflowDefinition
  | .mapping entries => ofFields (entries.map fun (key, value) => rawField key value)
  | .broken fault => .error (.fault fault)
  | node => if isLeftOut node then .ok {} else .error .unfit

def ofText (text : Text) : Except LoadError WorkflowDefinition := do
  let content := Yaml.Content.ofText text
  let place := content.start
  let definition ← (ofNode content.root).mapError (⟨·, place.line, place.column⟩)
  match content.fault with
  | some fault => .error { error := .fault fault }
  | none => .ok definition

end WorkflowDefinition

/-! ## Files -/

/-- Why no definition could be read from a file. -/
inductive FileError where
  | missing
  | notUnicode
  | unreadable (error : LoadError)

namespace FileError

def message : FileError → String
  | .missing => "no such file"
  | .notUnicode => "the file is not encoded in UTF-8"
  | .unreadable error => error.message

end FileError

/-- Reads a definition from the content of a file, if there is such a file. -/
def WorkflowDefinition.ofFile : Option ByteArray → Except FileError WorkflowDefinition
  | none => .error .missing
  | some content =>
    match String.fromUTF8? content with
    | some text => (WorkflowDefinition.ofText text.toList).mapError .unreadable
    | none => .error .notUnicode

end FlowPlan
