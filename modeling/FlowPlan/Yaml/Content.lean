import FlowPlan.Yaml.Node

/-! # The content of a text

A text holds one document with one node. A fault in the text, or anything
behind the document, does not undo what was written in front of it, so the
content of a text is its node together with the fault.
-/

namespace FlowPlan.Yaml

structure Content where
  root : Node
  /-- Where the document begins. -/
  start : Cursor
  fault : Option YamlFault

namespace Content

/-- The node of a document behind the mark that starts it. -/
def markedRoot (tokens : List Token) : Node × List Token :=
  match tokens with
  | .documentStart :: _ => (.empty, tokens)
  | .documentEnd :: _ => (.empty, tokens)
  | .textEnd :: _ => (.empty, tokens)
  | _ =>
    let front := Node.read .block tokens
    (front.content, front.rest)

/-- The versions of the language that a document may be written in. -/
def isKnownVersion (major minor : Nat) : Bool := major = 1 && (minor = 1 || minor = 2)

/-- The first node. The mark that starts the document may be missing, unless there is a version in
front of it. -/
def firstRoot (tokens : List Token) : Node × List Token :=
  match tokens with
  | .documentStart :: rest => markedRoot rest
  | .version major minor :: .documentStart :: rest =>
    if isKnownVersion major minor then markedRoot rest else (.misplaced, [])
  | .textEnd :: _ => (.empty, tokens)
  | _ =>
    let front := Node.read .block tokens
    (front.content, front.rest)

/-- There is nothing behind a document but marks that end it. -/
def isEnd (tokens : List Token) : Bool :=
  tokens.dropWhile (· = .documentEnd) = [.textEnd]

def ofText (text : Text) : Content :=
  let row := TokenRow.ofText text
  let (root, rest) := firstRoot row.tokens
  let fault := row.fault.or (if isEnd rest then none else some .misplacedNode)
  ⟨root, row.start, fault⟩

end Content

/-! ## From a node to a value

A plain scalar stands for what it looks like, and any other one for its text.
No two keys of a mapping may be the same, and collections may be nested only so
deep.
-/

namespace Node

def scalarValue (text : Text) (isPlain : Bool) : Except YamlFault Yaml :=
  if isPlain then
    match Plain.meaning text with
    | .value value => .ok value
    | .outOfRange => .error .numberOutOfRange
  else .ok (.string (String.ofList text))

mutual

/-- The value of a node, with at most `room` collections inside one another. -/
def toYaml (room : Nat) : Node → Except YamlFault Yaml
  | .scalar text isPlain => scalarValue text isPlain
  | .sequence members =>
    match room with
    | 0 => .error .nestedTooDeeply
    | room + 1 => (toYamlAll room members).map .sequence
  | .mapping entries =>
    match room with
    | 0 => .error .nestedTooDeeply
    | room + 1 => (toYamlEntries room [] entries).map .mapping
  | .broken fault => .error fault

def toYamlAll (room : Nat) : List Node → Except YamlFault (List Yaml)
  | [] => .ok []
  | node :: rest => do
    let value ← toYaml room node
    return value :: (← toYamlAll room rest)

def toYamlEntries (room : Nat) (before : Entries) : List (Node × Node) → Except YamlFault Entries
  | [] => .ok before
  | (key, value) :: rest => do
    let key ← toYaml room key
    let value ← toYaml room value
    match before.add? key value with
    | some entries => toYamlEntries room entries rest
    | none => .error .repeatedKey

end

end Node

end FlowPlan.Yaml
