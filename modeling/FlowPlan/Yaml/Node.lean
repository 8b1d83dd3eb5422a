import FlowPlan.Yaml.Plain
import FlowPlan.Yaml.Token

/-! # Nodes of documents

The tree that the tokens of a document describe. Its scalars are still the
texts that were written. A node that is left out is an empty plain scalar, and
where a text stops making sense there is a broken node, so that all that stands
in front of it can still be read.
-/

namespace FlowPlan.Yaml

inductive Node where
  | scalar (text : Text) (isPlain : Bool)
  | sequence (members : List Node)
  | mapping (entries : List (Node × Node))
  | broken (fault : YamlFault)

/-- What was read at the front of a row of tokens, and the tokens behind it. -/
structure Front (α : Type) (tokens : List Token) where
  content : α
  rest : List Token
  length_le : rest.length ≤ tokens.length

namespace Front

variable {α β : Type} {tokens rest : List Token}

/-- No token is read. -/
def nothing (content : α) : Front α tokens := ⟨content, tokens, Nat.le_refl _⟩

/-- The row makes no sense from here on, and no later token is read. -/
def broken (content : α) : Front α tokens := ⟨content, [], Nat.zero_le _⟩

def map (change : α → β) (front : Front α tokens) : Front β tokens :=
  ⟨change front.content, front.rest, front.length_le⟩

/-- What was read behind a token. -/
def behind (token : Token) (front : Front α tokens) : Front α (token :: tokens) :=
  ⟨front.content, front.rest, Nat.le_succ_of_le front.length_le⟩

/-- What was read behind several tokens. -/
def after (front : Front α rest) (le : rest.length ≤ tokens.length) : Front α tokens :=
  ⟨front.content, front.rest, Nat.le_trans front.length_le le⟩

end Front

namespace Node

def empty : Node := .scalar [] true

/-- Something other than the node or the mark that belongs here. -/
def misplaced : Node := .broken .misplacedNode

/-- Where a node stands. Inside brackets there are no block collections, and only as a part of a
block mapping a sequence need not be indented. -/
inductive Place where
  | flow
  | block
  | blockMapping
deriving DecidableEq, Repr

/-! ## Nodes that are left out -/

/-- Tokens in front of which a member of a block sequence is left out. -/
def endsMember : Token → Bool
  | .entry => true
  | .dedent => true
  | _ => false

/-- Tokens in front of which a key or a value of a block mapping is left out. -/
def endsBlockPart : Token → Bool
  | .key => true
  | .value => true
  | .dedent => true
  | _ => false

/-- Tokens in front of which a value of a flow collection is left out. -/
def endsFlowValue (bracket : Bracket) : Token → Bool
  | .comma => true
  | .closing closed => closed = bracket
  | _ => false

/-- Tokens in front of which a key of a flow collection is left out. -/
def endsFlowKey (bracket : Bracket) (token : Token) : Bool :=
  token = .value || endsFlowValue bracket token

/-- What stands behind a member of a flow collection. -/
inductive Separator (tokens : List Token) where
  | comma (rest : List Token) (length_lt : rest.length < tokens.length)
  | closing (rest : List Token) (length_lt : rest.length < tokens.length)
  | neither

def separator (bracket : Bracket) : (tokens : List Token) → Separator tokens
  | .comma :: rest => .comma rest (Nat.lt_succ_self _)
  | .closing closed :: rest =>
    if closed = bracket then .closing rest (Nat.lt_succ_self _) else .neither
  | _ => .neither

/-! ## From tokens to nodes

Each reader starts at the front of a row of tokens. Readers of members and
entries stand behind the token that opens their collection, and go on to behind
the token that closes it.
-/

mutual

def read (place : Place) (tokens : List Token) : Front Node tokens :=
  match tokens with
  | .scalar text isPlain :: _ => (Front.nothing (.scalar text isPlain)).behind _
  | .opening .flowSequence :: rest => ((flowMembers rest).map .sequence).behind _
  | .opening .flowMapping :: rest => ((flowEntries rest).map .mapping).behind _
  | .opening .blockSequence :: rest =>
    if place = .flow then .broken misplaced else ((blockMembers rest).map .sequence).behind _
  | .opening .blockMapping :: rest =>
    if place = .flow then .broken misplaced else ((blockEntries rest).map .mapping).behind _
  | .entry :: rest =>
    if place = .blockMapping then (bareMembers (.entry :: rest)).map .sequence
    else .broken misplaced
  | _ => .broken misplaced
termination_by (tokens.length, 1)

/-- A node that is left out in front of certain tokens. -/
def readUnless (isEnd : Token → Bool) (place : Place) (tokens : List Token) : Front Node tokens :=
  if tokens.head?.any isEnd then .nothing empty else read place tokens
termination_by (tokens.length, 2)

/-- The value of a key, which needs a mark of its own. -/
def readValue (isEnd : Token → Bool) (place : Place) (tokens : List Token) : Front Node tokens :=
  match tokens with
  | .value :: rest => (readUnless isEnd place rest).behind _
  | _ => .nothing empty
termination_by (tokens.length, 0)

/-- The members of an indented sequence. -/
def blockMembers (tokens : List Token) : Front (List Node) tokens :=
  match tokens with
  | .entry :: rest =>
    let ⟨member, tail, inside⟩ := readUnless endsMember .block rest
    (((blockMembers tail).map (member :: ·)).after inside).behind _
  | .dedent :: _ => (Front.nothing []).behind _
  | _ => .broken [misplaced]
termination_by (tokens.length, 0)

/-- The members of a sequence that is not indented. It ends where something else begins. -/
def bareMembers (tokens : List Token) : Front (List Node) tokens :=
  match tokens with
  | .entry :: rest =>
    let isEnd token := endsMember token || endsBlockPart token
    let ⟨member, tail, inside⟩ := readUnless isEnd .block rest
    (((bareMembers tail).map (member :: ·)).after inside).behind _
  | _ => .nothing []
termination_by (tokens.length, 0)

def blockEntries (tokens : List Token) : Front (List (Node × Node)) tokens :=
  match tokens with
  | .key :: rest =>
    let ⟨key, behindKey, inside⟩ := readUnless endsBlockPart .blockMapping rest
    let ⟨value, tail, inside'⟩ := readValue endsBlockPart .blockMapping behindKey
    (((blockEntries tail).map ((key, value) :: ·)).after (Nat.le_trans inside' inside)).behind _
  | .dedent :: _ => (Front.nothing []).behind _
  | _ => .broken [(misplaced, misplaced)]
termination_by (tokens.length, 0)

/-- A member of a flow sequence. One with the mark of a key is a mapping of a single entry; there
the token that shows that the key is left out is passed over. -/
def flowMember (tokens : List Token) : Front Node tokens :=
  match tokens with
  | .key :: rest =>
    let ⟨key, behindKey, inside⟩ : Front Node rest :=
      match rest with
      | [] => .broken misplaced
      | token :: more =>
        if endsFlowKey .flowSequence token then (Front.nothing empty).behind _
        else read .flow (token :: more)
    let value := readValue (endsFlowValue .flowSequence) .flow behindKey
    ((value.map fun value => .mapping [(key, value)]).after inside).behind _
  | tokens => read .flow tokens
termination_by (tokens.length, 3)

def flowMembers (tokens : List Token) : Front (List Node) tokens :=
  match tokens with
  | .closing .flowSequence :: _ => (Front.nothing []).behind _
  | tokens =>
    let ⟨member, tail, inside⟩ := flowMember tokens
    match separator .flowSequence tail with
    | .comma rest shorter =>
      ((flowMembers rest).map (member :: ·)).after (Nat.le_trans (Nat.le_of_lt shorter) inside)
    | .closing rest shorter => ⟨[member], rest, Nat.le_trans (Nat.le_of_lt shorter) inside⟩
    | .neither => .broken [member, misplaced]
termination_by (tokens.length, 4)

def flowEntry (tokens : List Token) : Front (Node × Node) tokens :=
  match tokens with
  | .key :: rest =>
    let ⟨key, behindKey, inside⟩ := readUnless (endsFlowKey .flowMapping) .flow rest
    let value := readValue (endsFlowValue .flowMapping) .flow behindKey
    ((value.map (key, ·)).after inside).behind _
  | tokens => (read .flow tokens).map (·, empty)
termination_by (tokens.length, 3)

def flowEntries (tokens : List Token) : Front (List (Node × Node)) tokens :=
  match tokens with
  | .closing .flowMapping :: _ => (Front.nothing []).behind _
  | tokens =>
    let ⟨entry, tail, inside⟩ := flowEntry tokens
    match separator .flowMapping tail with
    | .comma rest shorter =>
      ((flowEntries rest).map (entry :: ·)).after (Nat.le_trans (Nat.le_of_lt shorter) inside)
    | .closing rest shorter => ⟨[entry], rest, Nat.le_trans (Nat.le_of_lt shorter) inside⟩
    | .neither => .broken [entry, (misplaced, misplaced)]
termination_by (tokens.length, 4)

end

end Node

end FlowPlan.Yaml
