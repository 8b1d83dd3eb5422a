import FlowPlan.Yaml.Directive

/-! # Tokens of documents

A document is a row of tokens. Indentation opens and closes block collections
as brackets do flow collections, so behind this point layout has no meaning any
more.

What a key is turns out late. A node that may be a key is remembered, and when
a colon follows on the same line the mark of the key is put in front of it. A
node at the very indentation of a mapping has to become a key.
-/

namespace FlowPlan.Yaml

inductive Bracket where
  | blockSequence
  | blockMapping
  | flowSequence
  | flowMapping
deriving DecidableEq, Repr

inductive Token where
  | opening (bracket : Bracket)
  | closing (bracket : Bracket)
  /-- The end of the innermost block collection, of either kind. -/
  | dedent
  | entry
  | comma
  | key
  | value
  | scalar (text : Text) (isPlain : Bool)
  | version (major minor : Nat)
  | documentStart
  | documentEnd
  | textEnd
deriving DecidableEq, Repr

/-- A node that becomes a key if a colon follows. -/
structure PossibleKey where
  /-- How many tokens stand in front of it. -/
  count : Nat
  start : Cursor
  isRequired : Bool

structure Scan where
  cursor : Cursor
  /-- The tokens so far, the latest first. -/
  tokens : List Token := []
  /-- How many tokens there are. -/
  count : Nat := 0
  /-- The columns of the open block collections, the innermost first. -/
  columns : List Nat := []
  /-- The possible keys in the block and in each open flow collection, the innermost first. -/
  keys : List (Option PossibleKey) := [none]
  /-- A key or a block collection may begin here. -/
  mayBegin : Bool := true
  /-- Where the first token of the content stands. -/
  start : Option Cursor := none

namespace Scan

def inFlow (scan : Scan) : Bool := 1 < scan.keys.length

def emit (scan : Scan) (token : Token) : Scan :=
  { scan with tokens := token :: scan.tokens, count := scan.count + 1 }

/-- Puts a token behind the first `count` ones. -/
def insert (scan : Scan) (count : Nat) (token : Token) : Scan :=
  let later := scan.count - count
  { scan with
    tokens := scan.tokens.take later ++ token :: scan.tokens.drop later
    count := scan.count + 1 }

/-- Closes the block collections that the predicate holds for, from the innermost on. -/
def closeWhile (scan : Scan) (isOver : Nat → Bool) : Scan :=
  if scan.inFlow then scan
  else
    let closed := scan.columns.takeWhile isOver
    { scan with
      columns := scan.columns.drop closed.length
      tokens := List.replicate closed.length .dedent ++ scan.tokens
      count := scan.count + closed.length }

/-- Opens a block collection at a column that is further to the right than the innermost one. -/
def openAt (scan : Scan) (column count : Nat) (bracket : Bracket) : Scan :=
  if scan.inFlow || !scan.columns.head?.all (· < column) then scan
  else { scan with columns := column :: scan.columns }.insert count (.opening bracket)

def openHere (scan : Scan) (bracket : Bracket) : Scan :=
  scan.openAt scan.cursor.column scan.count bracket

/-- Gives up a possible key. -/
def released : Option PossibleKey → Except YamlFault (Option PossibleKey)
  | some key => if key.isRequired then .error .missingValue else .ok none
  | none => .ok none

def dropKey (scan : Scan) : Except YamlFault Scan :=
  match scan.keys with
  | key :: rest => return { scan with keys := (← released key) :: rest }
  | [] => .ok scan

/-- Remembers the node that begins here as a possible key. -/
def saveKey (scan : Scan) : Except YamlFault Scan :=
  if scan.mayBegin then do
    let scan ← scan.dropKey
    let isRequired := !scan.inFlow && scan.columns.head? = some scan.cursor.column
    let key : PossibleKey := ⟨scan.count, scan.cursor, isRequired⟩
    return { scan with keys := some key :: scan.keys.drop 1 }
  else .ok scan

/-- A key and its colon stand on one line, at most 1024 bytes apart. -/
def isTooFar (cursor : Cursor) (key : PossibleKey) : Bool :=
  key.start.line < cursor.line || key.start.offset + 1024 < cursor.offset

def dropFarKeys (scan : Scan) : Except YamlFault Scan := do
  let keys ← scan.keys.mapM fun key =>
    if key.any (isTooFar scan.cursor) then released key else .ok key
  return { scan with keys }

/-- Goes on to the next token and closes what ends in front of it. -/
def advance (scan : Scan) : Except YamlFault Scan := do
  let (mayBegin, cursor) := scan.cursor.toToken scan.inFlow scan.mayBegin
  let scan ← { scan with cursor, mayBegin }.dropFarKeys
  return scan.closeWhile (cursor.column < ·)

def skip (scan : Scan) (count : Nat) : Scan := { scan with cursor := scan.cursor.skip count }

def documentMark (scan : Scan) (token : Token) : Except YamlFault Scan := do
  let scan ← (scan.closeWhile fun _ => true).dropKey
  return ({ scan with mayBegin := false }.emit token).skip 3

def flowOpening (scan : Scan) (bracket : Bracket) : Except YamlFault Scan := do
  let scan ← scan.saveKey
  return ({ scan with keys := none :: scan.keys, mayBegin := true }.emit (.opening bracket)).skip 1

def flowClosing (scan : Scan) (bracket : Bracket) : Except YamlFault Scan := do
  let scan ← scan.dropKey
  let keys := if scan.inFlow then scan.keys.drop 1 else scan.keys
  return ({ scan with keys, mayBegin := false }.emit (.closing bracket)).skip 1

def comma (scan : Scan) : Except YamlFault Scan := do
  let scan ← scan.dropKey
  return ({ scan with mayBegin := true }.emit .comma).skip 1

def entry (scan : Scan) : Except YamlFault Scan := do
  if !scan.inFlow && !scan.mayBegin then throw .misplacedEntry
  let scan ← (scan.openHere .blockSequence).dropKey
  return ({ scan with mayBegin := true }.emit .entry).skip 1

def key (scan : Scan) : Except YamlFault Scan := do
  if !scan.inFlow && !scan.mayBegin then throw .misplacedKey
  let scan ← (scan.openHere .blockMapping).dropKey
  return ({ scan with mayBegin := !scan.inFlow }.emit .key).skip 1

/-- A colon makes a key of the possible key. -/
def value (scan : Scan) : Except YamlFault Scan :=
  match scan.keys with
  | some key :: rest =>
    let marked := { scan with keys := none :: rest, mayBegin := false }.insert key.count .key
    .ok (((marked.openAt key.start.column key.count .blockMapping).emit .value).skip 1)
  | _ =>
    if scan.inFlow then .ok (({ scan with mayBegin := false }.emit .value).skip 1)
    else if scan.mayBegin then .ok (((scan.openHere .blockMapping).emit .value).skip 1)
    else .error .misplacedValue

def block (scan : Scan) (folded : Bool) : Except YamlFault Scan := do
  let scan ← scan.dropKey
  let (text, cursor) ← Cursor.block folded scan.columns.head? (scan.cursor.skip 1)
  return { scan with cursor, mayBegin := true }.emit (.scalar text false)

def quoted (scan : Scan) (double : Bool) : Except YamlFault Scan := do
  let scan ← scan.saveKey
  let (text, cursor) ← Cursor.quoted double (scan.cursor.skip 1)
  return { scan with cursor, mayBegin := false }.emit (.scalar text false)

def plain (scan : Scan) : Except YamlFault Scan := do
  let scan ← scan.saveKey
  let least := scan.columns.head?.elim 0 (· + 1)
  let scanned ← Cursor.plain scan.inFlow least scan.cursor
  return { scan with cursor := scanned.behind, mayBegin := scanned.endsLine }.emit
    (.scalar scanned.text true)

/-- The characters that mean something at the start of a token. -/
def isIndicator (c : Char) : Bool := "-?:,[]\x7b\x7d#&*!|>'\"%@`".toList.contains c

def directive (scan : Scan) : Except YamlFault Scan := do
  let scan ← (scan.closeWhile fun _ => true).dropKey
  let ((major, minor), cursor) ← Cursor.version (scan.cursor.skip 1)
  return { scan with cursor, mayBegin := false }.emit (.version major minor)

/-- The token that begins with `c`. Anchors, aliases and tags have no place in a definition. -/
def token (scan : Scan) (c : Char) (rest : Text) : Except YamlFault Scan :=
  if scan.cursor.column = 0 && c = '%' then scan.directive
  else if scan.cursor.atDocumentMark then
    scan.documentMark (if c = '-' then .documentStart else .documentEnd)
  else
    let scan := { scan with start := scan.start.or (some scan.cursor) }
    let alone := Cursor.endsHere rest
    match c with
    | '[' => scan.flowOpening .flowSequence
    | '\x7b' => scan.flowOpening .flowMapping
    | ']' => scan.flowClosing .flowSequence
    | '\x7d' => scan.flowClosing .flowMapping
    | ',' => scan.comma
    | '-' => if alone then scan.entry else scan.plain
    | '?' => if scan.inFlow || alone then scan.key else scan.plain
    | ':' => if scan.inFlow || alone then scan.value else scan.plain
    | '|' => if scan.inFlow then .error .unexpectedCharacter else scan.block false
    | '>' => if scan.inFlow then .error .unexpectedCharacter else scan.block true
    | '\'' => scan.quoted false
    | '"' => scan.quoted true
    | c => if isIndicator c || Cursor.isSpace c then .error .unexpectedCharacter else scan.plain

/-- The end of the text, which also ends its last line. -/
def textEnd (scan : Scan) : Except YamlFault Scan := do
  let cursor := scan.cursor
  let behind := if cursor.column = 0 then cursor else { cursor with line := cursor.line + 1 }
  let scan ← (scan.closeWhile fun _ => true).dropKey
  return { scan with cursor := { behind with column := 0 } }.emit .textEnd

/-- Reads one more token. -/
def step (scan : Scan) : Except YamlFault Scan := do
  let scan ← scan.advance
  let scan ← match scan.cursor.rest with
    | [] => scan.textEnd
    | c :: rest => scan.token c rest
  scan.dropFarKeys

def isOver (scan : Scan) : Bool := scan.tokens.head? = some .textEnd

/-- Reads on to the end of the text or to the first fault. Every token takes up a character, so
`fuel` only has to exceed the length of the text. -/
def run : Nat → Scan → Scan × Option YamlFault
  | 0, scan => (scan, some .unexpectedCharacter)
  | fuel + 1, scan =>
    match scan.step with
    | .error fault => (scan, some fault)
    | .ok next => if next.isOver then (next, none) else run fuel next

/-- The tokens that will not be changed any more: those in front of all possible keys. -/
def settled (scan : Scan) : List Token :=
  let counts := scan.keys.filterMap fun key => key.map PossibleKey.count
  scan.tokens.reverse.take (counts.foldl min scan.count)

end Scan

/-- Documents hold no control characters but tabs and ends of lines. -/
def isAllowed (c : Char) : Bool :=
  let n := c.toNat
  n = 0x09 || n = 0x0a || n = 0x0d || (0x20 ≤ n && n ≤ 0x7e) || n = 0x85 ||
    (0xa0 ≤ n && n ≤ 0xfffd) || 0x10000 ≤ n

/-- The tokens of a text up to the first fault, if there is one. -/
structure TokenRow where
  tokens : List Token
  /-- Where the content begins. -/
  start : Cursor
  fault : Option YamlFault

def TokenRow.ofText (text : Text) : TokenRow :=
  let start : Cursor := { rest := Text.withPlainBreaks text }
  if !text.all isAllowed then ⟨[], start, some .forbiddenCharacter⟩
  else
    let (scan, fault) := Scan.run (text.length + 1) { cursor := start }
    ⟨scan.settled, scan.start.getD scan.cursor, fault⟩

end FlowPlan.Yaml
