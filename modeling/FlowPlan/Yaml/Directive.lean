import FlowPlan.Yaml.Scalar

/-! # Directives

A line in front of a document that begins with a percent sign. The only
directive that a definition may have names the version of the language.
-/

namespace FlowPlan.Cursor

/-- The characters in the name of a directive. -/
def isDirectiveChar (c : Char) : Bool := c.isAlphanum || c = '_' || c = '-'

/-- A whole number of at most nine digits, and the place behind it. -/
def versionNumber (cursor : Cursor) : Except YamlFault (Nat × Cursor) :=
  let digits := cursor.rest.takeWhile Char.isDigit
  if digits.isEmpty || 9 < digits.length then .error .malformedDirective
  else
    let number := digits.foldl (fun number c => 10 * number + (c.toNat - '0'.toNat)) 0
    .ok (number, cursor.skip digits.length)

/-- The two numbers of a version, from behind the percent sign, and the start of the next line. -/
def version (cursor : Cursor) : Except YamlFault ((Nat × Nat) × Cursor) := do
  let name := cursor.rest.takeWhile isDirectiveChar
  let behindName := cursor.skip name.length
  if name ≠ "YAML".toList || !endsHere behindName.rest then throw .malformedDirective
  let (major, behindMajor) ← versionNumber (behindName.skipWhile isBlank)
  if behindMajor.rest.head? ≠ some '.' then throw .malformedDirective
  let (minor, behindMinor) ← versionNumber behindMajor.next
  return ((major, minor), ← endOfHeader behindMinor)

end FlowPlan.Cursor
