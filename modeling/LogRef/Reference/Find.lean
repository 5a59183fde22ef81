import LogRef.Directive.Scope
import LogRef.Fault
import LogRef.Notice
import LogRef.Reference.Entry
import LogRef.Syntax.Call

/-!
# Finding references

The call sites of a source that carry, or should carry, a reference, in source order.
-/
namespace LogRef

/-- Work that reports notices and can end in a fault; the notices up to the fault remain. -/
abbrev Reporting := ExceptT Fault (StateM (List Notice))

namespace Reporting

def report (n : Notice) : Reporting Unit := modify (· ++ [n])

end Reporting

/-- The key of an argument that holds a reference. -/
def referenceKey : String := "ref"

/-- The names a macro of a module may be called by. -/
def spellingsOf (module name : String) : List String :=
  if module.isEmpty then [name] else [name, s!"{module}::{name}"]

/-- The names that any of the macros may be called by. -/
def allSpellings (macros : List (String × String)) : List String :=
  (macros.flatMap fun (module, name) => spellingsOf module name).eraseDups

/-- The part of a path after its last `::`. -/
def lastNameChars : List Char → List Char
  | [] => []
  | c :: rest =>
    let tail := lastNameChars rest
    if tail.length < rest.length then tail
    else if [':', ':'].isPrefixOf (c :: rest) then rest.drop 1
    else c :: rest

def lastName (name : String) : String := String.ofList (lastNameChars name.toList)

/-- What is looked for in a source. -/
structure Query where
  names : List String
  inArguments : Bool
  comments : CommentPattern
  /-- The parser of sources. -/
  parse : Bytes → Node

def Span.position (s : Span) : Position := ⟨s.start, s.line, s.column⟩

/-- The entry of a call that keeps its reference in the message. -/
def messageEntry (call : Call) : Option Entry :=
  call.message.map fun m => {
    position := m.span.position
    reference := (readMark m.text.toList).map Int.ofNat
    macroName := lastName call.name
    site := .message
    before := none
    after := none }

/-- The entry of a call that has a `ref` argument. -/
def givenEntry (call : Call) (argument : KeyValue) : Except TooManyDigits Entry := do
  let id ← readId (Text.trim argument.valueText.toList)
  return {
    position := (argument.value.getD argument.span).position
    reference := id.map Int.ofNat
    macroName := lastName call.name
    site := .givenArgument
    before := none
    after := none }

/-- The entry of a call that gets a new `ref` argument. -/
def newEntry (call : Call) : Entry := {
  position := call.insertAt.position
  reference := none
  macroName := lastName call.name
  site := .newArgument
  before := some s!"{referenceKey} = "
  after := some (if call.keyValues.isEmpty then "; " else ", ") }

/-- The entry of a call that keeps its reference in an argument; a call without a message has none. -/
def argumentEntry (call : Call) : Except TooManyDigits (Option Entry) :=
  if call.message.isNone then .ok none
  else match call.keyValues.find? (·.key = referenceKey) with
    | some argument => (givenEntry call argument).map some
    | none => .ok (some (newEntry call))

/-- The entry of a call on a line of `code` that begins at `offset`. -/
def callEntry (query : Query) (code : List Char) (offset : Nat) (call : Call) :
    Reporting (Option Entry) := do
  if isDirected query.comments ignoreDirective code offset then
    Reporting.report (.ignoredCall call.name call.nameSpan.line)
    return none
  else if !query.inArguments || isDirected query.comments messageOnlyDirective code offset then
    return messageEntry call
  else match argumentEntry call with
    | .ok entry => return entry
    | .error e => throw (.tooManyDigits e)

/-- The entries of the calls that are asked for. -/
def callEntries (query : Query) (code : List Char) (calls : List Call) : Reporting (List Entry) := do
  let starts := charLineStarts code
  let entries ← calls.mapM fun call => do
    if query.names.contains call.name then
      callEntry query code (starts.getD (clampOffset starts.length (call.nameSpan.line - 1)) 0) call
    else return none
  return entries.filterMap id

/-- The entries of a source with the given syntax tree. A source that is not UTF-8 has none. -/
def entriesInTree (query : Query) (source : Bytes) (tree : Node) : Reporting (List Entry) :=
  match Utf8.decode source with
  | .error e => do
    Reporting.report (.undecodableSource e)
    return []
  | .ok code =>
    match callsOfTree source tree with
    | .error e => throw (.outOfSource e)
    | .ok parsed => callEntries query code parsed.calls

/-- The entries of a source. -/
def findEntries (query : Query) (source : Bytes) : Reporting (List Entry) :=
  entriesInTree query source (query.parse source)

end LogRef
