import LogRef.Reference.Id

/-!
# Call sites

A log call and the reference found at it, or the place where one goes.
-/
namespace LogRef

/-- A place in a file: the byte offset from zero, line and column from one. A negative offset counts from
the end. -/
structure Position where
  offset : Int
  line : Int
  column : Int
  deriving DecidableEq, Repr, Inhabited

/-- Where the reference of a call lives. -/
inductive Site
  | unknown
  /-- At the head of the message. -/
  | message
  /-- In a `ref` argument that is there already. -/
  | givenArgument
  /-- In a `ref` argument still to be written. -/
  | newArgument
  deriving DecidableEq, Repr, Inhabited

/-- A log call with its reference, and the text to put around a new one. -/
structure Entry where
  position : Position
  reference : Option Int
  macroName : String
  site : Site
  before : Option String
  after : Option String
  deriving DecidableEq, Repr, Inhabited

namespace Entry

def hasReference (e : Entry) : Bool := e.reference.isSome

/-- A `ref` argument whose value is no id is neither a reference nor a place for one. -/
def isUsable (e : Entry) : Bool := !(e.site = .givenArgument && !e.hasReference)

/-- The text that writes `id` at this place. -/
def markFor (e : Entry) (id : Int) : String :=
  match e.before, e.after with
  | none, none => s!"[ref: {id}] "
  | before, after => before.getD "" ++ toString id ++ after.getD ""

end Entry

end LogRef
