import LogRef.Value

/-!
# Issues

What is wrong with a value that should be a setting. All issues of a value are found, not only the first.
-/
namespace LogRef

/-- What is wrong at one place. -/
inductive Issue.Cause
  | missing
  | notAllowed
  /-- The fields of `model` should be here. -/
  | notFields (model : String)
  | keyNotText
  | notText
  | notUnicode
  | notList
  | emptyList
  | notPath
  | refused (why : String)
  | notTruth
  | unclearTruth
  | notNumber
  | unclearNumber
  | hugeNumber
  | fractional
  | notFinite
  | below (least : Int)
  | above (greatest : Int)
  deriving DecidableEq, Repr

/-- Something wrong, and the keys on the way to it. -/
structure Issue where
  place : List String
  cause : Issue.Cause
  deriving DecidableEq, Repr

namespace Issue

/-- The short name of a cause. -/
def Cause.code : Cause → String
  | missing => "missing"
  | notAllowed => "extra_forbidden"
  | notFields _ => "model_type"
  | keyNotText => "invalid_key"
  | notText => "string_type"
  | notUnicode => "string_unicode"
  | notList => "list_type"
  | emptyList => "too_short"
  | notPath => "path_type"
  | refused _ => "value_error"
  | notTruth => "bool_type"
  | unclearTruth => "bool_parsing"
  | notNumber => "int_type"
  | unclearNumber => "int_parsing"
  | hugeNumber => "int_parsing_size"
  | fractional => "int_from_float"
  | notFinite => "finite_number"
  | below _ => "greater_than_equal"
  | above _ => "less_than_equal"

def Cause.message : Cause → String
  | missing => "Field required"
  | notAllowed => "Extra inputs are not permitted"
  | notFields model => s!"Input should be a valid dictionary or instance of {model}"
  | keyNotText => "Keys should be strings"
  | notText => "Input should be a valid string"
  | notUnicode => "Input should be a valid string, unable to parse raw data as a unicode string"
  | notList => "Input should be a valid list"
  | emptyList => "List should have at least 1 item after validation, not 0"
  | notPath => "Input is not a valid path for <class 'pathlib.Path'>"
  | refused why => s!"Value error, {why}"
  | notTruth => "Input should be a valid boolean"
  | unclearTruth => "Input should be a valid boolean, unable to interpret input"
  | notNumber => "Input should be a valid integer"
  | unclearNumber => "Input should be a valid integer, unable to parse string as an integer"
  | hugeNumber => "Unable to parse input string as an integer, exceeded maximum size"
  | fractional => "Input should be a valid integer, got a number with a fractional part"
  | notFinite => "Input should be a finite number"
  | below least => s!"Input should be greater than or equal to {least}"
  | above greatest => s!"Input should be less than or equal to {greatest}"

/-- The issue seen from one key further out. -/
def under (key : String) (i : Issue) : Issue := { i with place := key :: i.place }

/-- The three texts of an issue: place, short name and message. -/
def row (i : Issue) : List String := [".".intercalate i.place, i.cause.code, i.cause.message]

/-- The rows of issues in the order of their texts. -/
def rows (issues : List Issue) : List (List String) :=
  (issues.map row).mergeSort fun a b => !b.lex a

/-- Issues in one line. -/
def summary (issues : List Issue) : String :=
  "; ".intercalate ((rows issues).map fun r => ": ".intercalate (r.take 2))

end Issue

/-- A checked value, or all that is wrong with it. -/
abbrev Checked := Except (List Issue)

namespace Checked

def fail {α : Type} (cause : Issue.Cause) : Checked α := .error [⟨[], cause⟩]

/-- The issues of a value found under a key. -/
def under {α : Type} (key : String) (c : Checked α) : Checked α :=
  c.mapError fun issues => issues.map (Issue.under key)

/-- The issues found. -/
def issues {α : Type} : Checked α → List Issue
  | .ok _ => []
  | .error issues => issues

/-- Two checks, with the issues of both. -/
def both {α β : Type} (a : Checked α) (b : Checked β) : Checked (α × β) :=
  match a, b with
  | .ok x, .ok y => .ok (x, y)
  | a, b => .error (a.issues ++ b.issues)

/-- A check that adds issues found elsewhere. -/
def orIssues {α : Type} (c : Checked α) (more : List Issue) : Checked α :=
  match c, more with
  | .ok x, [] => .ok x
  | c, more => .error (c.issues ++ more)

end Checked

end LogRef
