import LogRef.Moment
import LogRef.Number.Double
import LogRef.Reference.Id
import LogRef.Text.Quote
import LogRef.Text.Utf8

/-!
# Values

What a settings document holds, before it is checked.
-/
namespace LogRef

inductive Value
  | null
  | bool (b : Bool)
  | int (n : Int)
  | float (d : Double)
  | text (s : String)
  /-- A text with half of a surrogate pair in it, as it is shown. -/
  | ragged (shown : String)
  | bytes (b : Bytes)
  | moment (m : Moment)
  | list (items : List Value)
  | map (pairs : List (Value × Value))
  /-- A value of a kind that no setting takes. -/
  | other
  deriving Repr, Inhabited

namespace Value

/-- The whole number that a key counts as: numbers and truth values that are equal are one key. -/
def number? : Value → Option Int
  | bool b => some (if b then 1 else 0)
  | int n => some n
  | float d => d.toInt?
  | _ => none

/-- Whether two values are the same key. -/
def isSameKey (a b : Value) : Bool :=
  match a.number?, b.number? with
  | some m, some n => m == n
  | none, none =>
    match a, b with
    | null, null => true
    | text s, text t => s == t
    | ragged s, ragged t => s == t
    | bytes b, bytes c => b == c
    | moment m, moment n => m.isSame n
    | float d, float e => d == e
    | _, _ => false
  | _, _ => false

/-- How a key is shown. -/
def keyName : Value → String
  | null => "None"
  | bool b => if b then "True" else "False"
  | int n =>
    if digitLimit < (Nat.toDigits 10 n.natAbs).length then "<unprintable int object>" else toString n
  | float d => d.text
  | text s | ragged s => s
  | bytes b => Text.quotedBytes b
  | moment m => m.text
  | _ => ""

/-- Enters a value under a key; a key that is there keeps its place. -/
def enter (pairs : List (Value × Value)) (key value : Value) : List (Value × Value) :=
  if pairs.any fun p => p.1.isSameKey key then
    pairs.map fun p => if p.1.isSameKey key then (p.1, value) else p
  else pairs ++ [(key, value)]

/-- The value under a text key. -/
def field? (pairs : List (Value × Value)) (name : String) : Option Value :=
  (pairs.find? fun p => match p.1 with
    | text s => s == name
    | _ => false).map (·.2)

end Value

end LogRef
