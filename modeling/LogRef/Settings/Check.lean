import LogRef.FileSystem.Path
import LogRef.Settings.Issue
import LogRef.Text.Blank
import LogRef.Text.LowerCase

/-!
# Checks

Reading texts, truth values, whole numbers, lists and fields from values. Truth values and numbers may be
written as texts, and texts as bytes; nothing else is turned into something else.
-/
namespace LogRef.Check

/-- The text of a value, if it is a text or the bytes of one. -/
def spelling? : Value → Option String
  | .text s => some s
  | .bytes b => (Utf8.decode b).toOption.map String.ofList
  | _ => none

/-- A text; bytes count as one if they are UTF-8. -/
def text (v : Value) : Checked String :=
  match v, spelling? v with
  | _, some s => .ok s
  | .bytes _, none | .ragged _, none => Checked.fail .notUnicode
  | _, none => Checked.fail .notText

def trueWords : List String := ["1", "true", "t", "yes", "y", "on"]

def falseWords : List String := ["0", "false", "f", "no", "n", "off"]

/-- A word with its ASCII letters in lower case. -/
def lowerWord (s : String) : String := String.ofList (s.toList.map Char.toLower)

/-- The truth value that a word stands for. -/
def truthOfWord (s : String) : Checked Bool :=
  let word := lowerWord s
  if trueWords.contains word then .ok true
  else if falseWords.contains word then .ok false
  else Checked.fail .unclearTruth

/-- The truth value that a number stands for; the number has to fit in a word. -/
def truthOfNumber (fits : Bool) (n : Int) : Checked Bool :=
  if !fits then Checked.fail .notTruth
  else if n = 1 then .ok true
  else if n = 0 then .ok false
  else Checked.fail .unclearTruth

/-- Whether a whole number fits in a word of 64 bits. -/
def fitsWord (n : Int) : Bool := -9223372036854775808 ≤ n && n ≤ 9223372036854775807

/-- Whether the whole part of a number with a fraction does; the least and the greatest do not. -/
def fitsInside (n : Int) : Bool := -9223372036854775808 < n && n < 9223372036854775807

def truth (v : Value) : Checked Bool :=
  match v with
  | .bool b => .ok b
  | .int n => truthOfNumber (fitsWord n) n
  | .float d =>
    match d.toInt? with
    | some n => truthOfNumber (fitsInside n) n
    | none => Checked.fail .notTruth
  | .text _ | .bytes _ => ((spelling? v).map truthOfWord).getD (Checked.fail .unclearTruth)
  | .ragged _ => Checked.fail .notUnicode
  | _ => Checked.fail .notTruth

/-- Blanks around a number; the ASCII separators are none. -/
def isOuterBlank (c : Char) : Bool := Text.isBlank c && !(28 ≤ c.toNat && c.toNat ≤ 31)

/-- A text without the blanks around it. -/
def trimNumber (s : List Char) : List Char :=
  ((s.dropWhile isOuterBlank).reverse.dropWhile isOuterBlank).reverse

/-- What is left of a number that begins with zeros and underscores, of which `last` came last: a point
keeps the character before it, and if nothing is left the last one stays. -/
def afterZeros (last : Char) : List Char → Option (List Char)
  | [] => some [last]
  | c :: rest =>
    if c = '0' || c = '_' then afterZeros c rest
    else if isAsciiDigit c || c = '-' then some (c :: rest)
    else if c = '.' then some (last :: c :: rest)
    else none

/-- A number without the zeros in front. -/
def dropZeros : List Char → Option (List Char)
  | [] => none
  | c :: rest =>
    if c = '0' then afterZeros c rest
    else if isAsciiDigit c || c = '-' then some (c :: rest)
    else none

/-- A number without a point and the zeros behind it, of which there has to be one. -/
def dropPoint (text : List Char) : List Char :=
  let whole := text.takeWhile (· != '.')
  let fraction := text.drop (whole.length + 1)
  if !fraction.isEmpty && fraction.all (· == '0') then whole else text

/-- A number without its underscores, which stand alone and inside. -/
def dropUnderscores (text : List Char) : Option (List Char) :=
  let groups := Text.splitOn '_' text
  if 1 < groups.length && groups.any List.isEmpty then none else some groups.flatten

/-- The bare number in a text: blanks around it, a plus sign, zeros in front, a point with zeros and
single underscores do not count. -/
def bareNumber (text : List Char) : Option (List Char) := do
  let t := trimNumber text
  let isPlus := t.head? = some '+'
  let t := if isPlus then t.drop 1 else t
  if isPlus && t.head? = some '-' then none
  let t ← if t.head? = some '-' then (dropZeros (t.drop 1)).map ('-' :: ·) else dropZeros t
  dropUnderscores (dropPoint t)

/-- The whole number that a text writes. -/
def numberOfText (s : String) : Checked Int :=
  match bareNumber s.toList with
  | none => Checked.fail .unclearNumber
  | some t =>
    let isNegative := t.head? = some '-'
    let digits := if isNegative then t.drop 1 else t
    if digits.isEmpty || !digits.all isAsciiDigit then Checked.fail .unclearNumber
    else if digitLimit < t.length then Checked.fail .hugeNumber
    else .ok (if isNegative then -(digitsValue digits : Int) else digitsValue digits)

def number (v : Value) : Checked Int :=
  match v with
  | .int n => .ok n
  | .bool b => .ok (if b then 1 else 0)
  | .float d =>
    match d.toInt? with
    | some n => if fitsInside n then .ok n else Checked.fail .hugeNumber
    | none => Checked.fail (if d.isFinite then .fractional else .notFinite)
  | .text _ | .bytes _ => ((spelling? v).map numberOfText).getD (Checked.fail .unclearNumber)
  | .ragged _ => Checked.fail .notUnicode
  | _ => Checked.fail .notNumber

/-- The items of a list, checked one by one; `i` is the position of the first. -/
def itemsFrom {α : Type} (check : Value → Checked α) : (i : Nat) → List Value → Checked (List α)
  | _, [] => .ok []
  | i, v :: rest =>
    (Checked.both ((check v).under (toString i)) (itemsFrom check (i + 1) rest)).map fun p => p.1 :: p.2

def list {α : Type} (check : Value → Checked α) : Value → Checked (List α)
  | .list items => itemsFrom check 0 items
  | _ => Checked.fail .notList

/-- A list with one item at least. -/
def someList {α : Type} (check : Value → Checked α) : Value → Checked (List α)
  | .list [] => Checked.fail .emptyList
  | v => list check v

/-- The fields of a value that should have those of `model`. -/
def fields (model : String) : Value → Checked (List (Value × Value))
  | .map pairs => .ok pairs
  | _ => Checked.fail (.notFields model)

/-- A field that has to be there. -/
def required {α : Type} (pairs : List (Value × Value)) (name : String) (check : Value → Checked α) :
    Checked α :=
  match Value.field? pairs name with
  | some v => (check v).under name
  | none => .error [⟨[name], .missing⟩]

/-- A field that may be left out. -/
def optional {α : Type} (pairs : List (Value × Value)) (name : String) (default : α)
    (check : Value → Checked α) : Checked α :=
  match Value.field? pairs name with
  | some v => (check v).under name
  | none => .ok default

/-- The issues of keys other than those allowed. Bytes that spell a field pass if the field is there under
its name. -/
def strangeKeys (allowed : List String) (pairs : List (Value × Value)) : List Issue :=
  pairs.filterMap fun p =>
    match spelling? p.1 with
    | some s =>
      if allowed.contains s && (Value.field? pairs s).isSome then none
      else some ⟨[p.1.keyName], .notAllowed⟩
    | none => some ⟨[p.1.keyName], .keyNotText⟩

end LogRef.Check
