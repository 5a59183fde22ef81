import LogRef.Text.Digit

/-!
# Reference ids

An id is a number that fits in 32 bits. It is written in decimal, and read back from plain decimal digits
or from the mark `[ref: N]` at the head of a message.
-/
namespace LogRef

/-- The largest id an annotation can hold. -/
def greatestId : Nat := 4294967295

/-- The most digits that are read as a number. -/
def digitLimit : Nat := 4300

/-- A decimal number with more digits than are read. -/
structure TooManyDigits where
  count : Nat
  deriving DecidableEq, Repr

def TooManyDigits.message (e : TooManyDigits) : String :=
  s!"Exceeds the limit ({digitLimit} digits) for integer string conversion: value has {e.count} " ++
    "digits; use sys.set_int_max_str_digits() to increase the limit"

/-- The id that plain digits write, if it is one. -/
def readId (text : List Char) : Except TooManyDigits (Option Nat) :=
  if text.isEmpty || !text.all isAsciiDigit then .ok none
  else if digitLimit < text.length then .error ⟨text.length⟩
  else
    let n := digitsValue text
    .ok (if n ≤ greatestId then some n else none)

/-- What a mark in a message begins with. -/
def markOpening : List Char := "[ref: ".toList

/-- The id of a mark `[ref: N]` at the head of a message; it has at most ten digits. -/
def readMark (text : List Char) : Option Nat :=
  if markOpening.isPrefixOf text then
    let rest := text.drop markOpening.length
    let digits := rest.takeWhile isAsciiDigit
    let n := digitsValue digits
    if 1 ≤ digits.length ∧ digits.length ≤ 10 ∧
        (rest.drop digits.length).head? = some ']' ∧ n ≤ greatestId then some n
    else none
  else none

end LogRef
