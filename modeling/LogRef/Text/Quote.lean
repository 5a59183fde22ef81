import LogRef.Text.Printable

/-!
# Quoted text in messages

A text in a message stands between single quotes, or between double quotes if it holds single quotes
and no double ones. Backslashes and characters that are not printable are escaped.
-/
namespace LogRef.Text

/-- A number in hexadecimal with `width` digits. -/
def hexDigits (width n : Nat) : List Char :=
  let digits := Nat.toDigits 16 n
  List.replicate (width - digits.length) '0' ++ digits

/-- The code of a character as an escape, as short as there is one. -/
def codeEscape (n : Nat) : List Char :=
  if n < 0x100 then ['\\', 'x'] ++ hexDigits 2 n
  else if n < 0x10000 then ['\\', 'u'] ++ hexDigits 4 n
  else ['\\', 'U'] ++ hexDigits 8 n

/-- One character of a text quoted with `mark`. -/
def quoteChar (mark c : Char) : List Char :=
  if c = mark || c = '\\' then ['\\', c]
  else if c = '\n' then ['\\', 'n']
  else if c = '\r' then ['\\', 'r']
  else if c = '\t' then ['\\', 't']
  else if isPrintable c then [c] else codeEscape c.toNat

/-- The quote for a text. -/
def quoteMark (text : List Char) : Char :=
  if text.contains '\'' && !text.contains '"' then '"' else '\''

/-- A text between quotes. -/
def quoted (s : String) : String :=
  let mark := quoteMark s.toList
  String.ofList (mark :: s.toList.flatMap (quoteChar mark) ++ [mark])

/-- One byte of a byte string quoted with `mark`. -/
def quoteByteWith (mark : Char) (b : UInt8) : List Char :=
  if b < 0x80 then quoteChar mark (Char.ofNat b.toNat) else codeEscape b.toNat

/-- A byte string between quotes. -/
def quotedBytes (bytes : List UInt8) : String :=
  let mark := quoteMark (bytes.map fun b => Char.ofNat b.toNat)
  String.ofList ('b' :: mark :: bytes.flatMap (quoteByteWith mark) ++ [mark])

end LogRef.Text
