import LogRef.Text.Utf8

/-!
# Lines and spans

Where lines begin, and byte ranges with the line and column of their first byte. Lines and columns count
from one, and columns count bytes.
-/
namespace LogRef

/-- The line feed byte. -/
def lineFeed : UInt8 := 10

/-- The positions right after each `newline` of `xs`, the first element standing at `position`. -/
def lineStartsFrom {α : Type} [DecidableEq α] (newline : α) (position : Nat) : List α → List Nat
  | [] => []
  | x :: rest =>
    if x = newline then (position + 1) :: lineStartsFrom newline (position + 1) rest
    else lineStartsFrom newline (position + 1) rest

/-- Where the lines of a sequence begin; the first one begins at zero. -/
def lineStarts {α : Type} [DecidableEq α] (newline : α) (xs : List α) : List Nat :=
  0 :: lineStartsFrom newline 0 xs

/-- Where the lines of a file begin, in bytes. -/
def byteLineStarts (source : Bytes) : List Nat := lineStarts lineFeed source

/-- Where the lines of a text begin, in characters. -/
def charLineStarts (text : List Char) : List Nat := lineStarts '\n' text

/-- A byte range with the line and column of its start. -/
structure Span where
  start : Int
  stop : Int
  line : Int
  column : Int
  deriving DecidableEq, Repr, Inhabited

/-- The span from `start` to `stop` in a file whose lines begin at `starts`. A start before the file is on
line zero, with the column counted from the last line. -/
def Span.ofRange (starts : List Nat) (start stop : Int) : Span :=
  let begun := starts.takeWhile fun (s : Nat) => s ≤ start
  { start, stop, line := begun.length, column := start - begun.getLastD (starts.getLastD 0) + 1 }

end LogRef
