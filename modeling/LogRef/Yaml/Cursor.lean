/-!
# Cursors

A place in a document: what is left of the text, and where that begins.
-/
namespace LogRef.Yaml

/-- Characters that end a line. Carriage returns are gone before a document is read. -/
def isBreak (c : Char) : Bool := c = '\n' || c = '\x85' || c = '\u2028' || c = '\u2029'

/-- The form in which a line break enters a text. -/
def breakText (c : Char) : Char := if c = '\x85' then '\n' else c

/-- Whether a line is over: nothing is left, or a line break follows. -/
def endsLine : Option Char → Bool
  | none => true
  | some c => isBreak c

/-- Whether a word is over: nothing is left, or a blank, a tab or a line break follows. -/
def endsWord : Option Char → Bool
  | none => true
  | some c => c = ' ' || c = '\t' || isBreak c

/-- Whether a text begins with a line `---` or `...`. -/
def beginsMarker (text : List Char) : Bool :=
  (['-', '-', '-'].isPrefixOf text || ['.', '.', '.'].isPrefixOf text) && endsWord text[3]?

/-- The mark that may stand at the very start of a document and takes no column. -/
def byteOrderMark : Char := '\ufeff'

structure Cursor where
  rest : List Char
  index : Nat
  line : Nat
  column : Nat
  deriving DecidableEq, Repr

namespace Cursor

def start (text : List Char) : Cursor := ⟨text, 0, 0, 0⟩

def peek (c : Cursor) : Option Char := c.rest.head?

/-- The cursor `n` characters further. -/
def skip : (n : Nat) → Cursor → Cursor
  | 0, c => c
  | _ + 1, ⟨[], i, l, col⟩ => ⟨[], i, l, col⟩
  | n + 1, ⟨x :: rest, i, l, col⟩ =>
    if isBreak x then skip n ⟨rest, i + 1, l + 1, 0⟩
    else skip n ⟨rest, i + 1, l, if x = byteOrderMark then col else col + 1⟩

/-- The cursor at a suffix of what is left. -/
def skipTo (rest : List Char) (c : Cursor) : Cursor := c.skip (c.rest.length - rest.length)

/-- The cursor after all characters that `p` holds of. -/
def skipWhile (p : Char → Bool) (c : Cursor) : Cursor := c.skip (c.rest.takeWhile p).length

/-- The cursor after blanks and a comment. -/
def skipComment (c : Cursor) : Cursor :=
  let c := c.skipWhile (· == ' ')
  if c.peek = some '#' then c.skipWhile (!isBreak ·) else c

end Cursor

end LogRef.Yaml
