import LogRef.Text.Utf8
import LogRef.Yaml.Cursor
import LogRef.Yaml.Problem

/-!
# Scalars

The texts that plain, quoted and block scalars stand for. Lines are folded: a single line break reads as a
blank, more of them as themselves without the first.
-/
namespace LogRef.Yaml

structure Scalar where
  text : String
  /-- Whether the text itself tells what kind of value it is. -/
  isPlain : Bool
  /-- Whether half of a surrogate pair is in the text. -/
  isRagged : Bool
  deriving DecidableEq, Repr

/-- What the line break `first` and the breaks after it read as. -/
def folded (first : Char) (more : List Char) : List Char :=
  (if breakText first != '\n' then [first] else if more.isEmpty then [' '] else []) ++ more

/-! ## Plain scalars -/

/-- The characters of brackets and the comma between them. -/
def isFlowMark (c : Char) : Bool := [',', '[', ']', '\x7b', '\x7d'].contains c

/-- How many characters a word of a plain scalar has. -/
def plainLength (inFlow : Bool) : List Char → Nat
  | [] => 0
  | c :: rest =>
    let afterColon := endsWord rest.head? || (inFlow && rest.head?.any isFlowMark)
    if endsWord (some c) || (c = ':' && afterColon) || (inFlow && (isFlowMark c || c = '?')) then 0
    else plainLength inFlow rest + 1

/-- Blanks between the words of a scalar: what they read as, how many characters they are, and whether
they hold a line break. -/
structure Spacing where
  text : List Char
  size : Nat
  crossesLine : Bool
  deriving Repr

/-- Empty and indented lines: their breaks, how many characters they are, and whether a document marker
ends them. -/
def blankLines : List Char → List Char × Nat × Bool
  | [] => ([], 0, false)
  | c :: rest =>
    if c = ' ' then
      let (breaks, n, marker) := blankLines rest
      (breaks, n + 1, marker)
    else if isBreak c then
      if beginsMarker rest then ([breakText c], 1, true)
      else
        let (breaks, n, marker) := blankLines rest
        (breakText c :: breaks, n + 1, marker)
    else ([], 0, false)

/-- The blanks after a word of a plain scalar. None are reported if a document marker follows. -/
def plainSpacing (text : List Char) : Spacing :=
  let blanks := text.takeWhile (· == ' ')
  match text.drop blanks.length with
  | [] => ⟨blanks, blanks.length, false⟩
  | b :: rest =>
    if isBreak b then
      if beginsMarker rest then ⟨[], blanks.length + 1, true⟩
      else
        let (breaks, n, marker) := blankLines rest
        ⟨if marker then [] else folded b breaks, blanks.length + 1 + n, true⟩
    else ⟨blanks, blanks.length, false⟩

/-- A scalar with the cursor behind it, and whether a key may follow. -/
structure Scanned where
  text : List Char
  allowsKey : Bool
  cursor : Cursor
  deriving Repr

/-- The words of a plain scalar from a cursor on, after the blanks `spaces`; outside of brackets each line
is indented by `indent` at least. -/
def plainFrom (inFlow : Bool) (indent : Int) :
    (fuel : Nat) → Cursor → (spaces : List Char) → (allowsKey : Bool) → Scanned
  | 0, c, _, allowsKey => ⟨[], allowsKey, c⟩
  | fuel + 1, c, spaces, allowsKey =>
    let n := if c.peek = some '#' then 0 else plainLength inFlow c.rest
    if n = 0 then ⟨[], allowsKey, c⟩
    else
      let word := spaces ++ c.rest.take n
      let after := c.skip n
      let spacing := plainSpacing after.rest
      let next := after.skip spacing.size
      if spacing.text.isEmpty || next.peek = some '#' || (!inFlow && next.column < indent) then
        ⟨word, spacing.crossesLine, next⟩
      else
        let more := plainFrom inFlow indent fuel next spacing.text spacing.crossesLine
        { more with text := word ++ more.text }

/-- The plain scalar at a cursor. -/
def plainScalar (inFlow : Bool) (indent : Int) (c : Cursor) : Scanned :=
  plainFrom inFlow indent (c.rest.length + 1) c [] false

/-! ## Quoted scalars -/

/-- The line breaks at the front of a text, with blanks around them, and the rest. No document marker may
begin a line. -/
def quotedBreaks : (fuel : Nat) → List Char → Except Problem (List Char × List Char)
  | 0, _ => .error .malformed
  | fuel + 1, text =>
    if beginsMarker text then .error .malformed
    else
      match text.dropWhile fun c => c == ' ' || c == '\t' with
      | [] => .ok ([], [])
      | c :: rest =>
        if isBreak c then do
          let (breaks, rest) ← quotedBreaks fuel rest
          return (breakText c :: breaks, rest)
        else .ok ([], c :: rest)

/-- What a backslash and a character stand for together. -/
def escapedChar : Char → Option Char
  | '0' => some '\x00'
  | 'a' => some '\x07'
  | 'b' => some '\x08'
  | 't' | '\t' => some '\t'
  | 'n' => some '\n'
  | 'v' => some '\x0b'
  | 'f' => some '\x0c'
  | 'r' => some '\r'
  | 'e' => some '\x1b'
  | ' ' => some ' '
  | '"' => some '"'
  | '\\' => some '\\'
  | '/' => some '/'
  | 'N' => some '\x85'
  | '_' => some '\xa0'
  | 'L' => some '\u2028'
  | 'P' => some '\u2029'
  | _ => none

/-- How many hexadecimal digits follow a backslash and a character. -/
def escapeDigits : Char → Option Nat
  | 'x' => some 2
  | 'u' => some 4
  | 'U' => some 8
  | _ => none

/-- The value of a hexadecimal digit. -/
def hexValue? (c : Char) : Option Nat :=
  if '0' ≤ c && c ≤ '9' then some (c.toNat - 48)
  else if 'a' ≤ c && c ≤ 'f' then some (c.toNat - 87)
  else if 'A' ≤ c && c ≤ 'F' then some (c.toNat - 55)
  else none

/-- The number that hexadecimal digits write. -/
def hexNumber (digits : List Char) : Option Nat :=
  digits.foldlM (fun n c => (hexValue? c).map (n * 16 + ·)) 0

/-- The character of a hexadecimal code with `n` digits at the front of a text, and the rest. Half of a
surrogate pair shows as three replacement characters, one for each byte. -/
def codedChar (n : Nat) (text : List Char) : Except Problem (List Char × List Char) :=
  match hexNumber (text.take n) with
  | some code =>
    if text.length < n then .error .malformed
    else if 0x110000 ≤ code then .error (.fault (.badValue "chr() arg not in range(0x110000)"))
    else .ok (if code.isValidChar then [Char.ofNat code] else List.replicate 3 '\ufffd', text.drop n)
  | none => .error .malformed

/-- What an escape reads as, from the character after the backslash on, and the rest. -/
def escape (text : List Char) : Except Problem (List Char × List Char) :=
  match text with
  | [] => .error .malformed
  | c :: rest =>
    match escapedChar c, escapeDigits c with
    | some d, _ => .ok ([d], rest)
    | none, some n => codedChar n rest
    | none, none => if isBreak c then quotedBreaks (rest.length + 1) rest else .error .malformed

/-- The text up to the closing quote, and the rest behind it. -/
def quotedFrom (isDouble : Bool) : (fuel : Nat) → List Char → Except Problem (List Char × List Char)
  | 0, _ => .error .malformed
  | fuel + 1, text => do
    let put (piece rest : List Char) := do
      let (more, rest) ← quotedFrom isDouble fuel rest
      return (piece ++ more, rest)
    let blanks := text.takeWhile fun c => c == ' ' || c == '\t'
    match text.drop blanks.length with
    | [] => throw .malformed
    | c :: rest =>
      if isBreak c then
        let (breaks, rest) ← quotedBreaks (rest.length + 1) rest
        put (folded c breaks) rest
      else if !blanks.isEmpty then put blanks (c :: rest)
      else if isDouble && c = '\\' then
        let (piece, rest) ← escape rest
        put piece rest
      else if isDouble && c = '"' then return ([], rest)
      else if !isDouble && c = '\'' then
        match rest with
        | '\'' :: rest => put ['\''] rest
        | _ => return ([], rest)
      else put [c] rest

/-- Whether an escape in a text stands for half of a surrogate pair. -/
def hasHalfPair : List Char → Bool
  | [] => false
  | '\\' :: c :: rest =>
    ((escapeDigits c).bind fun n => hexNumber (rest.take n)).any (!·.isValidChar) || hasHalfPair rest
  | _ :: rest => hasHalfPair rest

/-- The quoted scalar at a cursor, which is at its opening quote. -/
def quotedScalar (isDouble : Bool) (c : Cursor) : Except Problem (Scalar × Cursor) := do
  let body := c.rest.drop 1
  let (text, rest) ← quotedFrom isDouble (body.length + 1) body
  let isRagged := isDouble && hasHalfPair (body.take (body.length - rest.length))
  return (⟨String.ofList text, false, isRagged⟩, c.skipTo rest)

/-! ## Block scalars -/

/-- What happens to the line breaks at the end of a block scalar: all are kept, one is, or none. -/
inductive Chomping
  | keep
  | clip
  | strip
  deriving DecidableEq, Repr

/-- The sign of a block scalar's header, if one is next. -/
def chompingSign : List Char → Option Chomping
  | '+' :: _ => some .keep
  | '-' :: _ => some .strip
  | _ => none

/-- The digit of a block scalar's header, if one is next; it may not be zero. -/
def indentDigit : List Char → Except Problem (Option Nat)
  | c :: _ =>
    if c = '0' then .error .malformed
    else if '1' ≤ c && c ≤ '9' then .ok (some (c.toNat - 48)) else .ok none
  | [] => .ok none

/-- The header of a block scalar: sign and digit in any order, and how many characters they are. -/
def blockHeader (text : List Char) : Except Problem (Chomping × Option Nat × Nat) := do
  match chompingSign text with
  | some sign =>
    match ← indentDigit (text.drop 1) with
    | some digit => return (sign, some digit, 2)
    | none => return (sign, none, 1)
  | none =>
    match ← indentDigit text with
    | some digit =>
      match chompingSign (text.drop 1) with
      | some sign => return (sign, some digit, 2)
      | none => return (.clip, some digit, 1)
    | none => return (.clip, none, 0)

/-- The rest of a line, which may hold nothing but a comment, and its break. -/
def restOfLine (c : Cursor) : Except Problem Cursor :=
  let c := c.skipComment
  if endsLine c.peek then .ok (c.skip 1) else .error .malformed

/-- The empty lines at the front of a block scalar: their breaks, the widest indentation, and how many
characters they are. -/
def leadingLines (column : Nat) : List Char → List Char × Nat × Nat
  | [] => ([], 0, 0)
  | c :: rest =>
    if c = ' ' then
      let (breaks, widest, n) := leadingLines (column + 1) rest
      (breaks, max widest (column + 1), n + 1)
    else if isBreak c then
      let (breaks, widest, n) := leadingLines 0 rest
      (breakText c :: breaks, widest, n + 1)
    else ([], 0, 0)

/-- Line breaks with at most `indent` columns of blanks after each: the breaks, and how many characters
all is. -/
def indentedBreaks (indent column : Nat) : List Char → List Char × Nat
  | [] => ([], 0)
  | c :: rest =>
    if c = ' ' then
      if column < indent then
        let (breaks, n) := indentedBreaks indent (column + 1) rest
        (breaks, n + 1)
      else ([], 0)
    else if isBreak c then
      let (breaks, n) := indentedBreaks indent 0 rest
      (breakText c :: breaks, n + 1)
    else ([], 0)

/-- Whether a line of a block scalar begins at the cursor. -/
def atBlockLine (indent : Nat) (c : Cursor) : Bool := c.column = indent && c.peek.isSome

/-- Whether the text at a cursor begins with a blank or a tab. -/
def isIndentedMore (c : Cursor) : Bool := c.peek = some ' ' || c.peek = some '\t'

/-- The lines of a block scalar from a cursor on, after the breaks `breaks`, with the breaks at their
end: the last line's own and those of the empty lines after it. -/
def blockLines (isFolded : Bool) (indent : Nat) :
    (fuel : Nat) → Cursor → (breaks : List Char) → List Char × List Char × List Char × Cursor
  | 0, c, breaks => ([], [], breaks, c)
  | fuel + 1, c, breaks =>
    if !atBlockLine indent c then ([], [], breaks, c)
    else
      let line := c.rest.takeWhile (!isBreak ·)
      let atEnd := c.skip line.length
      let own := atEnd.peek.toList.map breakText
      let next := atEnd.skip 1
      let (empty, n) := indentedBreaks indent next.column next.rest
      let after := next.skip n
      if atBlockLine indent after then
        let joint :=
          if isFolded && own = ['\n'] && !isIndentedMore c && !isIndentedMore after then
            if empty.isEmpty then [' '] else []
          else own
        let (text, last, tail, stop) := blockLines isFolded indent fuel after empty
        (breaks ++ line ++ joint ++ text, last, tail, stop)
      else (breaks ++ line, own, empty, after)

/-- The block scalar at a cursor, which is at its `|` or `>`, in a block indented by `outer`. -/
def blockScalar (isFolded : Bool) (outer : Int) (c : Cursor) : Except Problem (List Char × Cursor) := do
  let (chomping, digit, n) ← blockHeader (c.rest.drop 1)
  let afterHeader := c.skip (n + 1)
  if !(afterHeader.peek = some ' ' || endsLine afterHeader.peek) then throw .malformed
  let first ← restOfLine afterHeader
  let least := (max 1 (outer + 1)).toNat
  let (indent, breaks, size) := match digit with
    | some d =>
      let indent := least + d - 1
      let (breaks, size) := indentedBreaks indent first.column first.rest
      (indent, breaks, size)
    | none =>
      let (breaks, widest, size) := leadingLines first.column first.rest
      (max least widest, breaks, size)
  let (text, last, tail, stop) :=
    blockLines isFolded indent (first.rest.length + 1) (first.skip size) breaks
  let ending := match chomping with
    | .keep => last ++ tail
    | .clip => last
    | .strip => []
  return (text ++ ending, stop)

end LogRef.Yaml
