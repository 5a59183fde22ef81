import LogRef.Yaml.Token

/-!
# Layout

How indentation and brackets turn a text into tokens. A word followed by `: ` on its line becomes a key
only when the colon is met; then the token that announces the key is put in front of it.
-/
namespace LogRef.Yaml

/-- A token that a colon may still turn into a key. -/
structure PossibleKey where
  /-- How many brackets are open around it. -/
  level : Nat
  /-- How many tokens stand before it. -/
  number : Nat
  /-- Whether it has to become one: it begins a line of a mapping. -/
  isRequired : Bool
  index : Nat
  line : Nat
  column : Nat
  deriving DecidableEq, Repr

/-- What has been read and how the next characters are to be taken. -/
structure Layout where
  cursor : Cursor
  tokens : Array Token
  /-- How many brackets are open. -/
  level : Nat
  /-- The column of the innermost block, or -1 outside of all. -/
  indent : Int
  /-- The columns of the blocks around it. -/
  outer : List Int
  allowsKey : Bool
  keys : List PossibleKey
  deriving Repr

namespace Layout

def start (text : List Char) : Layout :=
  { cursor := .start text, tokens := #[], level := 0, indent := -1, outer := [], allowsKey := true
    keys := [] }

def inFlow (s : Layout) : Bool := s.level != 0

def put (t : Token) (s : Layout) : Layout := { s with tokens := s.tokens.push t }

def moveTo (c : Cursor) (s : Layout) : Layout := { s with cursor := c }

def moveBy (n : Nat) (s : Layout) : Layout := { s with cursor := s.cursor.skip n }

/-- Sets whether the next token may be a key. -/
def allow (b : Bool) (s : Layout) : Layout := { s with allowsKey := b }

/-- Passes over blanks, comments and empty lines. -/
def skipToToken : (fuel : Nat) → Layout → Layout
  | 0, s => s
  | fuel + 1, s =>
    let c := s.cursor.skipComment
    if c.peek.any isBreak then
      skipToToken fuel { s with cursor := c.skip 1, allowsKey := s.allowsKey || !s.inFlow }
    else s.moveTo c

/-- The most characters that may stand between the start of a key and its colon. -/
def keyReach : Nat := 1024

/-- Whether a colon at the cursor comes too late for a key. -/
def isStale (c : Cursor) (k : PossibleKey) : Bool := k.line != c.line || keyReach < c.index - k.index

/-- Gives up keys that a colon would come too late for. -/
def dropStale (s : Layout) : Except Problem Layout :=
  if s.keys.any fun k => isStale s.cursor k && k.isRequired then .error .malformed
  else .ok { s with keys := s.keys.filter fun k => !isStale s.cursor k }

/-- Gives up the key at the current level. -/
def dropKey (s : Layout) : Except Problem Layout :=
  if s.keys.any fun k => k.level = s.level && k.isRequired then .error .malformed
  else .ok { s with keys := s.keys.filter fun k => k.level != s.level }

/-- Notes that the next token may become a key. -/
def noteKey (s : Layout) : Except Problem Layout := do
  if s.allowsKey then
    let key : PossibleKey := {
      level := s.level
      number := s.tokens.size
      isRequired := !s.inFlow && s.indent = s.cursor.column
      index := s.cursor.index
      line := s.cursor.line
      column := s.cursor.column }
    let s ← s.dropKey
    return { s with keys := s.keys ++ [key] }
  else return s

/-- Closes the blocks that are indented deeper than `column`, of which there are `outer.length` at most. -/
def closeBlocks (column : Int) : (outer : List Int) → Layout → Layout
  | [], s => s
  | next :: outer, s =>
    if column < s.indent then
      closeBlocks column outer { s with indent := next, outer, tokens := s.tokens.push .blockEnd }
    else s

/-- Closes the blocks that a token in `column` does not belong to; brackets hold them open. -/
def unwind (column : Int) (s : Layout) : Layout :=
  if s.inFlow then s else closeBlocks column s.outer s

/-- Opens a block at `column`, unless one is open there. -/
def openBlock (column : Nat) (s : Layout) : Option Layout :=
  if s.indent < column then some { s with indent := column, outer := s.indent :: s.outer } else none

/-- Opens a block at the cursor outside of brackets; `t` announces it. Only where a key may stand. -/
def beginBlock (t : Token) (s : Layout) : Except Problem Layout :=
  if s.inFlow then .ok s
  else if !s.allowsKey then .error .malformed
  else .ok (match s.openBlock s.cursor.column with
    | some s => s.put t
    | none => s)

/-- Everything that is open outside of brackets ends here. -/
def endBlocks (s : Layout) : Except Problem Layout := do
  let s ← (s.unwind (-1)).dropKey
  return s.allow false

def readDirective (s : Layout) : Except Problem Layout := do
  let s ← s.endBlocks
  let (d, rest) ← directiveOf (s.cursor.rest.drop 1)
  let c ← restOfLine (s.cursor.skipTo rest)
  return (s.moveTo c).put (.directive d)

def readMarker (t : Token) (s : Layout) : Except Problem Layout := do
  let s ← s.endBlocks
  return (s.moveBy 3).put t

def openFlow (t : Token) (s : Layout) : Except Problem Layout := do
  let s ← s.noteKey
  return ({ s with level := s.level + 1, allowsKey := true }.moveBy 1).put t

def closeFlow (t : Token) (s : Layout) : Except Problem Layout := do
  if s.level = 0 then throw .malformed
  let s ← s.dropKey
  return ({ s with level := s.level - 1, allowsKey := false }.moveBy 1).put t

def readFlowEntry (s : Layout) : Except Problem Layout := do
  let s ← s.dropKey
  return ((s.allow true).moveBy 1).put .flowEntry

def readBlockEntry (s : Layout) : Except Problem Layout := do
  let s ← (← s.beginBlock .blockSequenceStart).dropKey
  return ((s.allow true).moveBy 1).put .blockEntry

def readKey (s : Layout) : Except Problem Layout := do
  let s ← (← s.beginBlock .blockMappingStart).dropKey
  return ((s.allow (!s.inFlow)).moveBy 1).put .key

/-- A colon: the possible key before it becomes one, or a value without a key begins. -/
def readValue (s : Layout) : Except Problem Layout := do
  match s.keys.find? (·.level = s.level) with
  | some key =>
    let opened := if s.inFlow then none else s.openBlock key.column
    let tokens := s.tokens.insertIdxIfInBounds key.number .key
    let tokens :=
      if opened.isSome then tokens.insertIdxIfInBounds key.number .blockMappingStart else tokens
    let s := { opened.getD s with tokens, keys := s.keys.filter (·.level != s.level) }
    return ((s.allow false).moveBy 1).put .value
  | none =>
    let s ← (← s.beginBlock .blockMappingStart).dropKey
    return ((s.allow (!s.inFlow)).moveBy 1).put .value

/-- A token that may become a key, with what is left behind it. -/
def readNode (read : List Char → Except Problem (Token × List Char)) (s : Layout) :
    Except Problem Layout := do
  let s ← s.noteKey
  let (t, rest) ← read s.cursor.rest
  return ((s.allow false).moveTo (s.cursor.skipTo rest)).put t

def readBlockScalar (isFolded : Bool) (s : Layout) : Except Problem Layout := do
  let s ← s.dropKey
  let (text, c) ← blockScalar isFolded s.indent s.cursor
  return ((s.allow true).moveTo c).put (.scalar ⟨String.ofList text, false, false⟩)

def readQuoted (isDouble : Bool) (s : Layout) : Except Problem Layout := do
  let s ← s.noteKey
  let (scalar, c) ← quotedScalar isDouble s.cursor
  return ((s.allow false).moveTo c).put (.scalar scalar)

def readPlain (s : Layout) : Except Problem Layout := do
  let s ← s.noteKey
  let found := plainScalar s.inFlow (s.indent + 1) s.cursor
  let scalar : Scalar := ⟨String.ofList found.text, true, false⟩
  return ((s.allow found.allowsKey).moveTo found.cursor).put (.scalar scalar)

/-- Characters that begin something else than a plain scalar. -/
def isIndicator (c : Char) : Bool :=
  ['-', '?', ':', ',', '[', ']', '\x7b', '\x7d', '#', '&', '*', '!', '|', '>', '\'', '"', '%', '@',
    '\x60'].contains c

/-- Whether a plain scalar begins with `c` and then `next`. -/
def beginsPlain (inFlow : Bool) (c : Char) (next : Option Char) : Bool :=
  (!endsWord (some c) && !isIndicator c) ||
    (!endsWord next && (c = '-' || (!inFlow && (c = '?' || c = ':'))))

/-- Reads one token at the cursor, which begins with `c`. -/
def readToken (c : Char) (s : Layout) : Except Problem Layout :=
  let text := s.cursor.rest
  let next := text[1]?
  let atLineStart := s.cursor.column = 0
  if c = '%' && atLineStart then s.readDirective
  else if atLineStart && beginsMarker text then
    s.readMarker (if c = '-' then .documentStart else .documentEnd)
  else if c = '[' then s.openFlow .flowSequenceStart
  else if c = '\x7b' then s.openFlow .flowMappingStart
  else if c = ']' then s.closeFlow .flowSequenceEnd
  else if c = '\x7d' then s.closeFlow .flowMappingEnd
  else if c = ',' then s.readFlowEntry
  else if c = '-' && endsWord next then s.readBlockEntry
  else if c = '?' && (s.inFlow || endsWord next) then s.readKey
  else if c = ':' && (s.inFlow || endsWord next) then s.readValue
  else if c = '*' then s.readNode fun text => do
    let (name, rest) ← anchorName (text.drop 1)
    return (.alias name, rest)
  else if c = '&' then s.readNode fun text => do
    let (name, rest) ← anchorName (text.drop 1)
    return (.anchor name, rest)
  else if c = '!' then s.readNode tagToken
  else if c = '|' && !s.inFlow then s.readBlockScalar false
  else if c = '>' && !s.inFlow then s.readBlockScalar true
  else if c = '\'' then s.readQuoted false
  else if c = '"' then s.readQuoted true
  else if beginsPlain s.inFlow c next then s.readPlain
  else .error .malformed

/-- Reads the next token, if there is one; at the end of the text, everything ends. -/
def readNext (s : Layout) : Except Problem (Bool × Layout) := do
  let s ← (s.skipToToken (s.cursor.rest.length + 1)).dropStale
  let s := s.unwind s.cursor.column
  match s.cursor.peek with
  | none => return (false, (← s.endBlocks).put .streamEnd)
  | some c => return (true, ← s.readToken c)

/-- The tokens that no colon can change any more: those before the first that may become a key. -/
def settled (s : Layout) : List Token :=
  let pending := s.keys.filter fun k => k.isRequired || !isStale s.cursor k
  (s.tokens.take (pending.foldl (fun n k => min n k.number) s.tokens.size)).toList

end Layout

/-- The tokens of a text up to the first problem. -/
structure Scan where
  tokens : List Token
  problem : Option Problem
  deriving Repr

/-- Reads tokens up to the end of the text or the first problem. -/
def Layout.readAll : (fuel : Nat) → Layout → Scan
  | 0, s => ⟨s.settled, some .malformed⟩
  | fuel + 1, s =>
    match s.readNext with
    | .ok (true, next) => next.readAll fuel
    | .ok (false, last) => ⟨last.tokens.toList, none⟩
    | .error p => ⟨s.settled, some p⟩

/-- Characters that may stand in a document. -/
def isPrintable (c : Char) : Bool :=
  c = '\t' || c = '\n' || c = '\r' || (' ' ≤ c && c ≤ '~') || c = '\x85' ||
    (0xA0 ≤ c.toNat && c.toNat ≤ 0xFFFD) || 0x10000 ≤ c.toNat

/-- The tokens of a document; a byte order mark at its start is passed over. -/
def tokensOf (text : List Char) : Scan :=
  if !text.all isPrintable then ⟨[], some .malformed⟩
  else
    let s := Layout.start text
    let s := if text.head? = some byteOrderMark then s.moveBy 1 else s
    s.readAll (text.length + 2)

end LogRef.Yaml
