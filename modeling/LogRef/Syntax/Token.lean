import LogRef.Text.Utf8
import LogRef.Syntax.Node

/-!
# Tokens of a bracketed tree

A tree's own tokens: its named children, and between them the words and single bytes of the source.
Blanks and comments fall away; nothing else does.
-/
namespace LogRef

inductive Token.Kind
  | word
  | punct
  | atom
  | string
  | tree
  deriving DecidableEq, Repr, Inhabited

/-- A token: what it is, the bytes it covers, and those bytes. -/
structure Token where
  kind : Token.Kind
  start : Int
  stop : Int
  text : Bytes
  deriving DecidableEq, Repr, Inhabited

/-- A tree reaches past the end of its source. -/
inductive OutOfSource
  | mk
  deriving DecidableEq, Repr

def OutOfSource.message (_ : OutOfSource) : String := "index out of range"

/-- The code of an ASCII character, as a byte. -/
def asciiByte (c : Char) : UInt8 := c.toNat.toUInt8

def isSpaceByte (b : UInt8) : Bool := b == 32 || (9 ≤ b && b ≤ 13)

def isWordByte (b : UInt8) : Bool :=
  (48 ≤ b && b ≤ 57) || (65 ≤ b && b ≤ 90) || (97 ≤ b && b ≤ 122) || b == 95

def punctuation : Bytes := Bytes.ofString ",;:=!.?&*+-/%^|<>@#$~"

def isPunctByte (b : UInt8) : Bool := punctuation.contains b

/-- A run of word bytes or a single byte between named nodes: what it is and where it stands. -/
structure Piece where
  kind : Token.Kind
  start : Int
  stop : Int
  deriving DecidableEq, Repr

/-- The pieces of bare source bytes that begin at `position`: runs of word bytes, and every other byte
that is no blank on its own. -/
def piecesOf (position : Int) : Bytes → List Piece
  | [] => []
  | b :: rest =>
    let pieces := piecesOf (position + 1) rest
    if isSpaceByte b then pieces
    else if isWordByte b then
      match pieces with
      | p :: more =>
        if p.kind = .word ∧ p.start = position + 1 then ⟨.word, position, p.stop⟩ :: more
        else ⟨.word, position, position + 1⟩ :: pieces
      | [] => [⟨.word, position, position + 1⟩]
    else ⟨if isPunctByte b then .punct else .atom, position, position + 1⟩ :: pieces

def Piece.token (source : Bytes) (p : Piece) : Token :=
  ⟨p.kind, p.start, p.stop, source.slice p.start p.stop⟩

/-- The bytes at the positions from `start` up to `stop`, one by one; those below zero come from the end. -/
def bytesBetween (source : Bytes) (start stop : Int) : Bytes :=
  (source.drop (clampOffset source.length start)).take (min stop 0 - start).toNat ++
    (source.take stop.toNat).drop start.toNat

/-- The tokens of the source between two named nodes. -/
def tokensBetween (source : Bytes) (start stop : Int) : Except OutOfSource (List Token) :=
  if start < stop ∧ (source.length < stop ∨ source.length + start < 0) then .error .mk
  else .ok ((piecesOf start (bytesBetween source start stop)).map (Piece.token source))

def Token.isPunct (t : Token) (c : Char) : Bool := t.kind = .punct && t.text == [asciiByte c]

namespace Node

/-- The kind of token a named node becomes; a comment becomes none. -/
def tokenKind (n : Node) : Token.Kind :=
  match n.kind with
  | .stringLiteral => .string
  | .tokenTree | .tokenRepetition => .tree
  | .identifier => .word
  | _ => .atom

def token (source : Bytes) (n : Node) : Token :=
  ⟨n.tokenKind, n.start, n.stop, source.slice n.start n.stop⟩

def isOpener (b : Bytes) : Bool := b == [40] || b == [91] || b == [123]

def isCloser (b : Bytes) : Bool := b == [41] || b == [93] || b == [125]

/-- Where a tree's tokens begin: past the opening bracket of a bracketed tree. -/
def innerStart (source : Bytes) (kind : Kind) (start : Int) : Int :=
  if kind = .tokenTree ∧ isOpener (source.slice start (start + 1)) then start + 1 else start

/-- Where a tree's tokens end: before the closing bracket of a bracketed tree. -/
def innerStop (source : Bytes) (kind : Kind) (start stop : Int) : Int :=
  if kind = .tokenTree ∧ innerStart source kind start < stop ∧
      isCloser (source.slice (stop - 1) stop) then stop - 1 else stop

/-- Whether a child is passed over: it is unnamed or empty, or does not lie between the cursor and the
end of the tree. -/
def isPassedOver (child : Node) (cursor stop : Int) : Bool :=
  !child.isNamed || child.start == child.stop || child.start < cursor || stop < child.stop

/-- The tokens from `cursor` to `stop`, where `children` are the nodes still ahead. -/
def tokensFrom (source : Bytes) (stop : Int) : (cursor : Int) → List Node →
    Except OutOfSource (List Token)
  | cursor, [] => tokensBetween source cursor stop
  | cursor, child :: rest =>
    if child.isPassedOver cursor stop then tokensFrom source stop cursor rest
    else do
      let gap ← tokensBetween source cursor child.start
      let more ← tokensFrom source stop child.stop rest
      return gap ++ (if child.kind = .comment then more else child.token source :: more)

/-- The top-level tokens of a tree. -/
def tokens (source : Bytes) (n : Node) : Except OutOfSource (List Token) :=
  tokensFrom source (innerStop source n.kind n.start n.stop) (innerStart source n.kind n.start)
    n.children

end Node

end LogRef
