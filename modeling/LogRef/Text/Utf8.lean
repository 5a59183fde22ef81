/-!
# UTF-8

Reading UTF-8 one sequence at a time. A byte string either begins with a whole character or with a
maximal ill-formed piece; strict reading reports the first such piece, lenient reading puts one
replacement character in its place.
-/
namespace LogRef

/-- The contents of a file. -/
abbrev Bytes := List UInt8

/-- The offset that a position stands for among `length` elements: one below zero counts from the end. -/
def clampOffset (length : Nat) (position : Int) : Nat :=
  if position < 0 then (length + position).toNat else position.toNat

/-- The bytes from `start` up to `stop`, as far as there are any. -/
def Bytes.slice (b : Bytes) (start stop : Int) : Bytes :=
  (b.take (clampOffset b.length stop)).drop (clampOffset b.length start)

namespace Utf8

/-- What is wrong with an ill-formed piece. -/
inductive Reason
  | badStart
  | badContinuation
  | truncated
  deriving DecidableEq, Repr

/-- What stands at the front of a byte string: a character or an ill-formed piece, with its size. -/
inductive Step
  | char (c : Char) (size : Nat)
  | bad (size : Nat) (reason : Reason)
  deriving Repr

/-- How many continuation bytes follow a first byte, if it can be one. -/
def following (b : UInt8) : Option Nat :=
  if b < 0x80 then some 0
  else if b < 0xC2 then none
  else if b < 0xE0 then some 1
  else if b < 0xF0 then some 2
  else if b < 0xF5 then some 3
  else none

/-- Whether `b` may stand second after `first`: overlong forms, surrogates and code points past the
last one are kept out here. -/
def isSecond (first b : UInt8) : Bool :=
  let low : UInt8 := if first = 0xE0 then 0xA0 else if first = 0xF0 then 0x90 else 0x80
  let high : UInt8 := if first = 0xED then 0x9F else if first = 0xF4 then 0x8F else 0xBF
  low ≤ b && b ≤ high

/-- Whether `b` continues a sequence. -/
def isContinuation (b : UInt8) : Bool := 0x80 ≤ b && b ≤ 0xBF

/-- The bytes of `rest`, at most `n`, that continue the sequence begun by `first`. -/
def continuation (first : UInt8) (n : Nat) (rest : Bytes) : Bytes :=
  match rest.take n with
  | [] => []
  | b :: bs => if isSecond first b then b :: bs.takeWhile isContinuation else []

/-- The code point of a first byte with `n` continuation bytes. -/
def codePoint (first : UInt8) (tail : Bytes) : Nat :=
  let lead := match tail.length with
    | 0 => first.toNat
    | 1 => first.toNat - 0xC0
    | 2 => first.toNat - 0xE0
    | _ => first.toNat - 0xF0
  tail.foldl (fun n b => n * 64 + (b.toNat - 0x80)) lead

/-- What a byte string that begins with `first` begins with. -/
def step (first : UInt8) (rest : Bytes) : Step :=
  match following first with
  | none => .bad 1 .badStart
  | some n =>
    let tail := continuation first n rest
    if tail.length = n then .char (Char.ofNat (codePoint first tail)) (n + 1)
    else if tail.length < rest.length then .bad (tail.length + 1) .badContinuation
    else .bad (tail.length + 1) .truncated

/-- The first ill-formed piece of a byte string. -/
structure DecodeError where
  position : Nat
  size : Nat
  byte : UInt8
  reason : Reason
  deriving DecidableEq, Repr

/-- The two hexadecimal digits of a byte. -/
def hexByte (b : UInt8) : String :=
  String.ofList [Nat.digitChar (b.toNat / 16), Nat.digitChar (b.toNat % 16)]

def Reason.text : Reason → String
  | .badStart => "invalid start byte"
  | .badContinuation => "invalid continuation byte"
  | .truncated => "unexpected end of data"

def DecodeError.message (e : DecodeError) : String :=
  let place :=
    if e.size = 1 then s!"byte 0x{hexByte e.byte} in position {e.position}"
    else s!"bytes in position {e.position}-{e.position + e.size - 1}"
  s!"'utf-8' codec can't decode {place}: {e.reason.text}"

/-- Strict reading from `position` on, where the next `skip` bytes belong to a character already read. -/
def decodeFrom (position : Nat) : (skip : Nat) → Bytes → Except DecodeError (List Char)
  | _, [] => .ok []
  | skip + 1, _ :: rest => decodeFrom (position + 1) skip rest
  | 0, b :: rest =>
    match step b rest with
    | .char c size => (decodeFrom (position + 1) (size - 1) rest).map (c :: ·)
    | .bad size reason => .error ⟨position, size, b, reason⟩

/-- The characters of well-formed UTF-8, or the first ill-formed piece. -/
def decode (b : Bytes) : Except DecodeError (List Char) := decodeFrom 0 0 b

/-- Reading a stream piece by piece: an incomplete sequence at the very end is found on its own, after
all that precedes it, and its position is counted from its own first byte. -/
def decodeStream (b : Bytes) : Except DecodeError (List Char) :=
  match decode b with
  | .ok cs => .ok cs
  | .error e => .error (if e.reason = .truncated then { e with position := 0 } else e)

/-- Lenient reading, where the next `skip` bytes belong to a piece already read. -/
def decodeLossyFrom : (skip : Nat) → Bytes → List Char
  | _, [] => []
  | skip + 1, _ :: rest => decodeLossyFrom skip rest
  | 0, b :: rest =>
    match step b rest with
    | .char c size => c :: decodeLossyFrom (size - 1) rest
    | .bad size _ => Char.ofNat 0xFFFD :: decodeLossyFrom (size - 1) rest

/-- Characters of any byte string: each maximal ill-formed piece reads as U+FFFD. -/
def decodeLossy (b : Bytes) : List Char := decodeLossyFrom 0 b

/-- The bytes of a character. -/
def encodeChar (c : Char) : Bytes :=
  let n := c.toNat
  if n < 0x80 then [n.toUInt8]
  else if n < 0x800 then [(0xC0 + n / 64).toUInt8, (0x80 + n % 64).toUInt8]
  else if n < 0x10000 then
    [(0xE0 + n / 4096).toUInt8, (0x80 + n / 64 % 64).toUInt8, (0x80 + n % 64).toUInt8]
  else
    [(0xF0 + n / 262144).toUInt8, (0x80 + n / 4096 % 64).toUInt8, (0x80 + n / 64 % 64).toUInt8,
      (0x80 + n % 64).toUInt8]

/-- The UTF-8 form of a text. -/
def encode (text : List Char) : Bytes := text.flatMap encodeChar

end Utf8

/-- The bytes of a text. -/
def Bytes.ofString (s : String) : Bytes := Utf8.encode s.toList

/-- The text of a byte string, ill-formed pieces replaced. -/
def Bytes.lossyText (b : Bytes) : String := String.ofList (Utf8.decodeLossy b)

end LogRef
