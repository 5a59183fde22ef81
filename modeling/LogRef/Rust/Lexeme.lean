import LogRef.Text.Ident
import LogRef.Syntax.Argument

/-!
# Lexemes of Rust

Rust source cut into words, literals, comments, brackets and single marks. Every scanner takes the bytes
ahead and answers how many of them it covers, so the cut is a single walk over the source.
-/
namespace LogRef.Rust

/-- The three kinds of brackets. -/
inductive Bracket
  | round
  | square
  | curly
  deriving DecidableEq, Repr, Inhabited

inductive Lexeme.Kind
  | blank
  | word
  | string
  | comment
  /-- A character or a number. -/
  | literal
  | mark
  /-- A `$` with the name it is tied to. -/
  | metavariable
  | opener (b : Bracket)
  | closer (b : Bracket)
  /-- Something that is no part of Rust, or a string or comment without an end. -/
  | bad
  deriving DecidableEq, Repr, Inhabited

structure Lexeme where
  kind : Lexeme.Kind
  start : Nat
  stop : Nat
  text : Bytes
  deriving DecidableEq, Repr, Inhabited

def isDigitByte (b : UInt8) : Bool := 48 ≤ b && b ≤ 57

/-- A digit or an underscore. -/
def isNumberByte (b : UInt8) : Bool := isDigitByte b || b == 95

def isLetterByte (b : UInt8) : Bool := (65 ≤ b && b ≤ 90) || (97 ≤ b && b ≤ 122)

def isHexByte (b : UInt8) : Bool :=
  isDigitByte b || (65 ≤ b && b ≤ 70) || (97 ≤ b && b ≤ 102)

/-- Whether the bytes ahead begin with an ASCII text. -/
def beginsWith (text : String) (bytes : Bytes) : Bool := (Bytes.ofString text).isPrefixOf bytes

/-- The length of the identifier characters ahead, `skip` bytes of which belong to one already seen. -/
def identTail : (skip : Nat) → Bytes → Nat
  | _, [] => 0
  | skip + 1, _ :: rest => identTail skip rest + 1
  | 0, b :: rest =>
    match Utf8.step b rest with
    | .char c size => if Text.isIdentContinue c then identTail (size - 1) rest + 1 else 0
    | .bad _ _ => 0

/-- The length of the word ahead, zero if there is none. -/
def wordLength : Bytes → Nat
  | [] => 0
  | b :: rest =>
    match Utf8.step b rest with
    | .char c size => if Text.isIdentStart c then identTail (size - 1) rest + 1 else 0
    | .bad _ _ => 0

/-- The length of a string up to and including its closing quote. -/
def stringTail : Bytes → Option Nat
  | [] => none
  | b :: rest =>
    if b = quoteByte then some 1
    else if b = asciiByte '\\' then
      match rest with
      | [] => none
      | _ :: more => (stringTail more).map (· + 2)
    else (stringTail rest).map (· + 1)

/-- The length of a raw string up to and including its closing quote and hashes. -/
def rawStringTail (hashes : Nat) : Bytes → Option Nat
  | [] => none
  | b :: rest =>
    if b = quoteByte ∧ rest.take hashes = List.replicate hashes (asciiByte '#') then
      some (hashes + 1)
    else (rawStringTail hashes rest).map (· + 1)

/-- What the last character of a block comment may be the first half of. -/
inductive Half
  | neither
  | slash
  /-- A star that takes `size` bytes. -/
  | star (size : Nat)

/-- The end of a block comment inside `depth` unclosed ones: the length of the closing pair and the
length up to and including it. `skip` bytes belong to a character already seen. A character counts as a
star or a slash by the low eight bits of its code point, and of two slashes the second one opens nothing. -/
def blockCommentTail : (skip depth : Nat) → Half → Bytes → Option (Nat × Nat)
  | _, _, _, [] => none
  | skip + 1, depth, half, _ :: rest =>
    (blockCommentTail skip depth half rest).map fun (pair, n) => (pair, n + 1)
  | 0, depth, half, b :: rest =>
    let (low, size) := match Utf8.step b rest with
      | .char c size => (UInt8.ofNat c.toNat, size)
      | .bad _ _ => (0, 1)
    let isStar := low == asciiByte '*'
    let isSlash := low == asciiByte '/'
    let goOn (depth : Nat) (half : Half) :=
      (blockCommentTail (size - 1) depth half rest).map fun (pair, n) => (pair, n + 1)
    match half with
    | .neither => goOn depth (if isStar then .star size else if isSlash then .slash else .neither)
    | .slash => goOn (if isStar then depth + 1 else depth) .neither
    | .star before =>
      if isStar then goOn depth (.star size)
      else if isSlash then
        if depth ≤ 1 then some (before + size, size) else goOn (depth - 1) .neither
      else goOn depth .neither

/-- The length of the character ahead. -/
def charSize : Bytes → Nat
  | [] => 0
  | b :: rest =>
    match Utf8.step b rest with
    | .char _ size => size
    | .bad _ _ => 1

/-- The length of an escape sequence behind its backslash. -/
def escapeLength (bytes : Bytes) : Option Nat :=
  if beginsWith "x" bytes then
    if ((bytes.drop 1).take 2).all isHexByte && 3 ≤ bytes.length then some 3 else none
  else if beginsWith "u\x7b" bytes then
    let digits := ((bytes.drop 2).takeWhile isHexByte).length
    if 0 < digits ∧ beginsWith "\x7d" (bytes.drop (digits + 2)) then some (digits + 3) else none
  else if beginsWith "u" bytes then
    if ((bytes.drop 1).take 4).all isHexByte && 5 ≤ bytes.length then some 5 else none
  else if bytes.isEmpty then none
  else some (charSize bytes)

/-- Whether every backslash begins an escape sequence. `skip` bytes belong to one already seen. -/
def escapesHold : (skip : Nat) → Bytes → Bool
  | _, [] => true
  | skip + 1, _ :: rest => escapesHold skip rest
  | 0, b :: rest =>
    if b = asciiByte '\\' then
      match escapeLength rest with
      | some n => escapesHold n rest
      | none => false
    else escapesHold 0 rest

/-- The length of a character literal behind its opening quote, the closing one included. -/
def charLiteralTail (bytes : Bytes) : Option Nat :=
  let body :=
    if beginsWith "'" bytes then some 0
    else if beginsWith "\\" bytes then (escapeLength (bytes.drop 1)).map (· + 1)
    else if bytes.isEmpty then none
    else some (charSize bytes)
  body.bind fun n => if beginsWith "'" (bytes.drop n) then some (n + 1) else none

/-- The length of a number with a fraction or an exponent. -/
def floatLength (bytes : Bytes) : Option Nat := do
  let whole := (bytes.takeWhile isNumberByte).length
  let afterWhole := bytes.drop whole
  let hasFraction := beginsWith "." afterWhole
  let afterDot := afterWhole.drop 1
  let isField := hasFraction && (beginsWith "." afterDot || afterDot.head?.any isLetterByte ||
    afterDot.head?.any (128 ≤ ·))
  if isField then none
  let fraction := if hasFraction then (afterDot.takeWhile isNumberByte).length + 1 else 0
  let afterFraction := afterWhole.drop fraction
  let hasExponent := beginsWith "e" afterFraction || beginsWith "E" afterFraction
  let sign := if beginsWith "+" (afterFraction.drop 1) || beginsWith "-" (afterFraction.drop 1)
    then 1 else 0
  let power := ((afterFraction.drop (sign + 1)).takeWhile isNumberByte).length
  if !hasFraction && !hasExponent then none
  if hasExponent && power == 0 then return whole + fraction
  let exponent := if hasExponent then sign + 1 + power else 0
  let afterExponent := afterFraction.drop exponent
  let width := ((afterExponent.drop 1).takeWhile isDigitByte).length
  let hasSuffix := afterExponent.head?.any fun b => (Bytes.ofString "uif").contains b
  let suffix := if hasSuffix && 0 < width then width + 1 else 0
  return whole + fraction + exponent + suffix

/-- The types a number may name as its own. -/
def numberSuffixes : List String :=
  ["u8", "i8", "u16", "i16", "u32", "i32", "u64", "i64", "u128", "i128", "isize", "usize", "f32",
    "f64"]

/-- The length of the digits of another base behind its mark, if there are any. -/
def basedLength (mark : String) (isDigit : UInt8 → Bool) (bytes : Bytes) : Option Nat :=
  let digits := ((bytes.drop 2).takeWhile fun b => isDigit b || b == 95).length
  if beginsWith mark bytes && 0 < digits then some (digits + 2) else none

/-- The length of a whole number. -/
def intLength (bytes : Bytes) : Nat :=
  let body := (basedLength "0x" isHexByte bytes <|>
    basedLength "0b" (fun b => b == 48 || b == 49) bytes <|>
    basedLength "0o" (fun b => 48 ≤ b && b ≤ 55) bytes).getD
      (bytes.takeWhile isNumberByte).length
  let suffix := numberSuffixes.find? fun s => beginsWith s (bytes.drop body)
  body + (suffix.map fun s => s.length).getD 0

/-- The length of a raw string's opening, up to and including its quote, and its hashes. -/
def rawStringHead (bytes : Bytes) : Option (Nat × Nat) :=
  let lead := if beginsWith "b" bytes || beginsWith "c" bytes then 1 else 0
  let hashes := ((bytes.drop (lead + 1)).takeWhile (· == asciiByte '#')).length
  if beginsWith "r" (bytes.drop lead) && beginsWith "\"" (bytes.drop (lead + 1 + hashes)) then
    some (lead + hashes + 2, hashes)
  else none

/-- A block comment. Without an end it takes all there is; where something else than a star and a slash
closed it, it is no Rust and stops before that. -/
def commentLexeme (bytes : Bytes) : Lexeme.Kind × Nat :=
  match blockCommentTail 0 1 .neither (bytes.drop 2) with
  | some (pair, n) => if pair = 2 then (.comment, n + 2) else (.bad, n + 2 - pair)
  | none => (.bad, bytes.length)

/-- A string with its opening of length `head`. Without an end it takes all there is. -/
def stringLexeme (bytes : Bytes) (head : Nat) : Lexeme.Kind × Nat :=
  let body := bytes.drop head
  match stringTail body with
  | some n => (if escapesHold 0 (body.take (n - 1)) then .string else .bad, head + n)
  | none => (.bad, bytes.length)

/-- A raw string with its opening of length `head`. Its hashes are counted modulo 256. -/
def rawStringLexeme (bytes : Bytes) (head hashes : Nat) : Lexeme.Kind × Nat :=
  match rawStringTail (hashes % 256) (bytes.drop head) with
  | some n => (.string, head + n)
  | none => (.bad, bytes.length)

/-- Blanks outside ASCII. They may stand before a raw string or a number with a fraction only. -/
def wideBlankRanges : List (Nat × Nat) := [
  (0x1680, 0x1680), (0x2000, 0x2006), (0x2008, 0x200A), (0x2028, 0x2029), (0x205F, 0x205F),
  (0x3000, 0x3000)]

/-- What follows the blanks ahead, those outside ASCII included. -/
def afterBlanks : (skip : Nat) → Bytes → Bytes
  | _, [] => []
  | skip + 1, _ :: rest => afterBlanks skip rest
  | 0, b :: rest =>
    match Utf8.step b rest with
    | .char c size =>
      if isSpaceByte b || Text.inRanges wideBlankRanges c.toNat then afterBlanks (size - 1) rest
      else b :: rest
    | .bad _ _ => b :: rest

/-- Whether a raw string or a number with a fraction is ahead. -/
def isRawOrFloat (bytes : Bytes) : Bool :=
  (rawStringHead bytes).isSome || (bytes.head?.any isDigitByte && (floatLength bytes).isSome)

/-- The length of a wide blank, zero if there is none that may be passed over. -/
def wideBlankLength (b : UInt8) (rest : Bytes) : Nat :=
  match Utf8.step b rest with
  | .char c size =>
    if Text.inRanges wideBlankRanges c.toNat && isRawOrFloat (afterBlanks 0 (b :: rest)) then size
    else 0
  | .bad _ _ => 0

/-- The length of a `$` with an ASCII name behind it, zero if there is none. -/
def metavariableLength (bytes : Bytes) : Nat :=
  let name := bytes.drop 1
  if beginsWith "$" bytes && name.head?.any fun b => isLetterByte b || b == 95 then
    (name.takeWhile isWordByte).length + 1
  else 0

/-- The marks of Rust that are single lexemes here. -/
def marks : Bytes := Bytes.ofString "+-*/%^!&|<>=@.,;:#?$'"

/-- The brackets. -/
def bracketKind (b : UInt8) : Option Lexeme.Kind :=
  if b = 40 then some (.opener .round)
  else if b = 41 then some (.closer .round)
  else if b = 91 then some (.opener .square)
  else if b = 93 then some (.closer .square)
  else if b = 123 then some (.opener .curly)
  else if b = 125 then some (.closer .curly)
  else none

/-- The lexeme at the front of the bytes `b :: rest`, with its length. Where metavariables have a
meaning, `$` and a name are one lexeme. -/
def firstLexeme (hasMetavariables : Bool) (b : UInt8) (rest : Bytes) : Lexeme.Kind × Nat :=
  let bytes := b :: rest
  if isSpaceByte b then (.blank, 1)
  else if beginsWith "//" bytes then (.comment, (bytes.takeWhile (· != lineFeed)).length)
  else if beginsWith "/*" bytes then commentLexeme bytes
  else if isDigitByte b then (.literal, (floatLength bytes).getD (intLength bytes))
  else if hasMetavariables && 0 < metavariableLength bytes then
    (.metavariable, metavariableLength bytes)
  else match rawStringHead bytes with
  | some (head, hashes) => rawStringLexeme bytes head hashes
  | none =>
    if beginsWith "\"" bytes then stringLexeme bytes 1
    else if beginsWith "b\"" bytes || beginsWith "c\"" bytes then stringLexeme bytes 2
    else
      let char := if beginsWith "'" bytes then (charLiteralTail rest).map (· + 1)
        else if beginsWith "b'" bytes then (charLiteralTail (rest.drop 1)).map (· + 2)
        else none
      let rawWord := if beginsWith "r#" bytes then wordLength (bytes.drop 2) else 0
      match char with
      | some n => (.literal, n)
      | none =>
        if 0 < rawWord then (.word, rawWord + 2)
        else if 0 < wordLength bytes then (.word, wordLength bytes)
        else if 0 < wideBlankLength b rest then (.blank, wideBlankLength b rest)
        else match bracketKind b with
        | some kind => (kind, 1)
        | none => if marks.contains b then (.mark, 1) else (.bad, charSize bytes)

/-- The length of an interpreter line: `#!` with a line end somewhere behind it, unless a `[` makes it
an attribute. -/
def commandLineLength (bytes : Bytes) : Nat :=
  let line := (bytes.takeWhile (· != lineFeed)).length
  if beginsWith "#!" bytes && !beginsWith "[" (bytes.drop 2) && line < bytes.length then line else 0

/-- Where an interpreter line ends, which only blanks and comments may precede. -/
def commandLineStop (position : Nat) : (skip : Nat) → Bytes → Option Nat
  | _, [] => none
  | skip + 1, _ :: rest => commandLineStop (position + 1) skip rest
  | 0, b :: rest =>
    let (kind, size) := firstLexeme true b rest
    if kind = .blank ∨ kind = .comment then commandLineStop (position + 1) (size - 1) rest
    else if 0 < commandLineLength (b :: rest) then some (position + commandLineLength (b :: rest))
    else none

/-- The length of what stands at the head of a file and is no Rust: a byte order mark, and what comes
before the end of an interpreter line. -/
def preludeLength (source : Bytes) : Nat :=
  let mark := if [0xEF, 0xBB, 0xBF].isPrefixOf source then 3 else 0
  (commandLineStop 0 mark source).getD mark

/-- The marks and words of a lexeme by their text. -/
def Lexeme.isMark (l : Lexeme) (c : Char) : Bool := l.kind = .mark && l.text == [asciiByte c]

def Lexeme.isWord (l : Lexeme) (text : String) : Bool :=
  l.kind = .word && l.text == Bytes.ofString text

end LogRef.Rust
