import LogRef.Yaml.Cursor
import LogRef.Yaml.Problem
import LogRef.Yaml.Scalar

/-!
# Tokens

The marks of a document and the names that follow some of them: anchors, tags and directives.
-/
namespace LogRef.Yaml

/-- A line that begins with `%`. -/
inductive Directive
  | version (major : Nat)
  | tagHandle (handle expansion : String)
  | other
  deriving DecidableEq, Repr

inductive Token
  | directive (d : Directive)
  | documentStart
  | documentEnd
  | streamEnd
  | blockSequenceStart
  | blockMappingStart
  | blockEnd
  | flowSequenceStart
  | flowSequenceEnd
  | flowMappingStart
  | flowMappingEnd
  | key
  | value
  | blockEntry
  | flowEntry
  | alias (name : String)
  | anchor (name : String)
  /-- A tag with its handle, if it has one. -/
  | tag (handle : Option String) (suffix : String)
  | scalar (s : Scalar)
  deriving DecidableEq, Repr

/-- Characters of names. -/
def isNameChar (c : Char) : Bool := c.isAlphanum || c = '-' || c = '_'

/-- Characters of tags, apart from those written as escapes. -/
def isTagChar (c : Char) : Bool :=
  c.isAlphanum || ['-', ';', '/', '?', ':', '@', '&', '=', '+', '$', ',', '_', '.', '!', '~', '*',
    '\'', '(', ')', '[', ']'].contains c

/-- Whether a tag or a directive is over. -/
def endsTag (c : Option Char) : Bool := c = some ' ' || endsLine c

/-- The bytes of the escapes `%XX` at the front of a text, and the rest. -/
def tagEscapes : List Char → Except Problem (Bytes × List Char)
  | '%' :: a :: b :: rest =>
    match hexNumber [a, b] with
    | some n => do
      let (more, rest) ← tagEscapes rest
      return (n.toUInt8 :: more, rest)
    | none => .error .malformed
  | '%' :: _ => .error .malformed
  | text => .ok ([], text)

/-- The longest tag text at the front of a text, and the rest. -/
def tagTextFrom : (fuel : Nat) → List Char → Except Problem (List Char × List Char)
  | 0, _ => .error .malformed
  | fuel + 1, text => do
    let plain := text.takeWhile isTagChar
    let rest := text.drop plain.length
    if rest.head? = some '%' then
      let (bytes, rest) ← tagEscapes rest
      match Utf8.decode bytes with
      | .ok chars =>
        let (more, rest) ← tagTextFrom fuel rest
        return (plain ++ chars ++ more, rest)
      | .error _ => throw .malformed
    else return (plain, rest)

/-- The tag text at the front of a text, which may not be empty, and the rest. -/
def tagText (text : List Char) : Except Problem (List Char × List Char) :=
  match tagTextFrom (text.length + 1) text with
  | .error e => .error e
  | .ok ([], _) => .error .malformed
  | .ok found => .ok found

/-- The handle `!`, `!!` or `!name!` at the front of a text, and the rest. -/
def tagHandle (text : List Char) : Except Problem (List Char × List Char) :=
  match text with
  | '!' :: rest =>
    if rest.head? = some ' ' then .ok (['!'], rest)
    else
      let name := rest.takeWhile isNameChar
      match rest.drop name.length with
      | '!' :: more => .ok ('!' :: name ++ ['!'], more)
      | _ => .error .malformed
  | _ => .error .malformed

/-- The tag at the front of a text, from its `!` on, and the rest. -/
def tagToken (text : List Char) : Except Problem (Token × List Char) := do
  let (token, rest) ← match text.drop 1 with
    | '<' :: rest => do
      let (suffix, rest) ← tagText rest
      match rest with
      | '>' :: rest => pure (Token.tag none (String.ofList suffix), rest)
      | _ => throw .malformed
    | rest => do
      if endsWord rest.head? then pure (Token.tag none "!", rest)
      else if (rest.takeWhile fun c => !endsTag (some c)).contains '!' then
        let (handle, rest) ← tagHandle text
        let (suffix, rest) ← tagText rest
        pure (Token.tag (some (String.ofList handle)) (String.ofList suffix), rest)
      else
        let (suffix, rest) ← tagText rest
        pure (Token.tag (some "!") (String.ofList suffix), rest)
  if endsTag rest.head? then return (token, rest) else throw .malformed

/-- The name after a `&` or `*`, and the rest. -/
def anchorName (text : List Char) : Except Problem (String × List Char) :=
  let name := text.takeWhile isNameChar
  let rest := text.drop name.length
  let isOver := endsWord rest.head? || rest.head?.any ['?', ':', ',', ']', '\x7d', '%', '@', '\x60'].contains
  if name.isEmpty || !isOver then .error .malformed else .ok (String.ofList name, rest)

/-- A text without the blanks in front. -/
def dropBlanks (text : List Char) : List Char := text.dropWhile (· == ' ')

/-- The digits at the front of a text, of which there is one at least, and the rest. -/
def someDigits (text : List Char) : Except Problem (Nat × List Char) :=
  let digits := text.takeWhile isAsciiDigit
  if digits.isEmpty then .error .malformed
  else if digitLimit < digits.length then .error (.fault (.tooManyDigits ⟨digits.length⟩))
  else .ok (digitsValue digits, text.drop digits.length)

/-- The version after `%YAML`, of which the first number is kept, and the rest. -/
def versionDirective (text : List Char) : Except Problem (Directive × List Char) := do
  let (major, rest) ← someDigits (dropBlanks text)
  match rest with
  | '.' :: rest =>
    let (_, rest) ← someDigits rest
    if endsTag rest.head? then return (.version major, rest) else throw .malformed
  | _ => throw .malformed

/-- The handle after `%TAG` and what it stands for, and the rest. -/
def handleDirective (text : List Char) : Except Problem (Directive × List Char) := do
  let (handle, rest) ← tagHandle (dropBlanks text)
  if rest.head? != some ' ' then throw .malformed
  let (expansion, rest) ← tagText (dropBlanks rest)
  if endsTag rest.head? then
    return (.tagHandle (String.ofList handle) (String.ofList expansion), rest)
  else throw .malformed

/-- The directive at the front of a text, after its `%`, and the rest up to the end of the line or a
comment. -/
def directiveOf (text : List Char) : Except Problem (Directive × List Char) :=
  let name := text.takeWhile isNameChar
  let rest := text.drop name.length
  if name.isEmpty || !endsTag rest.head? then .error .malformed
  else if name = "YAML".toList then versionDirective rest
  else if name = "TAG".toList then handleDirective rest
  else .ok (.other, rest.dropWhile (!isBreak ·))

end LogRef.Yaml
