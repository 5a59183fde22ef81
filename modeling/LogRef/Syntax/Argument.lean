import LogRef.Source.Span
import LogRef.Syntax.Token

/-!
# Arguments

The tokens of an argument list, cut at its top-level commas and semicolons, and what a single argument
can be: a leading `target:`, a `key = value` pair, a string literal.
-/
namespace LogRef

inductive Separator
  | comma
  | semicolon
  deriving DecidableEq, Repr

/-- An argument: its tokens and the separator after it, if there is one. -/
structure Segment where
  tokens : List Token
  terminator : Option Separator
  deriving DecidableEq, Repr

def Token.separator? (t : Token) : Option Separator :=
  if t.isPunct ',' then some .comma else if t.isPunct ';' then some .semicolon else none

/-- The arguments of a token list. What follows the last separator is an argument only if there is
something. -/
def segmentsOf : List Token → List Segment
  | [] => []
  | t :: rest =>
    match t.separator? with
    | some s => ⟨[], some s⟩ :: segmentsOf rest
    | none =>
      match segmentsOf rest with
      | [] => [⟨[t], none⟩]
      | segment :: segments => { segment with tokens := t :: segment.tokens } :: segments

/-- Whether an argument is `target: …,` (and not a path `target::…`). -/
def Segment.isTarget (s : Segment) : Bool :=
  match s.tokens with
  | word :: colon :: next :: _ =>
    s.terminator = some .comma && word.kind = .word && word.text == Bytes.ofString "target" &&
      colon.isPunct ':' && !next.isPunct ':'
  | _ => false

/-- Where the `=` of an assignment stands, `index` being the position of the first token and `before`
the token ahead of it. The `=` of `==`, `=>`, `!=`, `<=` and `>=` is none. -/
def assignmentFrom (index : Nat) (before : Option Token) : List Token → Option Nat
  | [] => none
  | t :: rest =>
    let joinsLeft := before.any fun b => b.stop == t.start && ['=', '!', '<', '>'].any b.isPunct
    let joinsRight := rest.head?.any fun n => t.stop == n.start && ['=', '>'].any n.isPunct
    if t.isPunct '=' && !joinsLeft && !joinsRight then some index
    else assignmentFrom (index + 1) (some t) rest

/-- The position of the `=` between key and value. -/
def assignment (tokens : List Token) : Option Nat := assignmentFrom 0 none tokens

/-- The byte `"`. -/
def quoteByte : UInt8 := 34

/-- The name a key is known by: its text, without the quotes if it is a string. -/
def Token.keyText (t : Token) : String :=
  let text := Utf8.decodeLossy t.text
  if t.kind = .string then
    String.ofList ((text.dropWhile (· == '"')).reverse.dropWhile (· == '"')).reverse
  else String.ofList text

/-- A `key = value` argument. -/
structure KeyValue where
  key : String
  span : Span
  value : Option Span
  valueText : String
  deriving DecidableEq, Repr

/-- The `key = value` argument of a segment; a key without a value counts. -/
def Segment.keyValue (source : Bytes) (lines : List Nat) (s : Segment) : Option KeyValue :=
  match s.tokens with
  | [] => none
  | first :: rest =>
    let stop := ((first :: rest).getLastD first).stop
    let span := Span.ofRange lines first.start stop
    let value := (assignment s.tokens).bind fun i => s.tokens[i + 1]?
    match value with
    | none => some ⟨first.keyText, span, none, ""⟩
    | some v =>
      some ⟨first.keyText, span, some (Span.ofRange lines v.start stop),
        (source.slice v.start stop).lossyText⟩

/-- The range of a string literal's contents: between its first and its last quote, if only hashes,
or an `r` and hashes, stand before the first. -/
def Token.contentRange (t : Token) : Option (Int × Int) := do
  let first ← t.text.findIdx? (· == quoteByte)
  let last ← (t.text.reverse.findIdx? (· == quoteByte)).map (t.text.length - 1 - ·)
  let mark := ((t.text.take first).reverse.dropWhile (· == asciiByte '#')).reverse
  if first < last ∧ (mark = [] ∨ mark = [asciiByte 'r']) then
    some (t.start + first + 1, t.start + last)
  else none

end LogRef
