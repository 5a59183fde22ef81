import LogRef.Text.Digit
import LogRef.Text.LowerCase
import LogRef.Value
import LogRef.Yaml.Binary
import LogRef.Yaml.Date
import LogRef.Yaml.Problem
import LogRef.Yaml.Scalar

/-!
# Kinds of nodes

The kinds that tags name, what a plain scalar is taken for, and the value that a scalar of a kind has.
-/
namespace LogRef.Yaml

/-- The kinds of nodes. -/
inductive Kind
  | null
  | bool
  | int
  | float
  | date
  | binary
  | text
  | sequence
  | mapping
  /-- A mapping of which only the keys count. -/
  | set
  /-- A sequence of mappings with one pair each. -/
  | pairs
  /-- A key whose value is put in place of it. -/
  | merge
  /-- The key `=`, which is a text as a key and nothing else. -/
  | equals
  | unknown
  deriving DecidableEq, Repr

/-- The kind that a tag names. -/
def Kind.ofTag (tag : String) : Kind :=
  let standard := "tag:yaml.org,2002:".toList
  if !standard.isPrefixOf tag.toList then .unknown
  else
    match String.ofList (tag.toList.drop standard.length) with
    | "null" => .null
    | "bool" => .bool
    | "int" => .int
    | "float" => .float
    | "timestamp" => .date
    | "str" => .text
    | "seq" => .sequence
    | "map" => .mapping
    | "merge" => .merge
    | "value" => .equals
    | "binary" => .binary
    | "set" => .set
    | "omap" | "pairs" => .pairs
    | _ => .unknown

/-- Whether a node of a kind is made of other nodes. -/
def Kind.isCollection : Kind → Bool
  | .sequence | .mapping | .set | .pairs => true
  | _ => false

/-! ## Plain scalars -/

def trueWords : List String := ["yes", "Yes", "YES", "true", "True", "TRUE", "on", "On", "ON"]

def falseWords : List String := ["no", "No", "NO", "false", "False", "FALSE", "off", "Off", "OFF"]

def nullWords : List String := ["", "~", "null", "Null", "NULL"]

/-- A text without the sign in front. -/
def dropSign (text : List Char) : List Char :=
  if text.head? = some '-' || text.head? = some '+' then text.drop 1 else text

/-- Whether a text is not empty and has only characters that `p` holds of, or underscores. -/
def someOf (p : Char → Bool) (text : List Char) : Bool :=
  !text.isEmpty && text.all fun c => p c || c = '_'

/-- Whether a text begins with a character that `p` holds of, and goes on with digits or underscores. -/
def digitsAfter (p : Char → Bool) (text : List Char) : Bool :=
  text.head?.any p && text.all fun c => isAsciiDigit c || c = '_'

/-- Whether a text is a number below sixty in one or two digits. -/
def isSixtieth (text : List Char) : Bool :=
  match text with
  | [a] => isAsciiDigit a
  | [a, b] => '0' ≤ a && a ≤ '5' && isAsciiDigit b
  | _ => false

/-- Whether a text has parts between colons, the first one checked by `p` and the others sixtieths. -/
def isSixties (p : List Char → Bool) (text : List Char) : Bool :=
  match Text.splitOn ':' text with
  | first :: second :: rest => p first && (second :: rest).all isSixtieth
  | _ => false

def isIntText (text : List Char) : Bool :=
  let t := dropSign text
  let isNonzero (c : Char) := '1' ≤ c && c ≤ '9'
  match t with
  | ['0'] => true
  | '0' :: 'b' :: rest => someOf (fun c => c = '0' || c = '1') rest
  | '0' :: 'x' :: rest => someOf (fun c => (hexValue? c).isSome) rest
  | '0' :: rest => someOf (fun c => '0' ≤ c && c ≤ '7') rest
  | _ => digitsAfter isNonzero t || isSixties (digitsAfter isNonzero) t

/-- Whether a text is empty or an exponent with its sign. -/
def isExponent (text : List Char) : Bool :=
  match text with
  | [] => true
  | mark :: sign :: digits =>
    (mark = 'e' || mark = 'E') && (sign = '-' || sign = '+') && !digits.isEmpty && digits.all isAsciiDigit
  | _ => false

/-- Whether a text is digits or underscores with an optional exponent. -/
def isFraction (text : List Char) : Bool :=
  isExponent (text.dropWhile fun c => isAsciiDigit c || c = '_')

def isFloatText (text : List Char) : Bool :=
  let t := dropSign text
  let whole := t.takeWhile (· != '.')
  let fraction := t.drop (whole.length + 1)
  let hasPoint := whole.length < t.length
  let isPart := fraction.all fun c => isAsciiDigit c || c = '_'
  hasPoint &&
    ((digitsAfter isAsciiDigit whole && isFraction fraction) ||
      (whole.isEmpty && t == text && fraction.head?.any isAsciiDigit && isFraction fraction) ||
      (isSixties (digitsAfter isAsciiDigit) whole && isPart) ||
      [".inf", ".Inf", ".INF"].contains (String.ofList t) ||
      [".nan", ".NaN", ".NAN"].contains (String.ofList text))

/-- A text without a line break at its end, unless it is nothing else. -/
def dropLastBreak (s : String) : String :=
  match s.toList.reverse with
  | '\n' :: c :: rest => String.ofList (c :: rest).reverse
  | _ => s

/-- Texts that have no value although nothing is wrong with them. -/
def reservedMarks : List String := ["!", "&", "*"]

/-- What a plain scalar is taken for; a line break at its end does not count. -/
def Kind.ofPlain (whole : String) : Kind :=
  let s := dropLastBreak whole
  let text := s.toList
  if trueWords.contains s || falseWords.contains s then .bool
  else if isFloatText text then .float
  else if isIntText text then .int
  else if s = "<<" then .merge
  else if nullWords.contains s then .null
  else if Date.isWritten text then .date
  else if s = "=" then .equals
  else if reservedMarks.contains s then .unknown
  else .text

/-! ## Values -/

/-- The digits of a number without what announces their base. -/
def dropBaseMark (base : Nat) (text : List Char) : List Char :=
  let marks := match base with
    | 2 => ['b', 'B']
    | 8 => ['o', 'O']
    | 16 => ['x', 'X']
    | _ => []
  match text with
  | '0' :: c :: rest => if marks.contains c then rest else text
  | _ => text

/-- The longest piece of a text that is shown when it is no number. -/
def shownLength : Nat := 200

/-- The whole number that a text writes in a base, with a sign and blanks around it allowed. Decimal digits
are counted as far as they go, whatever follows them. -/
def readWhole (base : Nat) (text : List Char) : Except Fault Int :=
  let t := Text.plainNumber text
  let written := dropBaseMark base (dropSign t)
  let digits := written.takeWhile fun c => (hexValue? c).any (· < base)
  if base = 10 && digitLimit < digits.length then .error (.tooManyDigits ⟨digits.length⟩)
  else if digits.isEmpty || digits.length < written.length then
    let shown := (Text.quoted (String.ofList text)).toList.take shownLength
    .error (.badValue (s!"invalid literal for int() with base {base}: " ++ String.ofList shown))
  else
    let n := digits.foldl (fun n c => n * base + (hexValue? c).getD 0) 0
    .ok (if t.head? = some '-' then -(n : Int) else n)

/-- The sign of a number and the text behind it. -/
def splitSign (text : List Char) : Except Fault (Int × List Char) :=
  match text with
  | [] => .error .emptyText
  | '-' :: rest => .ok (-1, rest)
  | '+' :: rest => .ok (1, rest)
  | _ => .ok (1, text)

/-- The value of numbers between colons, each sixty times what follows it. -/
def sixtiesValue (parts : List Int) : Int := parts.foldl (fun n p => n * 60 + p) 0

/-- The whole number that a text stands for. -/
def intValue (text : List Char) : Except Fault Int := do
  let (sign, t) ← splitSign (text.filter (· != '_'))
  let size ←
    match t with
    | [] => throw .emptyText
    | ['0'] => pure 0
    | '0' :: 'b' :: rest => readWhole 2 rest
    | '0' :: 'x' :: rest => readWhole 16 rest
    | '0' :: _ => readWhole 8 t
    | _ =>
      if t.contains ':' then do
        let parts ← (Text.splitOn ':' t).mapM (readWhole 10)
        pure (sixtiesValue parts)
      else readWhole 10 t
  return sign * size

/-- The number that a text writes with a point and an exponent. -/
def readFloat (text : List Char) : Except Fault Double :=
  let t := Text.plainNumber text
  let isNegative := t.head? = some '-'
  let body := dropSign t
  if body = "inf".toList || body = "infinity".toList then .ok (.infinite isNegative)
  else if body = "nan".toList then .ok .nan
  else
    match Double.readDecimal isNegative body with
    | some d => .ok d
    | none => .error (.badValue ("could not convert string to float: " ++ Text.quoted (String.ofList text)))

/-- The number with the sign turned, if `sign` is negative. -/
def withSign (sign : Int) (d : Double) : Double := if sign < 0 then d.neg else d

/-- The sum of numbers, the last one first, each with sixty times the weight of the one before; every
step is rounded. -/
def sixtiesSum (base : Nat) (sum : Double) : List Double → Except Fault Double
  | [] => .ok sum
  | d :: rest =>
    let weight := Double.ofRatio false base 1
    if weight.isFinite then sixtiesSum (base * 60) (sum.add (d.mul weight)) rest
    else .error .tooLarge

/-- The value of numbers between colons. -/
def sixtiesFloat (text : List Char) : Except Fault Double := do
  let parts ← (Text.splitOn ':' text).mapM readFloat
  sixtiesSum 1 (.finite false 0 0) parts.reverse

/-- The number with a fraction that a text stands for. -/
def floatValue (text : List Char) : Except Fault Double := do
  let (sign, t) ← splitSign (Text.lower (text.filter (· != '_')))
  if t = ".inf".toList then return withSign sign (.infinite false)
  else if t = ".nan".toList then return .nan
  else if t.contains ':' then return withSign sign (← sixtiesFloat t)
  else return withSign sign (← readFloat t)

/-- The truth value of a word. -/
def boolValue (text : List Char) : Except Fault Bool :=
  let word := String.ofList (Text.lower text)
  if trueWords.contains word then .ok true
  else if falseWords.contains word then .ok false
  else .error (.badTruth word)

/-- The moment that a text stands for; a line break at its end does not count. -/
def dateValue (text : String) : Except Fault Moment :=
  match Date.read (dropLastBreak text).toList with
  | some d => d.moment
  | none => .error .badDate

/-- The bytes that a text stands for. -/
def binaryValue (text : List Char) : Except Problem Bytes :=
  match decodeBinary text with
  | some bytes => .ok bytes
  | none => .error .malformed

/-- The value of a scalar of some kind. -/
def scalarValue (kind : Kind) (s : String) : Except Problem Value :=
  let text := s.toList
  match kind with
  | .null => .ok .null
  | .bool => ((boolValue text).map Value.bool).mapError .fault
  | .int => ((intValue text).map Value.int).mapError .fault
  | .float => ((floatValue text).map Value.float).mapError .fault
  | .date => ((dateValue s).map Value.moment).mapError .fault
  | .binary => (binaryValue text).map Value.bytes
  | .text => .ok (.text s)
  | .sequence | .mapping | .set | .pairs | .merge | .equals | .unknown => .error .malformed

end LogRef.Yaml
