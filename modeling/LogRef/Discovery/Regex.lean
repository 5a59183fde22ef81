import LogRef.Text.Digit

/-!
# Regular expressions

The regular expressions that ignore patterns are turned into: sets of characters, groups, alternatives,
repetition, and the two ends of a text. An expression is looked for with all places of a text at once, so
no pattern takes long.
-/
namespace LogRef

inductive Regex
  | empty
  /-- One character of the ranges, or of none of them if `isNegated`. -/
  | set (isNegated : Bool) (ranges : List (Char × Char))
  /-- The start of the text. -/
  | start
  /-- The end of the text, or the place before a line feed that ends it. -/
  | finish
  | cat (a b : Regex)
  | alt (a b : Regex)
  /-- At least `least` times, and `most` times at most if there is a bound. -/
  | times (a : Regex) (least : Nat) (most : Option Nat)
  deriving DecidableEq, Repr, Inhabited

namespace Regex

/-! ## Matching -/

def inRanges (ranges : List (Char × Char)) (c : Char) : Bool :=
  ranges.any fun r => r.1 ≤ c && c ≤ r.2

/-- The places of two lists, none twice. -/
def union (a b : List Nat) : List Nat := a ++ b.filter (!a.contains ·)

/-- All places reached from `seen` in at most `fuel` steps from the places in `front`. -/
def reach (step : List Nat → List Nat) : (fuel : Nat) → (seen front : List Nat) → List Nat
  | 0, seen, _ => seen
  | fuel + 1, seen, front =>
    match ((step front).filter (!seen.contains ·)).eraseDups with
    | [] => seen
    | next => reach step fuel (seen ++ next) next

/-- The places of a text where a match that begins at one of the given places can end. -/
def ends (text : Array Char) : Regex → List Nat → List Nat
  | .empty, places => places
  | .set isNegated ranges, places => places.filterMap fun i =>
    (text[i]?).bind fun c => if inRanges ranges c != isNegated then some (i + 1) else none
  | .start, places => places.filter (· == 0)
  | .finish, places => places.filter fun i =>
    i == text.size || (i + 1 == text.size && text[i]? == some '\n')
  | .cat a b, places => ends text b (ends text a places)
  | .alt a b, places => union (ends text a places) (ends text b places)
  | .times a least most, places =>
    -- After more steps than there are places, one more changes nothing.
    let bound := text.size + 1
    let first := Nat.repeat (ends text a) (min least bound) places
    reach (ends text a) (((most.map (· - least)).getD bound).min bound) first first

/-- Whether an expression matches somewhere in a text. -/
def isFoundIn (r : Regex) (text : List Char) : Bool :=
  let chars := text.toArray
  !(ends chars r (List.range (chars.size + 1))).isEmpty

/-! ## Reading -/

/-- One character that is no line feed. -/
def anyChar : Regex := .set true [('\n', '\n')]

def char (c : Char) : Regex := .set false [(c, c)]

/-- The member at the front of a set, which a backslash may guard, with its text and the rest. -/
def memberOf : List Char → Option (Char × List Char × List Char)
  | '\\' :: c :: rest => some (c, ['\\', c], rest)
  | c :: rest => some (c, [c], rest)
  | [] => none

/-- The ranges of a set up to its closing bracket, and the rest. A bracket in first place is a member, and
a hyphen between two members makes a range. -/
def setMembers : (fuel : Nat) → (isFirst : Bool) → List Char →
    Except String (List (Char × Char) × List Char)
  | 0, _, _ => .error "unterminated character set"
  | fuel + 1, isFirst, text => do
    if text.head? = some ']' && !isFirst then return ([], text.drop 1)
    let some (c, shown, rest) := memberOf text | throw "unterminated character set"
    if rest.head? = some '-' then
      let more := rest.drop 1
      if more.head? = some ']' then return ([(c, c), ('-', '-')], more.drop 1)
      let some (d, shownLast, rest) := memberOf more | throw "unterminated character set"
      if d < c then
        throw ("bad character range " ++ String.ofList shown ++ "-" ++ String.ofList shownLast)
      let (ranges, rest) ← setMembers fuel false rest
      return ((c, d) :: ranges, rest)
    else
      let (ranges, rest) ← setMembers fuel false rest
      return ((c, c) :: ranges, rest)

/-- The set behind an opening bracket, and the rest. -/
def setOf (text : List Char) : Except String (Regex × List Char) := do
  let isNegated := text.head? = some '^'
  let body := if isNegated then text.drop 1 else text
  let (ranges, rest) ← setMembers (body.length + 1) true body
  return (.set isNegated ranges, rest)

/-- How often something is repeated. -/
structure Repeat where
  least : Nat
  most : Option Nat

/-- The bounds between braces at the front of a text, behind the opening one, and the rest. Braces around
anything else are plain characters. -/
def bracedRepeat (text : List Char) : Option (Repeat × List Char) :=
  let low := text.takeWhile isAsciiDigit
  let number (digits : List Char) := if digits.isEmpty then none else some (digitsValue digits)
  match text.drop low.length with
  | '\x7d' :: rest => if low.isEmpty then none else some (⟨digitsValue low, number low⟩, rest)
  | ',' :: rest =>
    let high := rest.takeWhile isAsciiDigit
    match rest.drop high.length with
    | '\x7d' :: rest => some (⟨digitsValue low, number high⟩, rest)
    | _ => none
  | _ => none

/-- How often the expression before a text is repeated, if the text begins with a mark that says so, and the
rest. -/
def repeatMark : List Char → Option (Repeat × List Char)
  | '*' :: rest => some (⟨0, none⟩, rest)
  | '+' :: rest => some (⟨1, none⟩, rest)
  | '?' :: rest => some (⟨0, some 1⟩, rest)
  | '\x7b' :: rest => bracedRepeat rest
  | _ => none

/-- Bounds have to be in order. -/
def Repeat.check (r : Repeat) : Except String Unit :=
  if r.most.any (· < r.least) then .error "min repeat greater than max repeat" else .ok ()

/-- An expression with the mark behind it, of which there may be one, and the rest. -/
def withMark (r : Regex) (text : List Char) : Except String (Regex × List Char) := do
  match repeatMark text with
  | none => return (r, text)
  | some (bounds, rest) =>
    bounds.check
    if r = .start || r = .finish then throw "nothing to repeat"
    let rest := if rest.head? = some '?' || rest.head? = some '+' then rest.drop 1 else rest
    if let some (more, _) := repeatMark rest then
      more.check
      throw "multiple repeat"
    return (.times r bounds.least bounds.most, rest)

mutual

/-- The alternatives at the front of a text, and the rest. -/
def alternatives : (fuel : Nat) → List Char → Except String (Regex × List Char)
  | 0, text => .ok (.empty, text)
  | fuel + 1, text => do
    let (r, rest) ← sequence fuel text
    match rest with
    | '|' :: rest =>
      let (more, rest) ← alternatives fuel rest
      return (.alt r more, rest)
    | _ => return (r, rest)

/-- The expressions one after the other at the front of a text, and the rest. -/
def sequence : (fuel : Nat) → List Char → Except String (Regex × List Char)
  | 0, text => .ok (.empty, text)
  | fuel + 1, text => do
    match text with
    | [] | '|' :: _ | ')' :: _ => return (.empty, text)
    | c :: rest =>
      if let some (bounds, _) := repeatMark text then
        bounds.check
        throw "nothing to repeat"
      let (r, rest) ← atom fuel c rest
      let (r, rest) ← withMark r rest
      let (more, rest) ← sequence fuel rest
      return (.cat r more, rest)

/-- The expression that begins with `c`, and the rest. -/
def atom : (fuel : Nat) → (c : Char) → List Char → Except String (Regex × List Char)
  | 0, _, text => .ok (.empty, text)
  | fuel + 1, c, text => do
    if c = '(' then
      match ← alternatives fuel text with
      | (r, ')' :: rest) => return (.cat r .empty, rest)
      | _ => throw "missing ), unterminated subpattern"
    else if c = '[' then setOf text
    else if c = '.' then return (anyChar, text)
    else if c = '^' then return (.start, text)
    else if c = '$' then return (.finish, text)
    else if c = '\\' then
      match text with
      | d :: rest => return (char d, rest)
      | [] => throw "bad escape (end of pattern)"
    else return (char c, text)

end

/-- The regular expression that a text writes. -/
def ofText (text : List Char) : Except String Regex := do
  match ← alternatives (4 * text.length + 4) text with
  | (r, []) => return r
  | _ => throw "unbalanced parenthesis"

end Regex

end LogRef
