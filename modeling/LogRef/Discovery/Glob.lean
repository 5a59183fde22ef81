/-!
# Glob patterns

A glob matches a whole text: `*` stands for any run of characters, slashes included, `?` for one
character and `[…]` for one character of a set. Nothing is escaped.
-/
namespace LogRef.Glob

/-- The part of a pattern that stands for one piece of text. -/
inductive Piece
  | run
  | anyChar
  | char (c : Char)
  /-- One of the ranges, or none of them if `isNegated`. -/
  | oneOf (isNegated : Bool) (ranges : List (Char × Char))
  deriving DecidableEq, Repr

/-- The suffixes of a text, the text itself first. -/
def suffixes : List Char → List (List Char)
  | [] => [[]]
  | c :: rest => (c :: rest) :: suffixes rest

def inSet (ranges : List (Char × Char)) (c : Char) : Bool :=
  ranges.any fun r => r.1 ≤ c && c ≤ r.2

/-- What is left of a text after one character that `p` holds of. -/
def afterChar (p : Char → Bool) : List Char → Option (List Char)
  | [] => none
  | c :: rest => if p c then some rest else none

/-- What can be left after a piece, if `rests` can be left before it, the longest first. -/
def Piece.advance (rests : List (List Char)) : Piece → List (List Char)
  | .run => (rests.head?.map suffixes).getD []
  | .anyChar => rests.filterMap (afterChar fun _ => true)
  | .char c => rests.filterMap (afterChar (c == ·))
  | .oneOf isNegated ranges => rests.filterMap (afterChar fun d => inSet ranges d != isNegated)

/-- Whether the pieces match a whole text. -/
def matchesPieces (pieces : List Piece) (text : List Char) : Bool :=
  (pieces.foldl Piece.advance [text]).any List.isEmpty

/-- How many characters of `text` lie before the bracket that closes a set: a `!` and then a bracket in
first position do not close it. -/
def setLength (text : List Char) : Option Nat :=
  let lead := if text.head? = some '!' then 1 else 0
  let first := if (text.drop lead).head? = some ']' then lead + 1 else lead
  let body := (text.drop first).takeWhile (· != ']')
  if first + body.length < text.length then some (first + body.length) else none

/-- Cuts the members of a set at the hyphens that make a range. A hyphen does if at least `least`
characters stand before it; after a range the next one needs two. -/
def cutAtHyphens (least : Nat) (members : List Char) : List (List Char) :=
  let before := members.take least ++ (members.drop least).takeWhile (· != '-')
  if before.length < members.length then
    before :: cutAtHyphens 2 (members.drop (before.length + 1))
  else [members]
termination_by members.length
decreasing_by
  simp only [List.length_drop]
  omega

/-- Puts a hyphen that ends a set back where it is a member. -/
def restoreLastHyphen : List (List Char) → List (List Char)
  | [a, []] => [a ++ ['-']]
  | a :: rest => a :: restoreLastHyphen rest
  | [] => []

/-- Drops ranges that run backwards, from the last one to the first. -/
def dropReversed : List (List Char) → List (List Char)
  | [] => []
  | chunk :: rest =>
    match dropReversed rest with
    | [] => [chunk]
    | next :: more =>
      match chunk.getLast?, next.head? with
      | some low, some high =>
        if high < low then (chunk.dropLast ++ next.drop 1) :: more else chunk :: next :: more
      | _, _ => chunk :: next :: more

/-- The ranges of a chunk list: neighbouring chunks meet in a range, all other characters stand for
themselves. -/
def rangesOf : List (List Char) → List (Char × Char)
  | [] => []
  | [chunk] => chunk.map fun c => (c, c)
  | chunk :: next :: rest =>
    match chunk.getLast?, next.head? with
    | some low, some high =>
      chunk.dropLast.map (fun c => (c, c)) ++ (low, high) :: rangesOf (next.drop 1 :: rest)
    | _, _ => chunk.map (fun c => (c, c)) ++ rangesOf (next :: rest)
termination_by chunks => chunks.length

/-- The piece of a set with the given text between its brackets. -/
def setPiece (members : List Char) : Piece :=
  let least := if members.head? = some '!' then 2 else 1
  let chunks := dropReversed (restoreLastHyphen (cutAtHyphens least members))
  let isNegated := (chunks.headD []).head? = some '!'
  let positive := match chunks with
    | ('!' :: chunk) :: rest => chunk :: rest
    | other => other
  .oneOf isNegated (rangesOf positive)

/-- The pieces of a pattern, `skip` characters of which belong to a piece already read. -/
def piecesFrom : (skip : Nat) → List Char → List Piece
  | _, [] => []
  | skip + 1, _ :: rest => piecesFrom skip rest
  | 0, c :: rest =>
    if c = '*' then .run :: piecesFrom 0 rest
    else if c = '?' then .anyChar :: piecesFrom 0 rest
    else if c = '[' then
      match setLength rest with
      | some n => setPiece (rest.take n) :: piecesFrom (n + 1) rest
      | none => .char '[' :: piecesFrom 0 rest
    else .char c :: piecesFrom 0 rest

/-- Whether a pattern matches a text. -/
def matchesText (pattern text : String) : Bool :=
  matchesPieces (piecesFrom 0 pattern.toList) text.toList

end LogRef.Glob
