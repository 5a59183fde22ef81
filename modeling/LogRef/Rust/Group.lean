import LogRef.Rust.Lexeme

/-!
# Brackets

Source cut into lexemes and grouped by matching brackets. A closing bracket closes the nearest open one of
its kind, and the brackets it skips on the way, like those never closed, stay behind as stray lexemes. The
two go together because the arguments of macros and attributes have no metavariables: there a `$` is a
lexeme of its own.
-/
namespace LogRef.Rust

/-- A lexeme, or everything between two matching brackets. -/
inductive Item where
  | leaf (l : Lexeme)
  | group (bracket : Bracket) (start stop : Nat) (items : List Item)
  deriving Repr, Inhabited

/-- An item as the last lexeme of it. -/
def Item.last : Item → Lexeme
  | .leaf l => l
  | .group bracket _ stop _ => ⟨.closer bracket, stop - 1, stop, []⟩

def Item.isComment : Item → Bool
  | .leaf l => l.kind = .comment
  | .group _ _ _ _ => false

/-- What the text between two brackets is. -/
inductive Region
  | code
  | attribute
  | arguments
  | rules
  deriving DecidableEq, Repr

/-- Whether the lexemes so far form the path of an attribute. -/
def isAttributePath (before : List Lexeme) : Bool :=
  before.all fun l => l.kind = .word || l.isMark ':'

/-- Whether a square bracket behind these lexemes, nearest first, begins an attribute. -/
def beginsAttribute : List Lexeme → Bool
  | last :: next :: _ => last.isMark '#' || (last.isMark '!' && next.isMark '#')
  | [last] => last.isMark '#'
  | [] => false

/-- Whether the nearest lexemes are `macro_rules!`, written without a gap. -/
def isDefiner : List Lexeme → Bool
  | last :: next :: _ => last.isMark '!' && next.isWord "macro_rules" && next.stop == last.start
  | _ => false

/-- Whether the nearest lexemes are a word and a `!`. -/
def isInvoked : List Lexeme → Bool
  | last :: next :: _ => last.isMark '!' && next.kind = .word
  | _ => false

/-- Whether the nearest lexemes are `macro_rules!` and the name of a macro. -/
def isDefined : List Lexeme → Bool
  | name :: rest => name.kind = .word && isDefiner rest
  | [] => false

/-- The region between brackets that are opened in a region behind some lexemes, nearest first. -/
def Region.inner (region : Region) (bracket : Bracket) (before : List Lexeme) : Region :=
  match region with
  | .arguments | .rules => region
  | .attribute => if isAttributePath before then .arguments else .code
  | .code =>
    if bracket = .square && beginsAttribute before then .attribute
    else if isDefined before then .rules
    else if isInvoked before && !isDefiner before then .arguments
    else .code

/-- An open bracket with what it begins and the items before it, nearest first. -/
structure Frame where
  bracket : Bracket
  region : Region
  opener : Lexeme
  before : List Item

/-- Where the grouping stands: the open brackets, innermost first, and the items since the innermost
one, nearest first. -/
structure Grouping where
  frames : List Frame
  items : List Item

/-- The region of what comes next. -/
def Grouping.region (g : Grouping) : Region :=
  match g.frames with
  | [] => .code
  | f :: _ => f.region

/-- The last lexemes of at most `count` items, nearest first. Comments are left out. -/
def nearest : (count : Nat) → List Item → List Lexeme
  | _, [] => []
  | count, item :: rest =>
    if item.isComment then nearest count rest
    else match count with
      | 0 => []
      | count + 1 => item.last :: nearest count rest

/-- The lexemes just passed, as many as a region depends on. -/
def Grouping.recent (g : Grouping) : List Lexeme :=
  nearest (if g.region = .attribute then g.items.length else 3) g.items

/-- Gives up an open bracket: it becomes a stray lexeme among the items around it. -/
def Frame.abandon (f : Frame) (items : List Item) : List Item := items ++ .leaf f.opener :: f.before

/-- Closes the nearest open bracket of the kind of `closer`, if there is one. -/
def closeNearest (bracket : Bracket) (closer : Lexeme) : List Frame → List Item → Option Grouping
  | [], _ => none
  | f :: frames, items =>
    if f.bracket = bracket then
      some ⟨frames, .group bracket f.opener.start closer.stop items.reverse :: f.before⟩
    else closeNearest bracket closer frames (f.abandon items)

/-- Takes one more lexeme. Blanks are left out. -/
def Grouping.push (g : Grouping) (l : Lexeme) : Grouping :=
  match l.kind with
  | .blank => g
  | .opener bracket => ⟨⟨bracket, g.region.inner bracket g.recent, l, g.items⟩ :: g.frames, []⟩
  | .closer bracket =>
    (closeNearest bracket l g.frames g.items).getD ⟨g.frames, .leaf l :: g.items⟩
  | _ => ⟨g.frames, .leaf l :: g.items⟩

/-- Takes the source ahead, `skip` bytes of which belong to a lexeme already taken. -/
def Grouping.read (position : Nat) : (skip : Nat) → Bytes → Grouping → Grouping
  | _, [], g => g
  | skip + 1, _ :: rest, g => Grouping.read (position + 1) skip rest g
  | 0, b :: rest, g =>
    let (kind, size) := firstLexeme (g.region ≠ .arguments) b rest
    let l : Lexeme := ⟨kind, position, position + size, (b :: rest).take size⟩
    Grouping.read (position + 1) (size - 1) rest (g.push l)

/-- The items in source order, all open brackets given up. -/
def finishGroups : List Frame → List Item → List Item
  | [], items => items.reverse
  | f :: frames, items => finishGroups frames (f.abandon items)

/-- The items of a source. -/
def itemsOf (source : Bytes) : List Item :=
  let g := Grouping.read 0 (preludeLength source) source ⟨[], []⟩
  finishGroups g.frames g.items

end LogRef.Rust
