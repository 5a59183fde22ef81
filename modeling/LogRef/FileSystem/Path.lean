import LogRef.Text.Blank

/-!
# Paths

A path is a root and a list of steps. Empty steps and `.` fall away when a path is read; `..` is kept,
because what it leads to depends on the links on the way.
-/
namespace LogRef

/-- Where a path starts. Exactly two slashes are kept apart from one. -/
inductive Path.Root
  | none
  | single
  | double
  deriving DecidableEq, Repr, Inhabited

structure Path where
  root : Path.Root
  steps : List String
  deriving DecidableEq, Repr, Inhabited

namespace Path

def Root.text : Root → String
  | .none => ""
  | .single => "/"
  | .double => "//"

/-- Reads a path. -/
def ofString (s : String) : Path :=
  let slashes := (s.toList.takeWhile (· == '/')).length
  { root := if slashes = 0 then .none else if slashes = 2 then .double else .single
    steps := ((Text.splitOn '/' s.toList).map String.ofList).filter fun p => p != "" && p != "." }

/-- The text of a path; the empty one is `.`. -/
def toString (p : Path) : String :=
  if p.root = .none ∧ p.steps = [] then "." else p.root.text ++ "/".intercalate p.steps

instance : ToString Path := ⟨toString⟩

def isAbsolute (p : Path) : Bool := p.root != .none

/-- Whether no file can have this path because of a null character in it. -/
def hasNull (p : Path) : Bool := p.steps.any fun step => step.toList.contains '\x00'

/-- The path `q` seen from `p`. -/
def join (p q : Path) : Path := if q.isAbsolute then q else ⟨p.root, p.steps ++ q.steps⟩

def child (p : Path) (name : String) : Path := ⟨p.root, p.steps ++ [name]⟩

def parent (p : Path) : Path := ⟨p.root, p.steps.dropLast⟩

def name (p : Path) : String := p.steps.getLastD ""

/-- The last dot of a name and all behind it, unless the dot is the first or the last character. -/
def suffixOf (name : List Char) : List Char :=
  let tail := (name.reverse.takeWhile (· != '.')).reverse
  if tail.length + 1 < name.length && !tail.isEmpty then '.' :: tail else []

def suffix (p : Path) : String := String.ofList (suffixOf p.name.toList)

/-- The steps that lead from `base` to `p`, if `p` is written as a path below it. -/
def relativeTo? (p base : Path) : Option (List String) :=
  if p.root = base.root ∧ base.steps.isPrefixOf p.steps then some (p.steps.drop base.steps.length)
  else none

/-- Resolves `..` on the steps themselves, as if there were no links. -/
def collapse (steps : List String) : List String :=
  steps.foldl (fun done step => if step = ".." then done.dropLast else done ++ [step]) []

end Path

/-- The text of relative steps. -/
def joinSteps (steps : List String) : String := Path.toString ⟨.none, steps⟩

end LogRef
