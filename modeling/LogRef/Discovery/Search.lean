import LogRef.Discovery.Ignore
import LogRef.FileSystem.Tree

/-!
# Finding source files

The files below a directory that have a wanted extension, are reached without going through a link, and
are neither ignored nor excluded. They come in the order of their relative paths.
-/
namespace LogRef

/-- What to look for, and where. -/
structure Search where
  directory : Path
  /-- Extensions without their dot. -/
  extensions : List String
  /-- Globs on relative paths. -/
  exclude : List String
  /-- Whether the ignore files of subdirectories count too. -/
  isNested : Bool
  /-- What reads ignore files. -/
  reader : Ignore.Reader

/-- Why a search does not begin or does not end. -/
inductive SearchError
  | missing (directory : Path)
  | notDirectory (directory : Path)
  | unsearchable (directory : Path) (e : FileError)
  | fault (f : Fault)
  deriving Repr

def SearchError.message : SearchError → String
  | missing directory => s!"Source directory does not exist: {directory}"
  | notDirectory directory => s!"Configured source path is not a directory: {directory}"
  | unsearchable directory e => s!"Failed to search source directory {directory}: {e.message}"
  | fault f => f.message

namespace Search

/-- The name of an ignore file. -/
def ignoreName : String := ".gitignore"

/-- The resolved path, where circular links are a fault. -/
def resolved (d : Disk) (p : Path) : Except Fault Path := (d.resolve p).mapError .ofUnresolved

/-- Whether a path is that of a file and no link. -/
def isPlainFile (d : Disk) (p : Path) : Except Fault Bool := do
  if ← (d.isFile p).mapError .file then return !(← (d.isLink p).mapError .file)
  else return false

/-- Whether a path, its links followed, stays below a directory. -/
def staysWithin (d : Disk) (p directory : Path) : Except Fault Bool := do
  let root ← resolved d directory
  let path ← resolved d p
  return (path.relativeTo? root).isSome

/-- Everything below a directory; links are listed but not entered. -/
def below (d : Disk) (directory : Path) : List Path :=
  match d.locate true directory with
  | .ok (.occupied place (.directory _)) =>
    d.tree.items.filterMap fun e =>
      if place.isPrefixOf e.1 ∧ e.1 ≠ place then
        some ⟨directory.root, directory.steps ++ e.1.drop place.length⟩
      else none
  | _ => []

/-- Paths in the order of their texts as seen from a directory. -/
def sortBelow (directory : Path) (paths : List Path) : List Path :=
  let key (p : Path) := joinSteps (p.steps.drop directory.steps.length)
  paths.mergeSort fun a b => decide (¬ key b < key a)

/-- The verdict of one ignore file. -/
def verdictOf (reader : Ignore.Reader) (d : Disk) (file : Path) : Except Fault Ignore.Verdict := do
  reader (d.absolute file.parent) (← (d.read file).mapError .file)

/-- The ignore files that count for a directory. -/
def ignoreFiles (d : Disk) (directory : Path) (isNested : Bool) : Except Fault (List Path) := do
  if isNested then
    let named := (below d directory).filter fun p => p.name = ignoreName
    let plain ← named.filterM (isPlainFile d)
    let inside ← plain.filterM fun p => staysWithin d p directory
    return sortBelow directory inside
  else
    let file := directory.child ignoreName
    return if ← (d.isFile file).mapError .file then [file] else []

/-- The verdicts that count for a directory. -/
def verdictsFor (reader : Ignore.Reader) (d : Disk) (directory : Path) (isNested : Bool) :
    Except Fault (List Ignore.Verdict) := do
  (← ignoreFiles d directory isNested).mapM (verdictOf reader d)

/-- Whether a path is ignored by one of the verdicts. With `isNested`, those that make nothing of the path, as when it
is outside of their directory, are passed over. -/
def isIgnored (isNested : Bool) (path : Path) : List Ignore.Verdict → Except Fault Bool
  | [] => .ok false
  | ignores :: rest =>
    match ignores path with
    | .ok true => .ok true
    | .ok false => isIgnored isNested path rest
    | .error f => if isNested && f.isBadValue then isIgnored isNested path rest else .error f

/-- The extension of a path without dots in front. -/
def extension (p : Path) : String := String.ofList (p.suffix.toList.dropWhile (· == '.'))

/-- Whether a path belongs to the files that are looked for. -/
def includes (s : Search) (d : Disk) (verdicts : List Ignore.Verdict) (path : Path) :
    Except Fault Bool := do
  if !s.extensions.contains (extension path) then return false
  if !(← isPlainFile d path) then return false
  if !(← staysWithin d path s.directory) then return false
  match path.relativeTo? s.directory with
  | none => return false
  | some steps =>
    if ← isIgnored s.isNested (d.absolute path) verdicts then return false
    return !s.exclude.any fun pattern => Glob.matchesText pattern (joinSteps steps)

/-- Extensions with the dots in front taken off. -/
def withoutDots (extensions : List String) : List String :=
  extensions.map fun e => String.ofList (e.toList.dropWhile (· == '.'))

/-- The files below the directory that are looked for, sorted by relative path. -/
def filesBelow (s : Search) (d : Disk) : Except Fault (List Path) := do
  let verdicts ← verdictsFor s.reader d s.directory s.isNested
  let wanted := { s with extensions := withoutDots s.extensions }
  let paths ← (below d s.directory).filterM (wanted.includes d verdicts)
  return sortBelow s.directory paths

/-- What a fault on the way makes of a search. -/
def errorOf (s : Search) : Fault → SearchError
  | .file e => if e.isRefused then .fault (.file e) else .unsearchable s.directory e
  | f => .fault f

/-- The files that are looked for, in a directory that has to be one. -/
def files (s : Search) (d : Disk) : Except SearchError (List Path) := do
  if !(← (d.exists? s.directory).mapError (.fault ∘ .file)) then throw (.missing s.directory)
  if !(← (d.isDirectory s.directory).mapError (.fault ∘ .file)) then
    throw (.notDirectory s.directory)
  (s.filesBelow d).mapError s.errorOf

end Search

end LogRef
