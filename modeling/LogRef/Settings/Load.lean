import LogRef.FileSystem.Tree
import LogRef.Settings.Basic
import LogRef.Yaml.Document

/-!
# Settings files
-/
namespace LogRef

/-- Why a settings file gives no settings. -/
inductive LoadError
  | unreadable (path : Path) (e : FileError)
  | malformed (path : Path)
  | notMapping (path : Path)
  | invalid (path : Path) (issues : List Issue)
  | fault (f : Fault)
  deriving Repr

def LoadError.message : LoadError → String
  | unreadable path e => s!"Failed to read configuration file {path}: {e.message}"
  | malformed path => s!"Invalid YAML in {path}: {Yaml.Problem.malformed.message}"
  | notMapping path => s!"Invalid config in {path}: expected a mapping at top level"
  | invalid path issues => s!"Invalid config in {path}: {Issue.summary issues}"
  | fault f => f.message

namespace Settings

/-- How deep settings go: the macros are mappings in a list in a mapping, and hold texts. -/
def levels : Nat := 6

/-- The value that a settings file holds. The file is decoded and checked as a whole, and then scanned. -/
def fileValue (d : Disk) (path : Path) : Except LoadError Value :=
  match d.read path with
  | .error e => .error (if e.isRefused then .fault (.file e) else .unreadable path e)
  | .ok data =>
    match Utf8.decodeStream data with
    | .error e => .error (.fault (.undecodable e))
    | .ok text =>
      match Yaml.valueOf levels (Text.unifyBreaks text) with
      | .ok v => .ok v
      | .error .malformed => .error (.malformed path)
      | .error (.fault f) => .error (.fault f)

/-- The settings with the source directory as seen from the directory of their file. -/
def located (d : Disk) (path : Path) (s : Settings) : Except LoadError Settings :=
  if s.sourceDir.isAbsolute then .ok s
  else
    match d.resolve (path.parent.join s.sourceDir) with
    | .ok sourceDir => .ok { s with sourceDir }
    | .error e => .error (.fault (.ofUnresolved e))

/-- Reads a settings file. -/
def load (d : Disk) (path : Path) : Except LoadError Settings := do
  match ← fileValue d path with
  | .map pairs =>
    match ofValue (.map pairs) with
    | .ok s => located d path s
    | .error issues => throw (.invalid path issues)
  | _ => throw (.notMapping path)

end Settings

end LogRef
