import LogRef.Reference.Find
import LogRef.Settings.Check

/-!
# Settings

What a run is told: where the sources are, which macros log, and how to go about it.
-/
namespace LogRef

/-- A macro whose calls carry references. -/
structure LoggingMacro where
  module : String
  name : String
  deriving DecidableEq, Repr

structure Settings where
  sourceDir : Path
  macros : List LoggingMacro
  extensions : List String
  /-- Whether references go in an argument of their own. -/
  inArguments : Bool
  /-- Whether the next id is kept in a lock file. -/
  keepsLock : Bool
  /-- How many files are worked on at a time. -/
  workers : Nat
  /-- Globs of files to leave out. -/
  exclude : List String
  /-- Whether the ignore files of subdirectories count too. -/
  nestedIgnore : Bool
  workers_pos : 0 < workers
  deriving DecidableEq, Repr

namespace Settings

/-- The names that calls of the macros may have. -/
def names (s : Settings) : List String := allSpellings (s.macros.map fun m => (m.module, m.name))

/-- The extensions of source files, if none are set. -/
def usualExtensions : List String := ["rs"]

def usualWorkers : Nat := 4

/-- A macro's name: blanks around it and one exclamation mark at its end do not count. -/
def macroName (v : Value) : Checked String := do
  let s ← Check.text v
  let trimmed := Text.trim s.toList
  let name := if trimmed.getLast? = some '!' then trimmed.dropLast else trimmed
  if name.isEmpty then Checked.fail (.refused "log macro name must be non-empty")
  else return String.ofList name

def macroModule (v : Value) : Checked String := (Check.text v).map Text.trimString

def loggingMacro (v : Value) : Checked LoggingMacro := do
  let pairs ← Check.fields "LogMacro" v
  let found := Checked.both (Check.required pairs "module" macroModule)
    (Check.required pairs "name" macroName)
  let (module, name) ← found.orIssues (Check.strangeKeys ["module", "name"] pairs)
  return { module, name }

/-- The settings that concern Rust: macros, extensions, and whether references are arguments. -/
def rust (v : Value) : Checked (List LoggingMacro × List String × Bool) := do
  let pairs ← Check.fields "RustConfig" v
  let found := Checked.both (Check.required pairs "log_macros" (Check.someList loggingMacro))
    (Checked.both (Check.optional pairs "extensions" usualExtensions (Check.list Check.text))
      (Check.optional pairs "structured" false Check.truth))
  found.orIssues (Check.strangeKeys ["log_macros", "extensions", "structured"] pairs)

def sourceDirectory : Value → Checked Path
  | .text s =>
    if (Text.trim s.toList).isEmpty then
      Checked.fail (.refused "source_dir must be a non-empty path")
    else .ok (Path.ofString s)
  | _ => Checked.fail .notPath

/-- A positive number. -/
def positive (v : Value) : Checked { n : Nat // 0 < n } := do
  let n ← Check.number v
  if h : 0 < n.toNat then return ⟨n.toNat, h⟩ else Checked.fail (.below 1)

/-- Checks settings. -/
def ofValue (v : Value) : Checked Settings := do
  let pairs ← Check.fields "BreadlogConfig" v
  let found := Checked.both (Check.required pairs "source_dir" sourceDirectory)
    (Checked.both (Check.required pairs "rust" rust)
      (Checked.both (Check.optional pairs "cache" true Check.truth)
        (Checked.both (Check.optional pairs "workers" ⟨usualWorkers, by decide⟩ positive)
          (Checked.both (Check.optional pairs "exclude" [] (Check.list Check.text))
            (Check.optional pairs "nested_gitignore" false Check.truth)))))
  let (sourceDir, (macros, extensions, inArguments), keepsLock, workers, exclude, nestedIgnore) ←
    found.orIssues (Check.strangeKeys
      ["source_dir", "rust", "cache", "workers", "exclude", "nested_gitignore"] pairs)
  return {
    sourceDir, macros, extensions, inArguments, keepsLock, exclude, nestedIgnore
    workers := workers.val
    workers_pos := workers.property }

end Settings

end LogRef
