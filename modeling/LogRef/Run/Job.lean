import LogRef.Run.Lock
import LogRef.Rust.Tree

/-!
# Jobs

What a run has to do: its settings and what goes with them.
-/
namespace LogRef

/-- The tools of a run: what parses sources and what reads ignore files. -/
structure Tools where
  parse : Bytes → Node
  reader : Ignore.Reader

/-- A parser of Rust, and rules as they are in `.gitignore` files. -/
def Tools.standard : Tools := ⟨Rust.parse, Ignore.reader⟩

structure Job where
  tools : Tools
  settings : Settings
  /-- The directory of the settings file, links followed. -/
  directory : Path
  /-- Whether calls are only counted. -/
  isCheck : Bool
  /-- The next id from the lock file. -/
  lockedId : Option Nat

namespace Job

/-- Reads a settings file, and the lock file beside it if ids are to be handed out. -/
def ofFile (tools : Tools) (path : Path) (isCheck : Bool) : Run Job := do
  let disk := (← get).disk
  match Settings.load disk path with
  | .error e => throw (.settings e)
  | .ok settings =>
    match disk.resolve path with
    | .error e => throw (.fault (.ofUnresolved e))
    | .ok resolved =>
      let lockedId ← if settings.keepsLock && !isCheck then Lock.read resolved.parent else pure none
      Session.report (.loadedSettings path.toString)
      return { tools, settings, directory := resolved.parent, isCheck, lockedId }

end Job

end LogRef
