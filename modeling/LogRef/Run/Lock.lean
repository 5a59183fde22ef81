import LogRef.Run.Session

/-!
# Lock files

The next id is kept in a file beside the settings. A file that is missing or damaged is as good as none.
-/
namespace LogRef.Lock

def fileName : String := "Breadlog.lock"

def path (directory : Path) : Path := directory.child fileName

/-- The key that the next id stands under. -/
def key : String := "next_reference_id"

/-- What a lock file begins with. -/
def banner : String :=
  "# This file is automatically @generated by Breadlog.\n# It is not intended for manual editing.\n"

/-- The text of a lock file. -/
def text (id : Nat) : String := s!"{banner}{key}: {id}\n"

/-- An id within the bounds of ids. -/
def bounded (id : Int) : Checked Nat :=
  if id < 0 then Checked.fail (.below 0)
  else if (greatestId : Int) < id then Checked.fail (.above greatestId)
  else .ok id.toNat

/-- The id of a lock file's value. -/
def ofValue (v : Value) : Checked Nat := do
  let pairs ← Check.fields "CacheRecord" v
  let found := Check.required pairs key fun v => do bounded (← Check.number v)
  found.orIssues (Check.strangeKeys [key] pairs)

/-- Why a lock file counts as none. -/
inductive Damage
  | unreadable (e : FileError)
  | undecodable (e : Utf8.DecodeError)
  | malformed
  | fault (f : Fault)
  | invalid (issues : List Issue)

/-- How deep a lock file goes: it is a mapping to numbers. -/
def levels : Nat := 3

/-- The id in a lock file. -/
def parse (data : Bytes) : Except Damage Nat :=
  match Utf8.decode data with
  | .error e => .error (.undecodable e)
  | .ok text =>
    match Yaml.valueOf levels (Text.unifyBreaks text) with
    | .error .malformed => .error .malformed
    | .error (.fault f) => .error (.fault f)
    | .ok v => (ofValue v).mapError .invalid

/-- Reports the damage of a lock file. Only values of the wrong form are passed over. -/
def reportDamage (path : Path) : Damage → Run Unit
  | .unreadable e => Session.report (.lockUnreadable path.toString e.message)
  | .undecodable e => Session.report (.lockUnreadable path.toString e.message)
  | .malformed =>
    Session.report (.lockUnreadable path.toString Yaml.Problem.malformed.message)
  | .invalid issues => Session.report (.lockMalformed path.toString (Issue.summary issues))
  | .fault f =>
    if f.isBadValue then Session.report (.lockMalformed path.toString f.message)
    else throw (.fault f)

/-- The id in the lock file of a directory, if there is one. -/
def read (directory : Path) : Run (Option Nat) := do
  let disk := (← get).disk
  match disk.isFile (path directory) with
  | .error e => throw (.fault (.file e))
  | .ok false => return none
  | .ok true => pure ()
  let found : Except Damage Nat := do parse (← (disk.read (path directory)).mapError .unreadable)
  match found with
  | .ok id => return some id
  | .error damage =>
    reportDamage (path directory) damage
    return none

/-- Writes the lock file of a directory; says whether that worked. -/
def write (directory : Path) (id : Int) : Run Bool := do
  match bounded id with
  | .error issues =>
    Session.report (.lockRefused id (Issue.summary (issues.map (Issue.under key))))
    return false
  | .ok n =>
    match (← get).disk.write (path directory) (Bytes.ofString (text n)) with
    | .error e =>
      if e.isRefused then throw (.fault (.file e))
      Session.report (.lockWriteFailed (path directory).toString e.message)
      return false
    | .ok disk =>
      Session.setDisk disk
      Session.report (.lockWritten (path directory).toString id)
      return true

/-- Removes the lock file of a directory, if there is one. -/
def remove (directory : Path) : Run Unit := do
  match (← get).disk.remove (path directory) with
  | .ok disk => Session.setDisk disk
  | .error e =>
    if e.isRefused then throw (.fault (.file e))
    else if e.kind = .notFound then return
    else Session.report (.lockRemoveFailed (path directory).toString e.message)

end LogRef.Lock
