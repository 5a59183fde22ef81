import LogRef.Run.Audit
import LogRef.Run.Insertion
import LogRef.Run.Job
import LogRef.Run.Survey

/-!
# Commands

Counting the calls without a reference, and giving each of them one.
-/
namespace LogRef

/-- How many calls have no reference. -/
structure Shortfall where
  missing : Int
  deriving DecidableEq, Repr

def Shortfall.isNone (s : Shortfall) : Bool := s.missing = 0

/-- What came of handing out ids; without a next id none were needed. -/
structure Numbering where
  /-- Whether every call that could be read has a reference now. -/
  isComplete : Bool
  inserted : Int
  nextId : Option Int
  deriving DecidableEq, Repr

namespace Job

/-- What is searched for source files. -/
def search (job : Job) : Search where
  directory := job.settings.sourceDir
  extensions := job.settings.extensions
  exclude := job.settings.exclude
  isNested := job.settings.nestedIgnore
  reader := job.tools.reader

/-- The source files; there has to be one. -/
def sources (job : Job) : Run (List Path) := do
  match job.search.files (← get).disk with
  | .error (.fault f) => throw (.fault f)
  | .error e => throw (.discovery e)
  | .ok [] => throw (.noFiles job.settings.sourceDir)
  | .ok files =>
    Session.report (.foundFiles files.length)
    return files

/-- Counts the calls without a reference. -/
def count (job : Job) : Run Shortfall := do
  let files ← job.sources
  let outcome ← Audit.pass.run job.tools.parse job.settings () files
  if outcome.result != 0 then Session.report .missingFound
  return ⟨outcome.result⟩

/-- The first id to hand out, from the lock file or from a survey; none if no call needs one. -/
def startId (job : Job) (files : List Path) : Run (Option Int) := do
  match job.settings.keepsLock, job.lockedId with
  | true, some id =>
    Session.report .usingCachedId
    return some id
  | _, _ =>
    Session.report .scanningForId
    let outcome ← Survey.pass.run job.tools.parse job.settings () files
    if outcome.result.missing = 0 then
      Session.report .nothingMissing
      return none
    else return some outcome.result.nextId

/-- Hands out ids from `start` on. If the run is told to stop meanwhile, the lock file goes away. -/
def insertFrom (job : Job) (devices : Devices) (start : Int) (files : List Path) :
    Run (Outcome (Option Counter) Insertion) := ExceptT.mk do
  match ← ((Insertion.pass devices).run job.tools.parse job.settings (some ⟨start⟩) files).run with
  | .error .cancelled =>
    let tidy : Run Unit := if job.settings.keepsLock then Lock.remove job.directory else pure ()
    (do tidy; throw .cancelled : Run _).run
  | outcome => return outcome

/-- Gives every call without a reference the next id, in files that are on the given devices. -/
def numberOn (devices : Devices) (job : Job) : Run Numbering := do
  let files ← job.sources
  match ← job.startId files with
  | none => return ⟨true, 0, none⟩
  | some start =>
    Session.report (.nextId start)
    let outcome ← job.insertFrom devices start files
    Session.report (.insertedInAll outcome.result.inserted)
    let next := (outcome.state.map Counter.next).getD start
    if job.settings.keepsLock then
      let _ ← Lock.write job.directory next
    return {
      isComplete := !outcome.result.hasFailed && outcome.skipped.isEmpty
      inserted := outcome.result.inserted
      nextId := some next }

/-- Gives every call without a reference the next id. -/
def number (job : Job) : Run Numbering := job.numberOn .sound

end Job

end LogRef
