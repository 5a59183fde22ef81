import LogRef.Discovery.Search
import LogRef.Reference.Find
import LogRef.Settings.Load

/-!
# Sessions

What a run works on: the files, the notices so far, and when it is told to stop.
-/
namespace LogRef

/-- When the question whether to stop is answered with yes. -/
inductive StopPlan
  | never
  /-- After so many questions answered with no; a signal may be what makes the answer change. -/
  | after (questions : Nat) (signal : Option Int)
  | always
  deriving DecidableEq, Repr

structure Session where
  disk : Disk
  notices : List Notice
  stop : StopPlan
  /-- What tells the names of scratch files apart. -/
  scratchTag : String
  deriving Repr

/-- Why a run ends without a result. -/
inductive Failure
  | settings (e : LoadError)
  | discovery (e : SearchError)
  | noFiles (directory : Path)
  | cancelled
  | fault (f : Fault)
  deriving Repr

def Failure.message : Failure → String
  | settings e => e.message
  | discovery e => s!"Code discovery error: {e.message}"
  | noFiles directory => s!"No files found in {directory}"
  | cancelled => "Run cancelled"
  | fault f => f.message

/-- Work on a session that cannot fail. -/
abbrev Work := StateM Session

/-- Work on a session that can; what it did before stays done. -/
abbrev Run := ExceptT Failure Work

namespace Session

def report (n : Notice) : Work Unit := modify fun s => { s with notices := s.notices ++ [n] }

def setDisk (d : Disk) : Work Unit := modify fun s => { s with disk := d }

/-- Asks whether to stop. -/
def isStopped : Work Bool := do
  match (← get).stop with
  | .never => return false
  | .always => return true
  | .after (n + 1) signal =>
    modify fun s => { s with stop := .after n signal }
    return false
  | .after 0 signal =>
    modify fun s => { s with stop := .always }
    match signal with
    | some number => report (.signalled number)
    | none => pure ()
    return true

/-- Ends the run if it is told to stop. -/
def heedStop : Run Unit := do
  if ← isStopped then throw .cancelled

/-- Reports all notices of some work and ends the run with its fault. -/
def reporting {α : Type} (work : Reporting α) : Run α := do
  let (result, notices) := work.run.run []
  modify fun s => { s with notices := s.notices ++ notices }
  match result with
  | .ok a => return a
  | .error f => throw (.fault f)

end Session

end LogRef
