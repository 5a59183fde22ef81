import LogRef.Run.Counter
import LogRef.Run.Pass
import LogRef.Run.Staged

/-!
# Insertion

Every call without a reference gets the next id. A file is changed at all its places or at none.
-/
namespace LogRef

/-- What came of annotating: whether something went wrong, and how many ids were put in. -/
structure Insertion where
  hasFailed : Bool
  inserted : Int
  deriving DecidableEq, Repr

namespace Insertion

/-- Whether offsets never go back. -/
def isAscending : List Int → Bool
  | a :: b :: rest => a ≤ b && isAscending (b :: rest)
  | _ => true

/-- How far the rewriting of a file has come. -/
structure Progress where
  staged : Staged
  disk : Disk
  counter : Counter
  /-- How many ids were written. -/
  written : Nat

/-- Why the rewriting of a file ends early. -/
inductive Setback
  | overflow (o : Overflow)
  | staged (e : Staged.Error)

/-- Work on the new contents of a file. -/
abbrev Rewriting := ExceptT Setback (StateM Progress)

/-- Does something with the staged file. -/
def act (step : Staged.Act Unit) : Rewriting Unit := do
  let p ← get
  let (result, staged, disk) := step.run.run (p.staged, p.disk)
  set { p with staged, disk }
  match result with
  | .ok () => return
  | .error e => throw (.staged e)

/-- Takes the next id. -/
def fetch : Rewriting Int := do
  let p ← get
  match p.counter.fetch with
  | .ok (id, counter) =>
    set { p with counter }
    return id
  | .error o => throw (.overflow o)

/-- Writes the contents from `cursor` on, with the next ids at the places of `targets`. An id is taken when its place is
reached. -/
def fill (contents : Bytes) : (cursor : Nat) → (targets : List Entry) → Rewriting Unit
  | cursor, [] => act (Staged.write (contents.drop cursor))
  | cursor, e :: rest => do
    let place := clampOffset contents.length e.position.offset
    act (Staged.write ((contents.take place).drop cursor))
    let id ← fetch
    act (Staged.write (Bytes.ofString (e.markFor id)))
    modify fun p => { p with written := p.written + 1 }
    fill contents place rest

/-- Puts ids at the places of `targets` and the new contents in place of the file. If the scratch file cannot be left as
it should, that is what is said to be wrong. -/
def updateFile (device : Device) (path : Path) (contents : Bytes) (targets : List Entry) (c : Counter) :
    Work (Insertion × Counter) := do
  let s ← get
  match (Staged.new path device).enter s.disk s.scratchTag with
  | .error e =>
    Session.report (.updateFailed path.toString e.message)
    return (⟨true, 0⟩, c)
  | .ok (staged, disk) =>
    let rewriting : Rewriting Unit := do
      fill contents 0 targets
      act Staged.commit
    let (result, p) := rewriting.run.run ⟨staged, disk, c, 0⟩
    let (left, _, disk) := Staged.leave.run.run (p.staged, p.disk)
    Session.setDisk disk
    match left, result with
    | .error e, _ | .ok (), .error (.staged e) =>
      Session.report (.updateFailed path.toString e.message)
      return (⟨true, p.written⟩, p.counter)
    | .ok (), .error (.overflow o) =>
      Session.report (.cannotInsert path.toString o.message)
      return (⟨true, 0⟩, p.counter)
    | .ok (), .ok () =>
      Session.report (.inserted path.toString p.written)
      return (⟨false, p.written⟩, p.counter)

/-- Reports a call whose `ref` argument is no id; it is left alone. -/
def reportUnusable (path : Path) (e : Entry) : Work Unit :=
  Session.report (.unusableReference path.toString e.position.line e.position.column)

/-- Puts ids at the places of `targets`, if there is a counter and the places are in order. -/
def annotate (device : Device) (path : Path) (contents : Bytes) (targets : List Entry) (counter : Option Counter) :
    Work (Insertion × Option Counter) := do
  let offsets := targets.map fun e => e.position.offset
  match counter with
  | none =>
    Session.report (.noCounter path.toString)
    return (⟨true, 0⟩, none)
  | some c =>
    if !isAscending offsets then
      Session.report (.outOfOrder path.toString)
      return (⟨true, 0⟩, some c)
    else if contents.length < offsets.getLastD 0 then
      Session.report (.pastEnd path.toString)
      return (⟨true, 0⟩, some c)
    else
      let (result, c) ← updateFile device path contents targets c
      return (result, some c)

/-- Annotates the calls of a file that have no reference. -/
def visit (device : Device) (counter : Option Counter) (path : Path) (contents : Bytes) (entries : List Entry) :
    Work (Insertion × Option Counter) := do
  let pending := entries.filter fun e => !e.hasReference
  let targets := pending.filter Entry.isUsable
  let unusable := pending.filter fun e => !e.isUsable
  unusable.forM (reportUnusable path)
  if targets.isEmpty then return (⟨!unusable.isEmpty, 0⟩, counter)
  let (result, counter) ← annotate device path contents targets counter
  return ({ result with hasFailed := result.hasFailed || !unusable.isEmpty }, counter)

/-- What came of annotating all files. -/
def conclude (files : List Insertion) : Insertion :=
  ⟨files.any Insertion.hasFailed, Pass.addUp (files.map Insertion.inserted)⟩

def pass (devices : Devices) : Pass (Option Counter) Insertion Insertion where
  visit counter path contents entries := do
    let (result, counter) ← visit (devices path) counter path contents entries
    return (counter, some result)
  conclude files := return conclude files

end Insertion

end LogRef
