import LogRef.Run.Device

/-!
# Staged files

New contents for a file are gathered beside it in a scratch file, which takes its place in one step or not at
all.
-/
namespace LogRef

namespace Staged

/-- The scratch file as something to write to. -/
inductive Stream
  /-- It was not opened yet, or it is closed. -/
  | absent
  /-- It is open, and holds what was written so far. -/
  | opened (contents : Bytes)
  /-- Closing it failed, and still it is held for open. -/
  | shut
  deriving DecidableEq, Repr

/-- Why a step with a staged file fails. -/
inductive Error
  /-- The scratch file is not open. -/
  | notOpen
  /-- The scratch file is held for open and is not. -/
  | shut (call : String)
  | device (fault : DeviceFault)
  | file (e : FileError)
  deriving DecidableEq, Repr

def Error.message : Error → String
  | notOpen => "AtomicRewrite used outside of its context"
  | shut call => s!"{call} closed file"
  | device fault => fault.kind.summary
  | file e => e.message

end Staged

/-- New contents for `target`. -/
structure Staged where
  target : Path
  /-- The scratch file, once there is one. -/
  scratch : Option Path
  stream : Staged.Stream
  /-- What the device under the scratch file has still to answer. -/
  device : Device
  isCommitted : Bool
  deriving DecidableEq, Repr

namespace Staged

def new (target : Path) (device : Device) : Staged := ⟨target, none, .absent, device, false⟩

/-- The scratch file beside a target. -/
def scratchPath (d : Disk) (tag : String) (target : Path) : Path :=
  (d.absolute target.parent).child s!".{target.name}.{tag}.breadlog"

/-- Creates the scratch file. -/
def enter (s : Staged) (d : Disk) (tag : String) : Except Error (Staged × Disk) :=
  let path := scratchPath d tag s.target
  match s.device.creation with
  | some fault => .error (.file ⟨fault.kind, path.toString, none⟩)
  | none =>
    match d.createPrivate path with
    | .ok d => .ok ({ s with scratch := some path, stream := .opened [] }, d)
    | .error e => .error (.file e)

/-- Work on a staged file and the disk that can fail; what it did before stays done. -/
abbrev Act := ExceptT Error (StateM (Staged × Disk))

def setStream (stream : Stream) : Act Unit := modify fun (s, d) => ({ s with stream }, d)

/-- Asks the device for the answer to a call on the open file. -/
def ask : Act Answer := do
  let (s, d) ← get
  let (answer, device) := s.device.next
  set ({ s with device }, d)
  return answer

/-- What the scratch file holds on the disk. It is open, so that nothing comes in between. -/
def store (scratch : Path) (data : Bytes) : Act Unit :=
  modify fun (s, d) => (s, (d.write scratch data).toOption.getD d)

/-- What a file operation gives. -/
def ofFile {α : Type} : Except FileError α → Act α
  | .ok a => return a
  | .error e => throw (.file e)

/-- Adds to the contents. -/
def write (data : Bytes) : Act Unit := do
  match (← get).1.stream with
  | .absent => throw .notOpen
  | .shut => throw (.shut "write to")
  | .opened before =>
    match ← ask with
    | .done => setStream (.opened (before ++ data))
    | .failed fault taken =>
      setStream (.opened (before ++ data.take taken))
      throw (.device fault)

/-- Brings the contents to the disk. -/
def flush (scratch : Path) (contents : Bytes) : Act Unit := do
  match ← ask with
  | .done => store scratch contents
  | .failed fault taken =>
    store scratch (contents.take taken)
    throw (.device fault)

/-- Makes sure that they stay there. -/
def sync : Act Unit := do
  match ← ask with
  | .done => return
  | .failed fault _ => throw (.device fault)

def close : Act Unit := do
  match ← ask with
  | .done => setStream .absent
  | .failed fault _ =>
    setStream .shut
    throw (.device fault)

/-- Gives the scratch file the permission bits of the target. -/
def copyMode (scratch : Path) : Act Unit := do
  let (s, d) ← get
  let mode ← ofFile (d.mode s.target)
  match s.device.modeCopy with
  | some fault => throw (.file ⟨fault.kind, scratch.toString, none⟩)
  | none => set (s, ← ofFile (d.setMode scratch mode))

/-- Puts the scratch file in place of the target. -/
def rename (scratch : Path) : Act Unit := do
  let (s, d) ← get
  match s.device.rename with
  | some fault => throw (.file ⟨fault.kind, scratch.toString, some s.target.toString⟩)
  | none => set ({ s with isCommitted := true }, ← ofFile (d.replace scratch s.target))

/-- Puts the contents in place of the target. -/
def commit : Act Unit := do
  let (s, _) ← get
  match s.stream, s.scratch with
  | .opened contents, some scratch =>
    flush scratch contents
    sync
    close
    copyMode scratch
    rename scratch
  | .shut, some _ => throw (.shut "flush of")
  | _, _ => throw .notOpen

/-- Closes a scratch file that is still open. -/
def closeLate (scratch : Path) : Act Unit := do
  let (s, _) ← get
  match s.stream with
  | .opened contents =>
    match s.device.closing with
    | .done =>
      store scratch contents
      setStream .absent
    | .failed fault taken =>
      store scratch (contents.take taken)
      setStream .shut
      throw (.device fault)
  | _ => setStream .absent

/-- Removes a scratch file that did not take the place of its target; it does not matter whether that works. -/
def discard (scratch : Path) : Act Unit := do
  let (s, d) ← get
  if !s.isCommitted && s.device.removal.isNone then set (s, (d.remove scratch).toOption.getD d)

/-- Closes the scratch file and removes it, if it did not take the place of the target. -/
def leave : Act Unit := do
  match (← get).1.scratch with
  | none => return
  | some scratch =>
    closeLate scratch
    discard scratch

end Staged

end LogRef
