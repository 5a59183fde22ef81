import LogRef.FileSystem.Tree

/-!
# Devices

A scratch file is written through a device that may fail at any call. What it will answer is given beforehand, so that
every way in which a file can be written, or not, is a value.
-/
namespace LogRef

/-- Why a device does not do what it is asked to. -/
inductive DeviceFault
  | full
  | broken
  deriving DecidableEq, Repr

def DeviceFault.kind : DeviceFault → FileError.Kind
  | full => .noSpace
  | broken => .deviceFailed

/-- What comes of a call on an open file. A call that fails may have taken some of the bytes that were to be written. -/
inductive Answer
  | done
  | failed (fault : DeviceFault) (taken : Nat)
  deriving DecidableEq, Repr

/-- What a device answers to the calls on one scratch file. Only those on the open file can be made more than once. -/
structure Device where
  /-- What keeps the file from being created. -/
  creation : Option DeviceFault
  /-- The answers to writing, flushing, syncing and closing the open file, in the order of the calls; what comes after
  them is done. -/
  calls : List Answer
  /-- What keeps the file from getting its permission bits. -/
  modeCopy : Option DeviceFault
  /-- What keeps the file from taking the place of another. -/
  rename : Option DeviceFault
  /-- The answer to closing a file that is given up while it is open. -/
  closing : Answer
  /-- What keeps a file that is given up from being removed. -/
  removal : Option DeviceFault
  deriving DecidableEq, Repr

namespace Device

/-- A device that does all it is asked to. -/
def sound : Device := ⟨none, [], none, none, .done, none⟩

/-- The answer to the next call on the open file, and the device after it. -/
def next (device : Device) : Answer × Device :=
  (device.calls.headD .done, { device with calls := device.calls.tail })

end Device

/-- The devices that files are on. -/
abbrev Devices := Path → Device

/-- All files are on devices that do what they are asked to. -/
def Devices.sound : Devices := fun _ => .sound

end LogRef
