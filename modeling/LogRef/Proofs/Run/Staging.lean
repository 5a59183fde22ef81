import LogRef.Proofs.FileSystem.Lookup
import LogRef.Proofs.Results
import LogRef.Run.Staged

/-!
# Staged files take the place of their target

Until a staged file is committed, all that is new on the disk is its scratch file, whatever fails. Where that can be
closed and removed, giving it up leaves the disk as it was. A commit that works leaves the contents, and nothing else,
in place of the target.
-/
namespace LogRef

namespace Disk

variable {d d' : Disk} {p target : Path} {place : Place} {data : Bytes} {mode : Nat}

/-- The disk with a file at a place. -/
def withFile (d : Disk) (place : Place) (data : Bytes) (mode : Nat) : Disk :=
  { d with tree := d.tree.put place (.file data mode) }

/-- Whatever file is put at the free place, the path leads to it. -/
structure LeadsToFree (d : Disk) (p : Path) (place : Place) : Prop where
  notTop : place ≠ []
  free : d.tree.get? place = none
  found : ∀ data mode follow, (d.withFile place data mode).locate follow p =
    .ok (.occupied place (.file data mode))

theorem withFile_sameBut (d : Disk) (place : Place) (data : Bytes) (mode : Nat) :
    FileTree.SameBut place d.tree (d.withFile place data mode).tree :=
  fun _ hq => FileTree.get?_put_ne hq

theorem leadsToFree_of_locate {parent : Place} {name : String}
    (h : d.locate false p = .ok (.free parent name)) : d.LeadsToFree p (parent ++ [name]) := by
  have hne : parent ++ [name] ≠ [] := by simp
  have hput : ∀ data mode, (d.withFile (parent ++ [name]) data mode).tree.get? (parent ++ [name]) =
      some (.file data mode) := fun data mode => FileTree.get?_put_self hne
  have hsame := d.withFile_sameBut (parent ++ [name])
  have hfound (data mode) := (locate_of_put (hsame data mode) (hput data mode) h).2
  refine ⟨hne, (locate_of_put (hsame [] 0) (hput [] 0) h).1, fun data mode follow => ?_⟩
  cases follow with
  | false => exact hfound data mode
  | true => exact locate_followed (hfound data mode) fun target ht => by cases ht

/-- The path leads to the place, and nothing is there. -/
def Awaits (d : Disk) (follow : Bool) (p : Path) (place : Place) : Prop :=
  ∃ parent name, d.locate follow p = .ok (.free parent name) ∧ parent ++ [name] = place

theorem Awaits.leadsToFree (h : d.Awaits false p place) : d.LeadsToFree p place := by
  obtain ⟨parent, name, hl, rfl⟩ := h
  exact leadsToFree_of_locate hl

theorem createPrivate_ok (h : d.createPrivate p = .ok d') :
    ∃ place, d.Awaits false p place ∧ d' = d.withFile place [] 0o600 := by
  unfold createPrivate at h
  split at h
  · cases h
  · next parent name hl => exact ⟨_, ⟨parent, name, hl, rfl⟩, (Except.ok.inj h).symm⟩
  · cases h

namespace LeadsToFree

variable (hp : d.LeadsToFree p place)
include hp

theorem remove : (d.withFile place data mode).remove p = .ok d := by
  rw [Disk.remove, hp.found]
  exact congrArg (fun t => Except.ok { d with tree := t }) (FileTree.erase_put hp.notTop hp.free _)

theorem write (more : Bytes) :
    (d.withFile place data mode).write p more = .ok (d.withFile place more mode) := by
  rw [Disk.write, hp.found]
  exact congrArg (fun t => Except.ok { d with tree := t }) (FileTree.put_put _ _ _ _)

theorem setMode (other : Nat) :
    (d.withFile place data mode).setMode p other = .ok (d.withFile place data other) := by
  rw [Disk.setMode, hp.found]
  exact congrArg (fun t => Except.ok { d with tree := t }) (FileTree.put_put _ _ _ _)

/-- Other paths lead where they led. -/
theorem locate_other {follow : Bool} {q : Place} {item : Item}
    (h : d.locate follow target = .ok (.occupied q item)) (hitem : ∀ mode, item ≠ .directory mode) :
    (d.withFile place data mode).locate follow target = .ok (.occupied q item) :=
  locate_of_sameBut (d.withFile_sameBut place data mode) hp.free h hitem

theorem replace {q : Place} {item : Item} (h : d.locate false target = .ok (.occupied q item))
    (hitem : ∀ mode, item ≠ .directory mode) :
    (d.withFile place data mode).replace p target = .ok (d.withFile q data mode) := by
  have hto : (d.withFile place data mode).locate false target = .ok (.occupied q item) :=
    hp.locate_other h hitem
  rw [Disk.replace, hp.found, hto]
  have herase : ((d.withFile place data mode).tree.erase place).put q (.file data mode) =
      d.tree.put q (.file data mode) := by
    rw [withFile, FileTree.erase_put hp.notTop hp.free]
  cases item with
  | directory m => exact absurd rfl (hitem m)
  | file old m => exact congrArg (fun t => Except.ok { d with tree := t }) herase
  | link to_ => exact congrArg (fun t => Except.ok { d with tree := t }) herase

end LeadsToFree

/-- The path leads to a file: with `place` and `mode`, what stands for it and its permission bits. -/
structure LeadsToFile (d : Disk) (p : Path) (place : Place) (mode : Nat) : Prop where
  followed : ∃ q data, d.locate true p = .ok (.occupied q (.file data mode))
  found : ∃ item, d.locate false p = .ok (.occupied place item) ∧ ∀ mode, item ≠ .directory mode

/-- A file is read where it is found, and it can be read there. -/
theorem locate_of_read (h : d.read p = .ok data) :
    ∃ q mode, d.locate true p = .ok (.occupied q (.file data mode)) ∧ q ∉ d.unreadable := by
  unfold read at h
  split at h
  · next q old mode hl =>
    split at h
    · cases h
    · next hq =>
      cases h
      exact ⟨q, mode, hl, hq⟩
  all_goals cases h

theorem leadsToFile_of_read (h : d.read p = .ok data) : ∃ place mode, d.LeadsToFile p place mode := by
  obtain ⟨q, mode, hl, _⟩ := locate_of_read h
  obtain ⟨place, item, hfound, hitem⟩ := locate_unfollowed hl
  exact ⟨place, mode, ⟨q, data, hl⟩, item, hfound, hitem⟩

/-- New contents stand where the path leads, seen with a scratch file on the disk, and all else is as it was. Where the
path leads to a file they stand in its place, with its permission bits. -/
structure Replaced (d : Disk) (p : Path) (new : Bytes) (d' : Disk) : Prop where
  put : ∃ place mode, d' = d.withFile place new mode ∧
    ∃ beside data bits, d.tree.get? beside = none ∧ (d.withFile beside data bits).Names p place
  file : ∀ {place mode}, d.LeadsToFile p place mode → d' = d.withFile place new mode

/-- New contents stand in place of a file, and all else is as it was; equal contents need not be written. -/
def Rewritten (d : Disk) (p : Path) (old new : Bytes) (d' : Disk) : Prop :=
  (new = old ∧ d' = d) ∨ ∃ place mode, d.LeadsToFile p place mode ∧ d' = d.withFile place new mode

end Disk

namespace Device

/-- Every call on the open file is done. -/
def TakesAll (device : Device) : Prop := ∀ answer ∈ device.calls, answer = .done

/-- The next calls on the open file are done, so many of them. -/
def lasts (device : Device) (n : Nat) : Bool := (device.calls.take n).all (· == .done)

/-- The device after so many calls on the open file. -/
def after (device : Device) (n : Nat) : Device := { device with calls := device.calls.drop n }

/-- A scratch file that is given up can be closed and removed. -/
structure Tidy (device : Device) : Prop where
  closing : device.closing = .done
  removal : device.removal = none

/-- The device after some calls on the open file. -/
def Later (device device' : Device) : Prop := ∃ calls, device' = { device with calls }

variable {device device' : Device} {k n : Nat}

theorem Later.refl (device : Device) : device.Later device := ⟨device.calls, rfl⟩

theorem Later.trans {device2 : Device} (h : device.Later device') (h' : device'.Later device2) :
    device.Later device2 := by
  obtain ⟨calls, rfl⟩ := h
  exact h'

theorem Later.next (h : device.Later device') : device.Later device'.next.2 := by
  obtain ⟨calls, rfl⟩ := h
  exact ⟨calls.tail, rfl⟩

theorem Later.tidy (h : device.Later device') (htidy : device.Tidy) : device'.Tidy := by
  obtain ⟨calls, rfl⟩ := h
  exact ⟨htidy.closing, htidy.removal⟩

theorem TakesAll.next (h : device.TakesAll) : device.next.1 = .done ∧ device.next.2.TakesAll := by
  obtain ⟨creation, calls, modeCopy, rename, closing, removal⟩ := device
  cases calls with
  | nil => exact ⟨rfl, h⟩
  | cons answer calls => exact ⟨h answer List.mem_cons_self, fun a ha => h a (List.mem_cons_of_mem answer ha)⟩

theorem later_after (device : Device) (n : Nat) : device.Later (device.after n) := ⟨_, rfl⟩

theorem lasts_zero (device : Device) : device.lasts 0 = true := rfl

theorem lasts_succ (device : Device) (n : Nat) :
    device.lasts (n + 1) = ((device.next.1 == .done) && device.next.2.lasts n) := by
  obtain ⟨creation, calls, modeCopy, rename, closing, removal⟩ := device
  cases calls with
  | nil => simp [lasts, next]
  | cons answer calls => simp [lasts, next]

theorem after_next (device : Device) (n : Nat) : device.next.2.after n = device.after (n + 1) := by
  simp [after, next, List.drop_tail]

theorem next_eq_after (device : Device) : device.next.2 = device.after 1 := by
  simp [after, next]

theorem lasts_of_le (h : k ≤ n) (hn : device.lasts n = true) : device.lasts k = true := by
  rw [lasts, List.all_eq_true] at hn ⊢
  intro answer ha
  exact hn answer ((List.take_subset_take_left _ h) ha)

theorem lasts_of_not_lasts (h : k ≤ n) (hk : device.lasts k = false) : device.lasts n = false :=
  Bool.eq_false_iff.mpr fun hn => Bool.eq_false_iff.mp hk (lasts_of_le h hn)

theorem lasts_of_done (h : device.next.1 = .done) (n : Nat) : device.lasts (n + 1) = device.next.2.lasts n := by
  rw [lasts_succ, h]
  rfl

theorem lasts_of_failed {fault : DeviceFault} {taken : Nat} (h : device.next.1 = .failed fault taken) (n : Nat) :
    device.lasts (n + 1) = false := by
  rw [lasts_succ, h]
  rfl

theorem done_of_lasts (h : device.lasts 3 = true) :
    device.next.1 = .done ∧ device.next.2.next.1 = .done ∧ device.next.2.next.2.next.1 = .done := by
  simpa [lasts_succ, lasts_zero] using h

theorem lasts_add (device : Device) (m n : Nat) :
    device.lasts (m + n) = (device.lasts m && (device.after m).lasts n) := by
  rw [lasts, List.take_add, List.all_append]
  rfl

theorem TakesAll.lasts (h : device.TakesAll) (n : Nat) : device.lasts n = true := by
  rw [Device.lasts, List.all_eq_true]
  intro answer ha
  rw [h answer (List.mem_of_mem_take ha)]
  rfl

theorem takesAll_sound : sound.TakesAll := fun _ h => by cases h

theorem tidy_sound : sound.Tidy := ⟨rfl, rfl⟩

end Device

/-- On all devices, a scratch file that is given up can be closed and removed. -/
def Devices.Tidy (devices : Devices) : Prop := ∀ p, (devices p).Tidy

theorem Devices.tidy_sound : sound.Tidy := fun _ => Device.tidy_sound

namespace Staged

open Run

variable {d d' : Disk} {tag : String} {target scratch : Path} {s : Staged} {place : Place} {device device' : Device}
  {contents data : Bytes} {mode : Nat} {x y : Staged × Disk} {e : Error}

/-- A staged file that did not take the place of its target: its scratch file is on the disk, and all else is as it
was. -/
structure InUse (d : Disk) (target scratch : Path) (place : Place) (device : Device) (x : Staged × Disk) : Prop where
  target : x.1.target = target
  scratch : x.1.scratch = some scratch
  uncommitted : x.1.isCommitted = false
  device : device.Later x.1.device
  disk : ∃ data mode, x.2 = d.withFile place data mode

/-- A staged file that is open, with what was written so far, and nothing of it in the scratch file. -/
def opened (target scratch : Path) (contents : Bytes) (device : Device) : Staged :=
  ⟨target, some scratch, .opened contents, device, false⟩

theorem InUse.of_later (h : InUse d target scratch place device' x) (hlater : device.Later device') :
    InUse d target scratch place device x := by
  obtain ⟨calls, rfl⟩ := hlater
  exact ⟨h.target, h.scratch, h.uncommitted, h.device, h.disk⟩

theorem inUse_opened (hlater : device.Later device') :
    InUse d target scratch place device (opened target scratch contents device', d.withFile place data mode) :=
  ⟨rfl, rfl, rfl, hlater, data, mode, rfl⟩

theorem enter_ok (h : (new target device).enter d tag = .ok (s, d')) : device.creation = none ∧
    ∃ place, d.Awaits false (scratchPath d tag target) place ∧ d' = d.withFile place [] 0o600 ∧
      s = opened target (scratchPath d tag target) [] device := by
  simp only [enter, new] at h
  split at h
  · cases h
  · next hcreation =>
    split at h
    · next d1 hc =>
      obtain ⟨rfl, rfl⟩ := Prod.mk.inj (Except.ok.inj h)
      obtain ⟨place, hfree, hd⟩ := Disk.createPrivate_ok hc
      exact ⟨hcreation, place, hfree, hd, rfl⟩
    · cases h

/-- A scratch file can be made beside the target, at a place where nothing is. -/
structure Opens (device : Device) (target : Path) (d : Disk) (tag : String) (place : Place) : Prop where
  creation : device.creation = none
  awaits : d.Awaits false (scratchPath d tag target) place

theorem Opens.enter (h : Opens device target d tag place) : (new target device).enter d tag =
    .ok (opened target (scratchPath d tag target) [] device, d.withFile place [] 0o600) := by
  obtain ⟨hcreation, parent, name, hl, rfl⟩ := h
  simp only [Staged.enter, new, hcreation, Disk.createPrivate, hl]
  rfl

theorem enter_cases (device : Device) (target : Path) (d : Disk) (tag : String) :
    (∃ why, (new target device).enter d tag = .error (.file why)) ∨ ∃ place, Opens device target d tag place := by
  cases henter : (new target device).enter d tag with
  | error e =>
    left
    simp only [Staged.enter] at henter
    split at henter
    · exact ⟨_, henter.symm⟩
    · split at henter
      · cases henter
      · exact ⟨_, henter.symm⟩
  | ok x =>
    obtain ⟨s, d1⟩ := x
    obtain ⟨hcreation, place, hplace, _⟩ := enter_ok henter
    exact .inr ⟨place, hcreation, hplace⟩

/-! ## Writing -/

/-- The answer to a call on the open file, and the staged file after it. -/
theorem run_ask {answer : Answer} (h : device.next.1 = answer) :
    ask.run.run (opened target scratch contents device, d) =
      (.ok answer, opened target scratch contents device.next.2, d) := by
  rw [← h]
  rfl

theorem run_write_done (h : device.next.1 = .done) (data : Bytes) :
    (write data).run.run (opened target scratch contents device, d) =
      (.ok (), opened target scratch (contents ++ data) device.next.2, d) := by
  rw [write, run_get_bind]
  exact run_bind_ok (run_ask h)

theorem run_write_failed {fault : DeviceFault} {taken : Nat} (h : device.next.1 = .failed fault taken) (data : Bytes) :
    (write data).run.run (opened target scratch contents device, d) =
      (.error (.device fault), opened target scratch (contents ++ data.take taken) device.next.2, d) := by
  rw [write, run_get_bind]
  exact run_bind_ok (run_ask h)

/-! ## Committing -/

/-- The last two steps of a commit, which put a closed scratch file in place. -/
def land (scratch : Path) : Act Unit := do
  copyMode scratch
  rename scratch

/-- What landing comes to on the disk, if nothing fails. -/
def landed (d : Disk) (scratch target : Path) : Except FileError Disk := do
  let mode ← d.mode target
  let d ← d.setMode scratch mode
  d.replace scratch target

theorem run_ofFile_ok {α : Type} (a : α) (x : Staged × Disk) : (ofFile (.ok a)).run.run x = (.ok a, x) := rfl

/-- A scratch file lands if the device allows it and the disk does. -/
theorem land_ok (hcopy : s.device.modeCopy = none) (hrename : s.device.rename = none)
    (h : landed d scratch s.target = .ok d') :
    (land scratch).run.run (s, d) = (.ok (), { s with isCommitted := true }, d') := by
  obtain ⟨mode, hmode, h⟩ := bind_ok h
  obtain ⟨d1, hset, hreplace⟩ := bind_ok h
  have hcopied : (copyMode scratch).run.run (s, d) = (.ok (), s, d1) := by
    simp only [copyMode, run_get_bind, hmode, hcopy]
    rw [run_bind_ok (run_ofFile_ok mode _), hset]
    rfl
  rw [land, run_bind_ok hcopied]
  simp only [rename, run_get_bind, hrename, hreplace]
  rfl

theorem copyMode_cases (scratch : Path) (s : Staged) (d : Disk) :
    (∃ why, (copyMode scratch).run.run (s, d) = (.error (.file why), s, d)) ∨
      ∃ mode d1, d.mode s.target = .ok mode ∧ s.device.modeCopy = none ∧ d.setMode scratch mode = .ok d1 ∧
        (copyMode scratch).run.run (s, d) = (.ok (), s, d1) := by
  simp only [copyMode, run_get_bind]
  cases hmode : d.mode s.target with
  | error why => exact .inl ⟨why, rfl⟩
  | ok mode =>
    rw [run_bind_ok (run_ofFile_ok mode _)]
    cases hcopy : s.device.modeCopy with
    | some fault => exact .inl ⟨_, rfl⟩
    | none =>
      cases hset : d.setMode scratch mode with
      | error why => exact .inl ⟨why, rfl⟩
      | ok d1 => exact .inr ⟨mode, d1, rfl, rfl, hset, rfl⟩

theorem rename_cases (scratch : Path) (s : Staged) (d : Disk) :
    (∃ why, (rename scratch).run.run (s, d) = (.error (.file why), s, d)) ∨
      ∃ d', s.device.rename = none ∧ d.replace scratch s.target = .ok d' ∧
        (rename scratch).run.run (s, d) = (.ok (), { s with isCommitted := true }, d') := by
  simp only [rename, run_get_bind]
  cases hrename : s.device.rename with
  | some fault => exact .inl ⟨_, rfl⟩
  | none =>
    cases hreplace : d.replace scratch s.target with
    | error why => exact .inl ⟨why, rfl⟩
    | ok d' => exact .inr ⟨d', rfl, rfl, rfl⟩

/-- A scratch file lands, or it stays where it is, perhaps with other permission bits. -/
theorem land_cases (hfree : d.LeadsToFree scratch place) (s : Staged) (contents : Bytes) (mode : Nat) :
    (∃ why mode', (land scratch).run.run (s, d.withFile place contents mode) =
        (.error (.file why), s, d.withFile place contents mode')) ∨
      ∃ d', s.device.modeCopy = none ∧ s.device.rename = none ∧
        landed (d.withFile place contents mode) scratch s.target = .ok d' ∧
        (land scratch).run.run (s, d.withFile place contents mode) = (.ok (), { s with isCommitted := true }, d') := by
  rcases copyMode_cases scratch s (d.withFile place contents mode) with
    ⟨why, hfails⟩ | ⟨bits, d1, hmode, hcopy, hset, hok⟩
  · exact .inl ⟨why, mode, run_bind_error hfails⟩
  obtain rfl : d.withFile place contents bits = d1 := Except.ok.inj ((hfree.setMode bits).symm.trans hset)
  rcases rename_cases scratch s (d.withFile place contents bits) with ⟨why, hfails⟩ | ⟨d', hrename, hreplace, hworks⟩
  · exact .inl ⟨why, bits, (run_bind_ok hok).trans hfails⟩
  · refine .inr ⟨d', hcopy, hrename, ?_, (run_bind_ok hok).trans hworks⟩
    simp only [landed, hmode, hset, bind, Except.bind, hreplace]

theorem commit_eq (target scratch : Path) (contents : Bytes) (device : Device) (d : Disk) :
    commit.run.run (opened target scratch contents device, d) =
      (flush scratch contents >>= fun _ => sync >>= fun _ => close >>= fun _ => land scratch).run.run
        (opened target scratch contents device, d) := rfl

section

variable (hfree : d.LeadsToFree scratch place)
include hfree

theorem run_store (s : Staged) (old data : Bytes) (mode : Nat) :
    (store scratch data).run.run (s, d.withFile place old mode) = (.ok (), s, d.withFile place data mode) := by
  have hrun : (store scratch data).run.run (s, d.withFile place old mode) =
      (.ok (), s, ((d.withFile place old mode).write scratch data).toOption.getD (d.withFile place old mode)) := rfl
  rw [hrun, hfree.write]
  rfl

/-- What can be flushed, synced and closed is left to land. -/
theorem run_commit_closed (h : device.lasts 3 = true) (contents old : Bytes) (mode : Nat) :
    commit.run.run (opened target scratch contents device, d.withFile place old mode) =
      (land scratch).run.run
        (⟨target, some scratch, .absent, device.after 3, false⟩, d.withFile place contents mode) := by
  obtain ⟨h1, h2, h3⟩ := Device.done_of_lasts h
  have hflush : (flush scratch contents).run.run (opened target scratch contents device, d.withFile place old mode) =
      (.ok (), opened target scratch contents device.next.2, d.withFile place contents mode) :=
    (run_bind_ok (run_ask h1)).trans (run_store hfree _ old contents mode)
  have hsync : sync.run.run (opened target scratch contents device.next.2, d.withFile place contents mode) =
      (.ok (), opened target scratch contents device.next.2.next.2, d.withFile place contents mode) :=
    run_bind_ok (run_ask h2)
  have hclose : close.run.run (opened target scratch contents device.next.2.next.2, d.withFile place contents mode) =
      (.ok (), ⟨target, some scratch, .absent, device.next.2.next.2.next.2, false⟩, d.withFile place contents mode) :=
    run_bind_ok (run_ask h3)
  rw [commit_eq, run_bind_ok hflush, run_bind_ok hsync, run_bind_ok hclose]
  rw [Device.next_eq_after, Device.after_next, Device.after_next]

/-- Where flushing, syncing or closing fails, the scratch file has some of the contents. -/
theorem run_commit_failed (h : device.lasts 3 = false) (contents old : Bytes) (mode : Nat) :
    ∃ fault stream data device', device.Later device' ∧
      commit.run.run (opened target scratch contents device, d.withFile place old mode) =
        (.error (.device fault), ⟨target, some scratch, stream, device', false⟩, d.withFile place data mode) := by
  have hlater := Device.Later.refl device
  rw [commit_eq]
  cases h1 : device.next.1 with
  | failed fault taken =>
    have hflush : (flush scratch contents).run.run (opened target scratch contents device, d.withFile place old mode) =
        (.error (.device fault), opened target scratch contents device.next.2,
          d.withFile place (contents.take taken) mode) :=
      (run_bind_ok (run_ask h1)).trans (run_bind_ok (run_store hfree _ old (contents.take taken) mode))
    exact ⟨fault, _, _, _, hlater.next, run_bind_error hflush⟩
  | done =>
    have hflush : (flush scratch contents).run.run (opened target scratch contents device, d.withFile place old mode) =
        (.ok (), opened target scratch contents device.next.2, d.withFile place contents mode) :=
      (run_bind_ok (run_ask h1)).trans (run_store hfree _ old contents mode)
    rw [run_bind_ok hflush]
    cases h2 : device.next.2.next.1 with
    | failed fault taken => exact ⟨fault, _, _, _, hlater.next.next, run_bind_error (run_bind_ok (run_ask h2))⟩
    | done =>
      have hsync : sync.run.run (opened target scratch contents device.next.2, d.withFile place contents mode) =
          (.ok (), opened target scratch contents device.next.2.next.2, d.withFile place contents mode) :=
        run_bind_ok (run_ask h2)
      rw [run_bind_ok hsync]
      cases h3 : device.next.2.next.2.next.1 with
      | failed fault taken => exact ⟨fault, _, _, _, hlater.next.next.next, run_bind_error (run_bind_ok (run_ask h3))⟩
      | done =>
        rw [Device.lasts_of_done h1, Device.lasts_of_done h2, Device.lasts_of_done h3] at h
        cases h

/-- A commit puts the contents in place of the target, or the staged file is still in use, because of the device or
because the target cannot be replaced. -/
theorem commit_cases (device : Device) (contents old : Bytes) (mode : Nat) :
    (∃ e y, commit.run.run (opened target scratch contents device, d.withFile place old mode) = (.error e, y) ∧
        InUse d target scratch place device y ∧
        (device.lasts 3 = true → device.modeCopy = none → device.rename = none →
          ∃ why, landed (d.withFile place contents mode) scratch target = .error why)) ∨
      ∃ d', device.lasts 3 = true ∧ device.modeCopy = none ∧ device.rename = none ∧
        landed (d.withFile place contents mode) scratch target = .ok d' ∧
        commit.run.run (opened target scratch contents device, d.withFile place old mode) =
          (.ok (), ⟨target, some scratch, .absent, device.after 3, true⟩, d') := by
  cases h : device.lasts 3 with
  | false =>
    obtain ⟨fault, stream, data, device', hlater, hfails⟩ :=
      @run_commit_failed _ target _ _ _ hfree h contents old mode
    exact .inl ⟨_, _, hfails, ⟨rfl, rfl, rfl, hlater, data, mode, rfl⟩, fun hlasts => by cases hlasts⟩
  | true =>
    rw [run_commit_closed hfree h]
    rcases land_cases hfree ⟨target, some scratch, .absent, device.after 3, false⟩ contents mode with
      ⟨why, mode', hfails⟩ | ⟨d', hcopy, hrename, hlanded, hworks⟩
    · refine .inl ⟨_, _, hfails, ⟨rfl, rfl, rfl, device.later_after 3, contents, mode', rfl⟩, ?_⟩
      intro _ hcopy hrename
      cases hlanded : landed (d.withFile place contents mode) scratch target with
      | error why => exact ⟨why, rfl⟩
      | ok d' => cases hfails.symm.trans (land_ok hcopy hrename hlanded)
    · exact .inr ⟨d', rfl, hcopy, hrename, hlanded, hworks⟩

/-- A scratch file lands whenever the target is a file, and changes nothing but the target. -/
theorem landed_of_leadsToFile {q : Place} {bits : Nat} (htarget : d.LeadsToFile target q bits) (contents : Bytes)
    (mode : Nat) : landed (d.withFile place contents mode) scratch target = .ok (d.withFile q contents bits) := by
  obtain ⟨⟨_, old, hfollowed⟩, item, hfound, hitem⟩ := htarget
  have hmode : (d.withFile place contents mode).mode target = .ok bits := by
    rw [Disk.mode, hfree.locate_other hfollowed fun _ => by simp]
  simp only [landed, hmode, bind, Except.bind, hfree.setMode]
  exact hfree.replace hfound hitem

/-- What landed stands where the target leads, and nothing else has changed. -/
theorem replaced_of_landed (h : landed (d.withFile place contents mode) scratch target = .ok d') :
    d.Replaced target contents d' := by
  refine ⟨?_, fun htarget => ?_⟩
  · obtain ⟨bits, _, h⟩ := bind_ok h
    obtain ⟨d1, hset, h⟩ := bind_ok h
    obtain rfl : d.withFile place contents bits = d1 := Except.ok.inj ((hfree.setMode bits).symm.trans hset)
    have hput : ∀ q,
        { d with tree := ((d.withFile place contents bits).tree.erase place).put q (.file contents bits) } =
        d.withFile q contents bits := by
      intro q
      rw [Disk.withFile, FileTree.erase_put hfree.notTop hfree.free]
      rfl
    rw [Disk.replace, hfree.found] at h
    cases hl : (d.withFile place contents bits).locate false target with
    | error kind => rw [hl] at h; cases h
    | ok dest =>
      rw [hl] at h
      cases dest with
      | free parent name =>
        exact ⟨parent ++ [name], bits, (Except.ok.inj h).symm.trans (hput _), place, contents, bits, hfree.free, _, hl,
          rfl⟩
      | occupied q item =>
        have hnames : (d.withFile place contents bits).Names target q := ⟨_, hl, rfl⟩
        cases item with
        | directory m => cases h
        | file old m =>
          exact ⟨q, bits, (Except.ok.inj h).symm.trans (hput q), place, contents, bits, hfree.free, hnames⟩
        | link to_ =>
          exact ⟨q, bits, (Except.ok.inj h).symm.trans (hput q), place, contents, bits, hfree.free, hnames⟩
  · rw [landed_of_leadsToFile hfree htarget] at h
    exact (Except.ok.inj h).symm

/-! ## Leaving -/

/-- A staged file in use can be closed, or it is as if it were, and its scratch file is still there. -/
theorem closeLate_cases (h : InUse d target scratch place device x) :
    ∃ r y, (closeLate scratch).run.run x = (r, y) ∧ InUse d target scratch place device y ∧
      (∀ contents, y.1.stream ≠ .opened contents) ∧ (device.Tidy → r = .ok () ∧ y.1.stream = .absent) := by
  obtain ⟨⟨_, _, stream, device', _⟩, _⟩ := x
  obtain ⟨rfl, rfl, rfl, hlater, old, mode, rfl⟩ := h
  dsimp only at hlater ⊢
  cases stream with
  | absent | shut =>
    exact ⟨_, _, rfl, ⟨rfl, rfl, rfl, hlater, old, mode, rfl⟩, (fun _ h => by cases h), fun _ => ⟨rfl, rfl⟩⟩
  | opened contents =>
    simp only [closeLate, run_get_bind]
    cases hclosing : device'.closing with
    | done =>
      rw [run_bind_ok (run_store hfree _ old contents mode)]
      exact
        ⟨_, _, rfl, ⟨rfl, rfl, rfl, hlater, contents, mode, rfl⟩, (fun _ h => by cases h), fun _ => ⟨rfl, rfl⟩⟩
    | failed fault taken =>
      dsimp only
      rw [run_bind_ok (run_store hfree _ old (contents.take taken) mode)]
      refine ⟨_, _, rfl, ⟨rfl, rfl, rfl, hlater, contents.take taken, mode, rfl⟩, (fun _ h => by cases h),
        fun htidy => ?_⟩
      rw [(hlater.tidy htidy).closing] at hclosing
      cases hclosing

/-- Removing the scratch file of a staged file in use may not work. -/
theorem run_discard (h : InUse d target scratch place device x) :
    (discard scratch).run.run x = (.ok (), if x.1.device.removal.isNone then (x.1, d) else x) := by
  obtain ⟨s, d1⟩ := x
  obtain ⟨data, mode, hdisk⟩ := h.disk
  obtain rfl : d1 = d.withFile place data mode := hdisk
  have huncommitted : s.isCommitted = false := h.uncommitted
  simp only [discard, run_get_bind, huncommitted, Bool.not_false, Bool.true_and]
  split
  · rw [hfree.remove]
    rfl
  · rfl

end

/-- What is on the disk once a scratch file was given up: what was there, and perhaps the scratch file, but not if that
could be closed and removed. -/
structure GivenUp (device : Device) (scratch : Path) (d d' : Disk) : Prop where
  left : d' = d ∨ ∃ place data mode, d.Awaits false scratch place ∧ d' = d.withFile place data mode
  tidy : device.Tidy → d' = d

theorem GivenUp.refl (device : Device) (scratch : Path) (d : Disk) : GivenUp device scratch d d :=
  ⟨.inl rfl, fun _ => rfl⟩

/-- A staged file in use that is left is not open any more, and its scratch file is given up. -/
theorem givenUp_of_inUse (hplace : d.Awaits false scratch place) (h : InUse d target scratch place device x) :
    ∃ left y, leave.run.run x = (left, y) ∧ y.1.isCommitted = false ∧ y.1.scratch = some scratch ∧
      (∀ contents, y.1.stream ≠ .opened contents) ∧ GivenUp device scratch d y.2 ∧
      (device.Tidy → left = .ok () ∧ y.1.stream = .absent) := by
  have hfree := hplace.leadsToFree
  have hleave : leave.run.run x = (closeLate scratch >>= fun _ => discard scratch).run.run x := by
    rw [leave, run_get_bind, h.scratch]
  obtain ⟨r, y, hclose, hy, hstream, htidy⟩ := closeLate_cases hfree h
  obtain ⟨data, mode, hdisk⟩ := hy.disk
  have hlitter : y.2 = d ∨ ∃ place data mode, d.Awaits false scratch place ∧ y.2 = d.withFile place data mode :=
    .inr ⟨place, data, mode, hplace, hdisk⟩
  cases r with
  | error e =>
    refine ⟨_, y, hleave.trans (run_bind_error hclose), hy.uncommitted, hy.scratch, hstream, ⟨hlitter, fun ht => ?_⟩,
      fun ht => ?_⟩
    · cases (htidy ht).1
    · cases (htidy ht).1
  | ok done =>
    refine ⟨_, _, hleave.trans ((run_bind_ok hclose).trans (run_discard hfree hy)), ?_⟩
    cases hremoval : y.1.device.removal with
    | none =>
      exact ⟨hy.uncommitted, hy.scratch, hstream, ⟨.inl rfl, fun _ => rfl⟩, fun ht => ⟨rfl, (htidy ht).2⟩⟩
    | some fault =>
      refine ⟨hy.uncommitted, hy.scratch, hstream, ⟨hlitter, fun ht => ?_⟩, fun ht => ⟨rfl, (htidy ht).2⟩⟩
      cases hremoval.symm.trans (hy.device.tidy ht).removal

/-- A staged file that took the place of its target leaves nothing to do. -/
theorem leave_committed (target scratch : Path) (device : Device) (d : Disk) :
    leave.run.run (⟨target, some scratch, .absent, device, true⟩, d) =
      (.ok (), ⟨target, some scratch, .absent, device, true⟩, d) := rfl

end Staged

end LogRef
