import LogRef.Proofs.FileSystem.Removal
import LogRef.Proofs.Run.Writes

/-!
# The phases of a run

Numbering finds the files, settles the first id and inserts ids from it on. The lock file is the last to change,
and it is written or taken away as a whole.
-/
namespace LogRef

open Run

namespace Lock

variable {directory : Path} {s s' : Session} {d d' : Disk}

/-- What a run may do with the lock file. -/
inductive Updated (directory : Path) (d : Disk) : Disk → Prop
  | kept : Updated directory d d
  | written {d' : Disk} (n : Nat) (h : d.write (path directory) (Bytes.ofString (text n)) = .ok d') :
    Updated directory d d'
  | removed {d' : Disk} (h : d.remove (path directory) = .ok d') : Updated directory d d'

theorem remove_of_ok (h : s.disk.remove (path directory) = .ok d) :
    (remove directory).run.run s = (.ok (), { s with disk := d }) := by
  rw [remove, run_get_bind]
  simp only [h]
  rfl

/-- A lock file that cannot be taken away stays, and no harm is done. -/
theorem remove_of_error {e : FileError} (h : s.disk.remove (path directory) = .error e)
    (he : e.isRefused = false) : ∃ ns, (remove directory).run.run s = (.ok (), s.noting ns) := by
  rw [remove, run_get_bind]
  simp only [h, he, Bool.false_eq_true, if_false]
  split
  · exact ⟨[], by rw [Session.noting_nil]; rfl⟩
  · exact ⟨_, rfl⟩

/-- Removing a lock file removes it or changes nothing. -/
theorem remove_disk {r : Except Failure Unit} (h : (remove directory).run.run s = (r, s')) :
    s'.disk = s.disk ∨ s.disk.remove (path directory) = .ok s'.disk := by
  cases hr : s.disk.remove (path directory) with
  | ok d =>
    rw [remove_of_ok hr] at h
    cases h
    exact .inr rfl
  | error e =>
    left
    cases he : e.isRefused with
    | true =>
      rw [remove, run_get_bind] at h
      simp only [hr, he, if_true] at h
      cases h
      rfl
    | false =>
      obtain ⟨ns, hrun⟩ := remove_of_error hr he
      cases hrun.symm.trans h
      rfl

theorem remove_updated {r : Except Failure Unit} (h : (remove directory).run.run s = (r, s')) :
    Updated directory s.disk s'.disk := by
  rcases remove_disk h with hsame | hremoved
  · exact hsame ▸ .kept
  · exact .removed hremoved

theorem write_updated (directory : Path) (id : Int) (s : Session) :
    Updated directory s.disk ((write directory id).run.run s).2.disk := by
  unfold write
  split
  · exact .kept
  · next n _ =>
    rw [run_get_bind]
    cases hw : s.disk.write (path directory) (Bytes.ofString (text n)) with
    | ok d => exact .written n hw
    | error e =>
      cases he : e.isRefused <;> simp only [he, if_true] <;> exact .kept

theorem write_ok (hnull : (path directory).hasNull = false) (id : Int) (s : Session) :
    ∃ b s', (write directory id).run.run s = (.ok b, s') := by
  unfold write
  split
  · exact ⟨_, _, rfl⟩
  · next n _ =>
    rw [run_get_bind]
    cases hw : s.disk.write (path directory) (Bytes.ofString (text n)) with
    | ok d => exact ⟨_, _, rfl⟩
    | error e =>
      have he := Disk.write_not_refused hnull hw
      simp only [he]
      exact ⟨_, _, rfl⟩

theorem read_of_no_file (h : s.disk.isFile (path directory) = .ok false) :
    (read directory).run.run s = (.ok none, s) := by
  rw [read, run_get_bind]
  simp only [h]
  rfl

theorem isFile_of_read {id : Option Nat} (h : ((read directory).run.run s).1 = .ok id) :
    ∃ there, s.disk.isFile (path directory) = .ok there := by
  cases hf : s.disk.isFile (path directory) with
  | ok there => exact ⟨there, rfl⟩
  | error e =>
    rw [read, run_get_bind] at h
    simp only [hf] at h
    cases h

end Lock

namespace Survey

/-- The survey of the files on a disk. -/
def ofFiles (d : Disk) (q : Query) (files : List Path) : Survey :=
  conclude ((files.filterMap (d.found q)).filterMap ofEntries)

end Survey

namespace Job

variable {others : Interference} {devices : Devices} {job : Job} {files : List Path} {s s' : Session}

/-- What is looked for in the files of a job. -/
abbrev query (job : Job) : Query := Pass.query job.tools.parse job.settings

/-- The pass that hands out ids from `start` on while others change the disk. -/
abbrev insertion (others : Interference) (devices : Devices) (job : Job) (start : Int) (files : List Path) :
    Run (Outcome (Option Counter) Insertion) :=
  ((Insertion.pass devices).amid others).run job.tools.parse job.settings (some ⟨start⟩) files

/-- Hands out ids from `start` on, and takes a lock away when stopped. -/
def insertAmid (others : Interference) (devices : Devices) (job : Job) (start : Int) (files : List Path) :
    Run (Outcome (Option Counter) Insertion) := ExceptT.mk do
  match ← (job.insertion others devices start files).run with
  | .error .cancelled =>
    let tidy : Run Unit := if job.settings.keepsLock then Lock.remove job.directory else pure ()
    (do tidy; throw .cancelled : Run _).run
  | outcome => return outcome

/-- The answer of a run whose insertion is done. -/
def numberingOf (start : Int) (outcome : Outcome (Option Counter) Insertion) : Numbering where
  isComplete := !outcome.result.hasFailed && outcome.skipped.isEmpty
  inserted := outcome.result.inserted
  nextId := some ((outcome.state.map Counter.next).getD start)

/-- What follows once the first id is settled, while others change the disk. -/
def finish (others : Interference) (devices : Devices) (job : Job) (files : List Path) : Option Int → Run Numbering
  | none => return ⟨true, 0, none⟩
  | some start => do
    Session.report (.nextId start)
    let outcome ← job.insertAmid others devices start files
    Session.report (.insertedInAll outcome.result.inserted)
    let next := (outcome.state.map Counter.next).getD start
    if job.settings.keepsLock then
      let _ ← Lock.write job.directory next
    return numberingOf start outcome

/-- Gives every call without a reference the next id while others change the disk. -/
def numberAmid (others : Interference) (devices : Devices) (job : Job) : Run Numbering :=
  job.sources >>= fun files => job.startId files >>= job.finish others devices files

theorem insertion_none (job : Job) (devices : Devices) (start : Int) (files : List Path) :
    job.insertion .none devices start files =
      (Insertion.pass devices).run job.tools.parse job.settings (some ⟨start⟩) files := rfl

theorem numberAmid_none (job : Job) (devices : Devices) : job.numberAmid .none devices = job.numberOn devices := rfl

theorem numberOn_eq (job : Job) (devices : Devices) :
    job.numberOn devices = job.sources >>= fun files => job.startId files >>= job.finish .none devices files := rfl

theorem sources_of_files (h : job.search.files s.disk = .ok files) (hsome : files ≠ []) :
    job.sources.run.run s = (.ok files, s.noting [.foundFiles files.length]) := by
  unfold sources
  rw [run_get_bind]
  simp only [h]
  cases files with
  | nil => exact absurd rfl hsome
  | cons p rest => rfl

theorem sources_of_none (h : job.search.files s.disk = .ok []) :
    job.sources.run.run s = (.error (.noFiles job.settings.sourceDir), s) := by
  unfold sources
  rw [run_get_bind]
  simp only [h]
  rfl

theorem sources_failed {e : Failure} (h : job.sources.run.run s = (.error e, s')) : s' = s := by
  unfold sources at h
  rw [run_get_bind] at h
  split at h <;> cases h <;> rfl

theorem sources_ok (h : job.sources.run.run s = (.ok files, s')) :
    job.search.files s.disk = .ok files ∧ files ≠ [] ∧ s' = s.noting [.foundFiles files.length] := by
  cases hfiles : job.search.files s.disk with
  | error e =>
    unfold sources at h
    rw [run_get_bind] at h
    simp only [hfiles] at h
    cases e <;> cases h
  | ok found =>
    by_cases hsome : found = []
    · subst hsome
      rw [sources_of_none hfiles] at h
      cases h
    · rw [sources_of_files hfiles hsome] at h
      cases h
      exact ⟨rfl, hsome, rfl⟩

/-- Whether the first id comes from the lock file. -/
def isCached (job : Job) : Bool := job.settings.keepsLock && job.lockedId.isSome

theorem startId_cached (h : job.isCached = true) :
    ∃ id : Nat, job.lockedId = some id ∧
      ∀ files s, (job.startId files).run.run s = (.ok (some id), s.noting [.usingCachedId]) := by
  obtain ⟨hkeep, hid⟩ := Bool.and_eq_true_iff.mp h
  obtain ⟨id, hid⟩ := Option.isSome_iff_exists.mp hid
  refine ⟨id, hid, fun files s => ?_⟩
  unfold startId
  simp only [hkeep, hid]
  rfl

/-- The first id by a survey, whose missing count says whether one is needed. -/
def scanId (job : Job) (files : List Path) : Run (Option Int) := do
  Session.report .scanningForId
  let outcome ← Survey.pass.run job.tools.parse job.settings () files
  if outcome.result.missing = 0 then
    Session.report .nothingMissing
    return none
  else return some outcome.result.nextId

theorem startId_scanned (h : job.isCached = false) : job.startId files = job.scanId files := by
  unfold isCached at h
  unfold startId
  split
  · next hkeep hid =>
    rw [hkeep, hid] at h
    cases h
  · rfl

/-- A survey changes nothing, however it ends; with a result, it is the survey of all files. -/
theorem survey_run {r : Except Failure (Outcome Unit Survey)}
    (h : (Survey.pass.run job.tools.parse job.settings () files).run.run s = (r, s')) :
    s'.disk = s.disk ∧ ∀ outcome, r = .ok outcome → outcome.result = Survey.ofFiles s.disk job.query files := by
  obtain ⟨ran, t1, s1, _, hrun, hdisk, hr⟩ := Pass.run_prefix Survey.meets Survey.steady h
  obtain ⟨hquiet, hresults⟩ := (Pass.swept_of_visitAll Survey.meets hrun).quiet
  refine ⟨hdisk.trans hquiet, ?_⟩
  rintro outcome rfl
  rcases hr with ⟨hr, rfl⟩ | hr | ⟨f, hr⟩
  · obtain rfl := Except.ok.inj hr
    exact congrArg Survey.conclude hresults
  · cases hr
  · cases hr

/-- Without a cached id, the first id is the survey's, and nothing has changed. -/
theorem scanId_run {r : Except Failure (Option Int)} (h : (job.scanId files).run.run s = (r, s')) :
    s'.disk = s.disk ∧ ∀ start, r = .ok start → start =
      if (Survey.ofFiles s.disk job.query files).missing = 0 then none
      else some (Survey.ofFiles s.disk job.query files).nextId := by
  have hreport := run_lift_report .scanningForId s
  rw [scanId, run_bind_ok hreport] at h
  cases hs : (Survey.pass.run job.tools.parse job.settings () files).run.run (s.noting [.scanningForId]) with
  | mk result s1 =>
    obtain ⟨hdisk, hresult⟩ := survey_run hs
    cases result with
    | error f =>
      rw [run_bind_error hs] at h
      obtain ⟨rfl, rfl⟩ := Prod.mk.inj h
      exact ⟨hdisk, fun _ h => by cases h⟩
    | ok outcome =>
      have houtcome := hresult outcome rfl
      rw [Session.noting_disk] at houtcome
      rw [run_bind_ok hs] at h
      rw [← houtcome]
      split at h
      · next hmissing =>
        obtain ⟨rfl, rfl⟩ := Prod.mk.inj h
        exact ⟨hdisk, fun start h => by rw [if_pos hmissing, ← Except.ok.inj h]⟩
      · next hmissing =>
        obtain ⟨rfl, rfl⟩ := Prod.mk.inj h
        exact ⟨hdisk, fun start h => by rw [if_neg hmissing, ← Except.ok.inj h]⟩

/-- A survey that comes to its end has searched all files. -/
theorem searchable_of_scan {first : Option Int} {placeOf : Path → Place} (hf : s.disk.Finds files placeOf)
    (h : (job.scanId files).run.run s = (.ok first, s')) :
    ∀ p ∈ files, s.disk.Searchable job.query p := by
  rw [scanId] at h
  obtain ⟨_, s1, hreport, h⟩ := of_run_bind_ok h
  obtain rfl : s.noting [.scanningForId] = s1 := (Prod.mk.inj hreport).2
  obtain ⟨outcome, s2, hrun, _⟩ := of_run_bind_ok h
  obtain ⟨t, hswept, _⟩ := Pass.swept_of_run Survey.meets Survey.steady hrun
  exact hswept.searchable (Pass.contained_quietly _) hf

theorem insertAmid_kept {start : Int} {r : Except Failure (Outcome (Option Counter) Insertion)}
    (h : (job.insertion others devices start files).run.run s = (r, s')) (hr : r ≠ .error .cancelled) :
    (job.insertAmid others devices start files).run.run s = (r, s') := by
  unfold insertAmid
  rw [ExceptT.run_mk, StateT.run_bind, h]
  cases r with
  | ok outcome => rfl
  | error f =>
    cases f with
    | cancelled => exact absurd rfl hr
    | settings e => rfl
    | discovery e => rfl
    | noFiles directory => rfl
    | fault f => rfl

theorem insertAmid_cancelled {start : Int}
    (h : (job.insertion others devices start files).run.run s = (.error .cancelled, s')) :
    (job.insertAmid others devices start files).run.run s = (do
      if job.settings.keepsLock then Lock.remove job.directory
      throw .cancelled : Run (Outcome (Option Counter) Insertion)).run.run s' := by
  unfold insertAmid
  rw [ExceptT.run_mk, StateT.run_bind, h]
  cases job.settings.keepsLock <;> rfl

/-- However inserting ends, the pass did what it did, and then the lock file may go. -/
theorem insertAmid_run {start : Int} {r : Except Failure (Outcome (Option Counter) Insertion)}
    (h : (job.insertAmid others devices start files).run.run s = (r, s')) :
    ∃ r1 s1, (job.insertion others devices start files).run.run s = (r1, s1) ∧
      Lock.Updated job.directory s1.disk s'.disk ∧ ∀ outcome, r = .ok outcome → r1 = .ok outcome ∧ s' = s1 := by
  cases hpass : (job.insertion others devices start files).run.run s with
  | mk r1 s1 =>
    refine ⟨r1, s1, rfl, ?_⟩
    by_cases hr1 : r1 = .error .cancelled
    · subst hr1
      rw [insertAmid_cancelled hpass] at h
      cases hkeep : job.settings.keepsLock with
      | false =>
        rw [hkeep] at h
        obtain ⟨rfl, rfl⟩ := Prod.mk.inj h
        exact ⟨.kept, fun _ h => by cases h⟩
      | true =>
        rw [hkeep] at h
        simp only [if_true] at h
        cases hrm : (Lock.remove job.directory).run.run s1 with
        | mk removed s2 =>
          cases removed with
          | error f =>
            rw [run_bind_error hrm] at h
            obtain ⟨rfl, rfl⟩ := Prod.mk.inj h
            exact ⟨Lock.remove_updated hrm, fun _ h => by cases h⟩
          | ok u =>
            rw [run_bind_ok hrm] at h
            obtain ⟨rfl, rfl⟩ := Prod.mk.inj h
            exact ⟨Lock.remove_updated hrm, fun _ h => by cases h⟩
    · rw [insertAmid_kept hpass hr1] at h
      obtain ⟨rfl, rfl⟩ := Prod.mk.inj h
      exact ⟨.kept, fun outcome h => ⟨h, rfl⟩⟩

theorem finish_of_inserted {start : Int} {outcome : Outcome (Option Counter) Insertion}
    (h : (job.insertAmid others devices start files).run.run (s.noting [.nextId start]) = (.ok outcome, s')) :
    (job.finish others devices files (some start)).run.run s = (do
      if job.settings.keepsLock then
        let _ ← Lock.write job.directory ((outcome.state.map Counter.next).getD start)
      return numberingOf start outcome : Run Numbering).run.run
        (s'.noting [.insertedInAll outcome.result.inserted]) := by
  have hreport := run_lift_report (.nextId start) s
  rw [finish, run_bind_ok hreport, run_bind_ok h]
  rfl

/-- However the last phase ends, the pass did what it did, and then the lock file may change. -/
theorem finish_run {start : Int} {r : Except Failure Numbering}
    (h : (job.finish others devices files (some start)).run.run s = (r, s')) :
    ∃ r1 s1, (job.insertion others devices start files).run.run (s.noting [.nextId start]) = (r1, s1) ∧
      Lock.Updated job.directory s1.disk s'.disk ∧
      ∀ numbering, r = .ok numbering → ∃ outcome, r1 = .ok outcome ∧ numbering = numberingOf start outcome := by
  cases hins : (job.insertAmid others devices start files).run.run (s.noting [.nextId start]) with
  | mk result s2 =>
    obtain ⟨r1, s1, hpass, hupdated, hresult⟩ := insertAmid_run hins
    refine ⟨r1, s1, hpass, ?_⟩
    cases result with
    | error f =>
      have hreport := run_lift_report (.nextId start) s
      rw [finish, run_bind_ok hreport, run_bind_error hins] at h
      obtain ⟨rfl, rfl⟩ := Prod.mk.inj h
      exact ⟨hupdated, fun _ h => by cases h⟩
    | ok outcome =>
      obtain ⟨rfl, rfl⟩ := hresult outcome rfl
      rw [finish_of_inserted hins] at h
      cases hkeep : job.settings.keepsLock with
      | false =>
        rw [hkeep] at h
        obtain ⟨rfl, rfl⟩ := Prod.mk.inj h
        exact ⟨.kept, fun numbering h => ⟨outcome, rfl, (Except.ok.inj h).symm⟩⟩
      | true =>
        rw [hkeep] at h
        simp only [if_true] at h
        have hlock := Lock.write_updated job.directory ((outcome.state.map Counter.next).getD start)
          (s2.noting [.insertedInAll outcome.result.inserted])
        cases hw : (Lock.write job.directory ((outcome.state.map Counter.next).getD start)).run.run
            (s2.noting [.insertedInAll outcome.result.inserted]) with
        | mk written s3 =>
          rw [hw] at hlock
          cases written with
          | error f =>
            rw [run_bind_error hw] at h
            obtain ⟨rfl, rfl⟩ := Prod.mk.inj h
            exact ⟨hlock, fun _ h => by cases h⟩
          | ok b =>
            rw [run_bind_ok hw] at h
            obtain ⟨rfl, rfl⟩ := Prod.mk.inj h
            exact ⟨hlock, fun numbering h => ⟨outcome, rfl, (Except.ok.inj h).symm⟩⟩

end Job

/-- A directory with one source in it, and what else is said. -/
def Session.small (source : String) (others : List (Place × Item)) (stop : StopPlan) : Session where
  disk := ⟨⟨(["src"], .directory 0o755) :: (["src", "a.rs"], .file (Bytes.ofString source) 0o644) :: others⟩, [], []⟩
  notices := []
  stop
  scratchTag := "t"

/-- The source of a small session. -/
def Session.smallFile : Path := ⟨.single, ["src", "a.rs"]⟩

/-- A job for a small session. -/
def Job.small (lockedId : Option Nat) : Job where
  tools := .standard
  settings := {
    sourceDir := ⟨.single, ["src"]⟩, macros := [⟨"log", "info"⟩], extensions := ["rs"], inArguments := false
    keepsLock := true, workers := 1, exclude := [], nestedIgnore := false, workers_pos := by decide }
  directory := ⟨.single, []⟩
  isCheck := false
  lockedId

end LogRef
