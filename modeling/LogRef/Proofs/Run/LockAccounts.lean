import LogRef.Proofs.Run.Agreement
import LogRef.Proofs.Run.Faults
import LogRef.Proofs.Run.Interference
import LogRef.Proofs.Run.LockSoundness
import LogRef.Proofs.Run.Notices

/-!
# The lock file accounts for every insertion

The count of ids that were put in and the counter they come from part ways only when ids run out. A counter that has
run out is past the greatest id, and such an id is never written to a lock file. So an id that is written there is the
first id and as many more as were counted, whatever other programs do to the files meanwhile, as long as the devices
take all that is written.
-/
namespace LogRef

open Run

/-- Anything but a notice of a lock file that was written. -/
def Notice.IsUnlocked : Notice → Prop
  | .lockWritten .. => False
  | _ => True

/-- Neither a notice of a lock file that was written nor one of ids that ran out. -/
def Notice.IsAside : Notice → Prop
  | .cannotInsert .. => False
  | n => n.IsUnlocked

namespace Notice

variable {n : Notice}

theorem IsAside.isUnlocked (h : n.IsAside) : n.IsUnlocked := by
  cases n <;> trivial

theorem IsRoutine.isAside (h : n.IsRoutine) : n.IsAside := by
  cases n <;> trivial

end Notice

namespace Insertion

variable {path : Path} {contents : Bytes} {entries targets : List Entry} {counter counter' : Option Counter}
  {c c' : Counter} {s s' : Session} {result : Insertion} {device : Device} {devices : Devices}

theorem complaints_aside (path : Path) (entries : List Entry) : ∀ n ∈ complaints path entries, n.IsAside := by
  intro n hn
  obtain ⟨e, _, rfl⟩ := List.mem_map.mp hn
  trivial

theorem Refuses.isAside {why : Notice} (h : Refuses path contents targets counter why) : why.IsAside := by
  cases h <;> trivial

/-- An update counts the ids it uses up, unless there are not enough. -/
theorem Updated.accounts (htakes : device.TakesAll) (hsome : targets ≠ [])
    (h : Updated device path contents targets c s result c' s') :
    greatestId < c'.next ∨
      c'.next = c.next + result.inserted ∧ Notice.Adds Notice.IsAside s.notices s'.notices := by
  cases h with
  | unopened => exact .inr ⟨(Int.add_zero _).symm, .one trivial⟩
  | overflowed _ hsplice =>
    obtain ⟨_, hnext⟩ := splice_overflows hsome hsplice
    left
    omega
  | broken _ hshort => cases (htakes.lasts _).symm.trans hshort
  | unlanded _ hsplice | landed _ hsplice => exact .inr ⟨(splice_counter hsplice).1, .one trivial⟩

theorem Updated.unlocked (h : Updated device path contents targets c s result c' s') :
    Notice.Adds Notice.IsUnlocked s.notices s'.notices := by
  cases h with
  | overflowed _ _ _ hwhy =>
    rcases hwhy with rfl | ⟨message, rfl⟩
    · exact .one trivial
    · exact .one trivial
  | unopened | broken | unlanded | landed => exact .one trivial

theorem Updated.next_le (hsome : targets ≠ []) (h : Updated device path contents targets c s result c' s') :
    c.next ≤ c'.next := by
  cases h with
  | unopened => exact Int.le_refl _
  | overflowed _ hsplice =>
    obtain ⟨_, hnext⟩ := splice_overflows hsome hsplice
    omega
  | broken => exact Int.le_add_of_nonneg_right (Int.natCast_nonneg _)
  | unlanded _ hsplice | landed _ hsplice =>
    obtain ⟨hnext, _⟩ := splice_counter hsplice
    omega

/-- A visit counts the ids it uses up, unless there are not enough. -/
theorem Ended.accounts (htakes : device.TakesAll)
    (h : Ended device path contents entries s (some c) result counter' s') :
    ∃ c', counter' = some c' ∧ c.next ≤ c'.next ∧ (greatestId < c'.next ∨
      c'.next = c.next + result.inserted ∧ Notice.Adds Notice.IsAside s.notices s'.notices) := by
  have hcomplaints : Notice.Adds Notice.IsAside s.notices (s.noting (complaints path entries)).notices :=
    .of_append (complaints_aside path entries)
  cases h with
  | idle => exact ⟨c, rfl, Int.le_refl _, .inr ⟨(Int.add_zero _).symm, hcomplaints⟩⟩
  | refused _ hwhy =>
    rw [← Session.noting_noting]
    exact ⟨c, rfl, Int.le_refl _, .inr ⟨(Int.add_zero _).symm, hcomplaints.trans (.one hwhy.isAside)⟩⟩
  | updated hsome _ _ hupdated =>
    refine ⟨_, rfl, hupdated.next_le hsome, ?_⟩
    rcases hupdated.accounts htakes hsome with hover | ⟨hnext, hadds⟩
    · exact .inl hover
    · exact .inr ⟨hnext, hcomplaints.trans hadds⟩

theorem Ended.unlocked (h : Ended device path contents entries s counter result counter' s') :
    Notice.Adds Notice.IsUnlocked s.notices s'.notices := by
  have hcomplaints : Notice.Adds Notice.IsUnlocked s.notices (s.noting (complaints path entries)).notices :=
    .of_append fun n hn => (complaints_aside path entries n hn).isUnlocked
  cases h with
  | idle => exact hcomplaints
  | refused _ hwhy =>
    rw [← Session.noting_noting]
    exact hcomplaints.trans (.one hwhy.isAside.isUnlocked)
  | updated _ _ _ hupdated => exact hcomplaints.trans hupdated.unlocked

variable {others : Interference} {q : Query} {t t' : Tally (Option Counter) Insertion} {start : Int}
  {before : List Notice} {parse : Bytes → Node} {settings : Settings} {files : List Path}

theorem amid_notes (others : Interference) (devices : Devices) :
    ((Insertion.pass devices).amid others).Notes Notice.IsUnlocked where
  visit counter path contents entries := by
    intro s
    obtain ⟨result, counter', s', hrun, hended⟩ := amid_visit_ended others devices counter path contents entries s
    rw [hrun]
    exact hended.unlocked
  conclude _ := .pure _

/-- The counter is past the greatest id, or it has gone up by what was counted and no ids ran out. -/
def Balanced (start : Int) (before : List Notice) (t : Tally (Option Counter) Insertion) (s : Session) : Prop :=
  ∃ c, t.state = some c ∧ (greatestId < c.next ∨
    c.next = start + (conclude t.results).inserted ∧ Notice.Adds Notice.IsAside before s.notices)

theorem Balanced.visitFile (htakes : ∀ p, (devices p).TakesAll)
    (h : (((Insertion.pass devices).amid others).visitFile q t path).run.run s = (.ok t', s'))
    (hb : Balanced start before t s) : Balanced start before t' s' := by
  obtain ⟨c, hc, hbalance⟩ := hb
  rcases Pass.visitFile_ok h with
    ⟨e, _, _, rfl, rfl⟩ | ⟨contents, entries, ns, state, result, _, hfound, hvisit, rfl⟩
  · refine ⟨c, hc, hbalance.imp id ?_⟩
    rintro ⟨hnext, hadds⟩
    exact ⟨hnext, hadds.trans (.one trivial)⟩
  · obtain ⟨r, counter', s1, hrun, hended⟩ :=
      amid_visit_ended others devices t.state path contents entries (s.noting ns)
    cases hrun.symm.trans hvisit
    rw [hc] at hended
    obtain ⟨c', rfl, hle, haccounts⟩ := hended.accounts (htakes path)
    refine ⟨c', rfl, ?_⟩
    rcases haccounts with hover | ⟨hnext', hadds'⟩
    · exact .inl hover
    rcases hbalance with hover | ⟨hnext, hadds⟩
    · left
      omega
    · right
      refine ⟨?_, (hadds.trans ?_).trans hadds'⟩
      · rw [Option.toList_some, Insertion.conclude_concat, hnext', hnext, Int.add_assoc]
      · -- what the search reports comes in between
        obtain ⟨ms, hms, hroutine⟩ := findEntries_notes q contents []
        rw [hfound] at hms
        obtain rfl : ns = ms := hms
        exact .of_append fun n hn => (hroutine n hn).isRoutine.isAside

theorem Balanced.heedStop (h : Session.heedStop.run.run s = (.ok (), s')) (hb : Balanced start before t s) :
    Balanced start before t s' := by
  rcases Pass.heedStop_cases s with ⟨s1, hstop, _⟩ | ⟨plan, hgo⟩
  · cases hstop.symm.trans h
  · cases hgo.symm.trans h
    exact hb

/-- The same of a whole pass with a result. -/
theorem run_balanced (htakes : ∀ p, (devices p).TakesAll) {outcome : Outcome (Option Counter) Insertion}
    (h : (((Insertion.pass devices).amid others).run parse settings (some ⟨start⟩) files).run.run s =
      (.ok outcome, s')) :
    ∃ c, outcome.state = some c ∧ (greatestId < c.next ∨
      c.next = start + outcome.result.inserted ∧ Notice.Adds Notice.IsAside s.notices s'.notices) := by
  have hstart : Balanced start s.notices ⟨some ⟨start⟩, [], []⟩ s :=
    ⟨⟨start⟩, rfl, .inr ⟨(Int.add_zero start).symm, .refl _ _⟩⟩
  obtain ⟨t, s1, ⟨c, hc, hbalance⟩, hconclude, hstate, _⟩ :=
    Pass.run_keeps (Balanced.visitFile htakes) Balanced.heedStop h hstart
  obtain ⟨hresult, rfl⟩ := Prod.mk.inj hconclude
  rw [← Except.ok.inj hresult]
  exact ⟨c, hstate.trans hc, hbalance⟩

end Insertion

namespace Lock

variable {directory : Path} {id : Int} {s s' : Session}

/-- How writing a lock file ends: the answer and the session after it. -/
inductive WriteEnded (directory : Path) (id : Int) (s : Session) : Except Failure Bool → Session → Prop
  | refused (why : String) (h : id < 0 ∨ greatestId < id) :
    WriteEnded directory id s (.ok false) (s.noting [.lockRefused id why])
  | broken (f : Failure) : WriteEnded directory id s (.error f) s
  | failed (why : String) :
    WriteEnded directory id s (.ok false) (s.noting [.lockWriteFailed (path directory).toString why])
  | written {n : Nat} {d : Disk} (hid : id = n) (hle : n ≤ greatestId)
    (h : s.disk.write (path directory) (Bytes.ofString (text n)) = .ok d) :
    WriteEnded directory id s (.ok true) { s.noting [.lockWritten (path directory).toString id] with disk := d }

theorem write_ended (directory : Path) (id : Int) (s : Session) :
    ∃ r s', (write directory id).run.run s = (r, s') ∧ WriteEnded directory id s r s' := by
  by_cases hout : id < 0 ∨ greatestId < id
  · obtain ⟨issues, hissues⟩ : ∃ issues, bounded id = .error issues := by
      unfold bounded
      rcases hout with hneg | hbig
      · exact ⟨_, if_pos hneg⟩
      · rw [if_neg (by omega), if_pos hbig]
        exact ⟨_, rfl⟩
    unfold write
    rw [hissues]
    exact ⟨_, _, rfl, .refused _ hout⟩
  obtain ⟨hneg, hbig⟩ := not_or.mp hout
  obtain ⟨n, rfl⟩ := Int.eq_ofNat_of_zero_le (Int.not_lt.mp hneg)
  have hle : n ≤ greatestId := by omega
  unfold write
  rw [bounded_of_le hle]
  simp only
  rw [run_get_bind]
  cases hw : s.disk.write (path directory) (Bytes.ofString (text n)) with
  | ok d => exact ⟨_, _, rfl, .written rfl hle hw⟩
  | error e =>
    cases he : e.isRefused with
    | true =>
      simp only [he, if_true]
      exact ⟨_, _, rfl, .broken _⟩
    | false =>
      simp only [he]
      exact ⟨_, _, rfl, .failed _⟩

theorem remove_notes (directory : Path) : (remove directory).Notes Notice.IsAside := by
  refine .get_bind fun s => ?_
  split
  · exact .setDisk _
  · split
    · exact .throw _
    · split
      · exact .pure _
      · exact .report trivial

end Lock

namespace Job

variable {others : Interference} {devices : Devices} {job : Job} {files : List Path} {start : Int} {s s' : Session}

theorem sources_notes (job : Job) : job.sources.Notes Notice.IsAside := by
  refine .get_bind fun s => ?_
  split
  · exact .throw _
  · exact .throw _
  · exact .throw _
  · exact .bind (.report trivial) fun _ => .pure _

theorem startId_notes (job : Job) (files : List Path) : (job.startId files).Notes Notice.IsAside := by
  have hsurvey : Survey.pass.Notes Notice.IsAside := ⟨fun _ _ _ _ => .pure _, fun _ => .pure _⟩
  unfold startId
  split
  · exact .bind (.report trivial) fun _ => .pure _
  · refine .bind (.report trivial) fun _ => .bind (hsurvey.run (fun _ hn => hn.isAside) _ _ _) fun _ => ?_
    split
    · exact .bind (.report trivial) fun _ => .pure _
    · exact .pure _

/-- Handing out ids ends with the pass; if that was told to stop, the lock file goes. -/
theorem insertAmid_ended {r : Except Failure (Outcome (Option Counter) Insertion)}
    (h : (job.insertAmid others devices start files).run.run s = (r, s')) :
    ∃ r1 s1, (job.insertion others devices start files).run.run s = (r1, s1) ∧
      (r = r1 ∧ s' = s1 ∨ (∃ f, r = .error f) ∧ Notice.Adds Notice.IsAside s1.notices s'.notices ∧
        (s'.disk = s1.disk ∨ s1.disk.remove (Lock.path job.directory) = .ok s'.disk)) := by
  cases hpass : (job.insertion others devices start files).run.run s with
  | mk r1 s1 =>
    refine ⟨r1, s1, rfl, ?_⟩
    by_cases hr1 : r1 = .error .cancelled
    · subst hr1
      rw [insertAmid_cancelled hpass] at h
      right
      cases hkeep : job.settings.keepsLock with
      | false =>
        rw [hkeep] at h
        cases h
        exact ⟨⟨_, rfl⟩, .refl _ _, .inl rfl⟩
      | true =>
        simp only [hkeep, if_true] at h
        cases hrm : (Lock.remove job.directory).run.run s1 with
        | mk removed s2 =>
          have hadds := (Lock.remove_notes job.directory).of_run hrm
          have hdisk := Lock.remove_disk hrm
          cases removed with
          | error f =>
            cases (run_bind_error hrm).symm.trans h
            exact ⟨⟨_, rfl⟩, hadds, hdisk⟩
          | ok u =>
            cases (run_bind_ok hrm).symm.trans h
            exact ⟨⟨_, rfl⟩, hadds, hdisk⟩
    · cases (insertAmid_kept hpass hr1).symm.trans h
      exact .inl ⟨rfl, rfl⟩

/-- The lock file was written over the disk `d`, and is read back unless the device fails. Its id is the answer's next
id and accounts for every insertion from the first id on; no ids ran out. -/
structure LocksNext (job : Job) (first : Int) (d : Disk) (ns : List Notice) (r : Except Failure Numbering)
    (s' : Session) (n : Nat) : Prop where
  written : d.write (Lock.path job.directory) (Bytes.ofString (Lock.text n)) = .ok s'.disk
  noted : .lockWritten (Lock.path job.directory).toString n ∈ ns
  readBack : s'.disk.canRead (Lock.path job.directory) = true →
    ((Lock.read job.directory).run.run s').1 = .ok (some n)
  balance : ∃ numbering, r = .ok numbering ∧ numbering.nextId = some (n : Int) ∧ n = first + numbering.inserted
  enough : ∀ path why, .cannotInsert path why ∉ ns

/-- The lock file was not written over the disk `d`, though it may have been removed. A run with a result has a reason
not to write it. -/
structure LeavesLock (job : Job) (d : Disk) (ns : List Notice) (r : Except Failure Numbering) (s' : Session) :
    Prop where
  unwritten : s'.disk = d ∨ d.remove (Lock.path job.directory) = .ok s'.disk
  unnoted : ∀ path id, .lockWritten path id ∉ ns
  reason : ∀ numbering id, r = .ok numbering → numbering.nextId = some id →
    id < 0 ∨ greatestId < id ∨ ∃ why, .lockWriteFailed (Lock.path job.directory).toString why ∈ ns

theorem not_lockWritten {ns : List Notice} (h : ∀ n ∈ ns, n.IsUnlocked) (path : String) (id : Int) :
    .lockWritten path id ∉ ns := fun hmem => h _ hmem

theorem not_cannotInsert {ns : List Notice} (h : ∀ n ∈ ns, n.IsAside) (path why : String) :
    .cannotInsert path why ∉ ns := fun hmem => h _ hmem

theorem LocksNext.prepend {d : Disk} {ms ns : List Notice} {r : Except Failure Numbering} {first : Int} {n : Nat}
    (h : job.LocksNext first d ns r s' n) (hms : ∀ m ∈ ms, m.IsAside) : job.LocksNext first d (ms ++ ns) r s' n where
  written := h.written
  noted := List.mem_append_right ms h.noted
  readBack := h.readBack
  balance := h.balance
  enough path why hmem := (List.mem_append.mp hmem).elim (not_cannotInsert hms path why) (h.enough path why)

theorem LeavesLock.prepend {d : Disk} {ms ns : List Notice} {r : Except Failure Numbering}
    (h : job.LeavesLock d ns r s') (hms : ∀ m ∈ ms, m.IsAside) : job.LeavesLock d (ms ++ ns) r s' where
  unwritten := h.unwritten
  unnoted path id hmem :=
    (List.mem_append.mp hmem).elim (not_lockWritten (fun m hm => (hms m hm).isUnlocked) path id) (h.unnoted path id)
  reason numbering id hr hid := by
    rcases h.reason numbering id hr hid with hneg | hbig | ⟨why, hmem⟩
    · exact .inl hneg
    · exact .inr (.inl hbig)
    · exact .inr (.inr ⟨why, List.mem_append_right ms hmem⟩)

/-- What is said about the lock file's turn: it comes on the disk `d`. -/
def LockSettled (job : Job) (first : Int) (d : Disk) (ns : List Notice) (r : Except Failure Numbering)
    (s' : Session) : Prop :=
  (∃ n, job.LocksNext first d ns r s' n) ∨ job.LeavesLock d ns r s'

/-- A run that ends without a result has not written the lock file. -/
theorem LeavesLock.of_error {d : Disk} {ns : List Notice} {f : Failure} (hns : ∀ n ∈ ns, n.IsUnlocked)
    (hdisk : s'.disk = d ∨ d.remove (Lock.path job.directory) = .ok s'.disk) :
    job.LeavesLock d ns (.error f) s' where
  unwritten := hdisk
  unnoted := not_lockWritten hns
  reason _ _ h := by cases h

/-- Where the ids have been put in, the next one is written, if it is one. -/
theorem lockSettled_of_inserted (htakes : ∀ p, (devices p).TakesAll) (hkeep : job.settings.keepsLock = true)
    {outcome : Outcome (Option Counter) Insertion} {r : Except Failure Numbering} {s1 : Session}
    (hpass : (job.insertion others devices start files).run.run s = (.ok outcome, s1))
    (h : (do
      if job.settings.keepsLock then
        let _ ← Lock.write job.directory ((outcome.state.map Counter.next).getD start)
      return numberingOf start outcome : Run Numbering).run.run
        (s1.noting [.insertedInAll outcome.result.inserted]) = (r, s')) :
    ∃ ns, s'.notices = s.notices ++ ns ∧ job.LockSettled start s1.disk ns r s' := by
  obtain ⟨c, hstate, hbalance⟩ := Insertion.run_balanced htakes hpass
  have hpassed := ((Insertion.amid_notes others devices).run (fun _ hn => hn.isAside.isUnlocked) _ _ _).of_run hpass
  have hnext : (outcome.state.map Counter.next).getD start = c.next := by rw [hstate]; rfl
  have hanswer : (numberingOf start outcome).nextId = some c.next := congrArg some hnext
  rw [hkeep, hnext] at h
  simp only [if_true] at h
  obtain ⟨b, s2, hwrite, hended⟩ := Lock.write_ended job.directory c.next
    (s1.noting [.insertedInAll outcome.result.inserted])
  -- what is reported beside the writing itself
  have hsofar {P : Notice → Prop} (hadds : Notice.Adds P s.notices s1.notices)
      (hP : P (.insertedInAll outcome.result.inserted)) :
      Notice.Adds P s.notices (s1.noting [.insertedInAll outcome.result.inserted]).notices :=
    hadds.trans (.one hP)
  obtain ⟨ns, hns, hunlocked⟩ := hsofar hpassed trivial
  have hunnoted {n : Notice} (hn : n.IsUnlocked) : ∀ m ∈ ns ++ [n], m.IsUnlocked :=
    List.forall_mem_append.mpr ⟨hunlocked, List.forall_mem_singleton.mpr hn⟩
  cases hended with
  | broken f =>
    cases (run_bind_error hwrite).symm.trans h
    exact ⟨ns, hns, .inr (.of_error hunlocked (.inl rfl))⟩
  | refused why hout =>
    cases (run_bind_ok hwrite).symm.trans h
    refine ⟨ns ++ [.lockRefused c.next why], by rw [← List.append_assoc, ← hns]; rfl, .inr ?_⟩
    refine ⟨.inl rfl, not_lockWritten (hunnoted trivial), fun numbering id hr hid => ?_⟩
    cases hr
    cases hanswer.symm.trans hid
    exact hout.imp_right .inl
  | failed why =>
    cases (run_bind_ok hwrite).symm.trans h
    refine ⟨ns ++ [.lockWriteFailed _ why], by rw [← List.append_assoc, ← hns]; rfl, .inr ?_⟩
    refine ⟨.inl rfl, not_lockWritten (hunnoted trivial), fun numbering id _ _ => ?_⟩
    exact .inr (.inr ⟨why, List.mem_append_right _ (List.mem_singleton_self _)⟩)
  | @written n d hid hle hd =>
    cases (run_bind_ok hwrite).symm.trans h
    -- an id that can be written is not past the greatest one, so the counter is balanced
    have hbalanced := hbalance.resolve_left (by omega)
    obtain ⟨ms, hms, haside⟩ := hsofar hbalanced.2 trivial
    refine ⟨ms ++ [.lockWritten (Lock.path job.directory).toString c.next],
      by rw [← List.append_assoc, ← hms]; rfl, .inl ⟨n, ?_⟩⟩
    exact {
      written := hd
      noted := hid ▸ List.mem_append_right _ (List.mem_singleton_self _)
      readBack := by
        intro hread
        obtain ⟨data, hread⟩ := Disk.canRead_iff.mp hread
        refine Lock.read_of_text hle (Disk.isFile_of_write hd) ?_
        rw [hread, Disk.eq_of_read_written hd hread]
      balance := ⟨numberingOf start outcome, rfl, hid ▸ hanswer, hid ▸ hbalanced.1⟩
      enough := by
        intro path why hmem
        rcases List.mem_append.mp hmem with hmem | hmem
        · exact haside _ hmem
        · cases List.mem_singleton.mp hmem }

theorem LockSettled.prepend {first : Int} {d : Disk} {ms ns : List Notice} {r : Except Failure Numbering}
    (h : job.LockSettled first d ns r s') (hms : ∀ m ∈ ms, m.IsAside) : job.LockSettled first d (ms ++ ns) r s' :=
  h.imp (fun ⟨n, hn⟩ => ⟨n, hn.prepend hms⟩) fun h => h.prepend hms

theorem finish_settled (htakes : ∀ p, (devices p).TakesAll) (hkeep : job.settings.keepsLock = true)
    {r : Except Failure Numbering}
    (h : (job.finish others devices files (some start)).run.run s = (r, s')) :
    ∃ ns r1 s1, (job.insertion others devices start files).run.run
        (s.noting [.nextId start]) = (r1, s1) ∧
      s'.notices = s.notices ++ ns ∧ job.LockSettled start s1.disk ns r s' := by
  have hfirst : ∀ n ∈ [Notice.nextId start], n.IsAside := fun n hn => List.mem_singleton.mp hn ▸ trivial
  have hreport := run_lift_report (.nextId start) s
  rw [finish, run_bind_ok hreport] at h
  cases hins : (job.insertAmid others devices start files).run.run (s.noting [.nextId start]) with
  | mk result s2 =>
    obtain ⟨r1, s1, hpass, hended⟩ := insertAmid_ended hins
    have hpassed := ((Insertion.amid_notes others devices).run (fun _ hn => hn.isAside.isUnlocked) _ _ _).of_run hpass
    cases result with
    | error f =>
      cases (run_bind_error hins).symm.trans h
      obtain ⟨hadds, hdisk⟩ : Notice.Adds Notice.IsUnlocked (s.noting [.nextId start]).notices s'.notices ∧
          (s'.disk = s1.disk ∨ s1.disk.remove (Lock.path job.directory) = .ok s'.disk) := by
        rcases hended with ⟨_, rfl⟩ | ⟨_, hadds, hdisk⟩
        · exact ⟨hpassed, .inl rfl⟩
        · exact ⟨hpassed.trans (hadds.mono fun _ hn => hn.isUnlocked), hdisk⟩
      obtain ⟨ns, hns, hunlocked⟩ := hadds
      refine ⟨[.nextId start] ++ ns, r1, s1, hpass, by rw [← List.append_assoc]; exact hns, ?_⟩
      exact LockSettled.prepend (.inr (.of_error hunlocked hdisk)) hfirst
    | ok outcome =>
      obtain ⟨rfl, rfl⟩ : r1 = .ok outcome ∧ s2 = s1 := by
        rcases hended with ⟨hr, rfl⟩ | ⟨⟨f, hr⟩, _⟩
        · exact ⟨hr.symm, rfl⟩
        · cases hr
      rw [run_bind_ok hins] at h
      obtain ⟨ns, hns, hsettled⟩ := lockSettled_of_inserted htakes hkeep hpass h
      exact ⟨[.nextId start] ++ ns, _, s2, hpass, by rw [← List.append_assoc]; exact hns, hsettled.prepend hfirst⟩

/-- The disks on which the lock file's turn can come: the one a run began with, if it ended before any file was
visited, or the one that the visits left. -/
def ReachesLock (job : Job) (others : Interference) (devices : Devices) (s : Session) (d : Disk) : Prop :=
  d = s.disk ∨ ∃ files s0 r1 s1, job.search.files s.disk = .ok files ∧ s0.disk = s.disk ∧
    (job.insertion others devices (job.firstId files s.disk) files).run.run s0 = (r1, s1) ∧
    d = s1.disk

/-- The first id of the files that are found, if any are. -/
def resolvedId (job : Job) (d : Disk) : Int := (job.search.files d).toOption.elim 0 fun files => job.firstId files d

theorem numberAmid_settled (htakes : ∀ p, (devices p).TakesAll) (hkeep : job.settings.keepsLock = true)
    {r : Except Failure Numbering} (h : (job.numberAmid others devices).run.run s = (r, s')) :
    ∃ ns d, s'.notices = s.notices ++ ns ∧ job.ReachesLock others devices s d ∧
      job.LockSettled (job.resolvedId s.disk) d ns r s' := by
  -- a run that ends before any file is visited says nothing of the lock file and leaves it alone
  have hearly {s1 : Session} (hadds : Notice.Adds Notice.IsAside s.notices s1.notices) (hdisk : s1.disk = s.disk)
      {r : Except Failure Numbering} (hr : ∀ numbering, r = .ok numbering → numbering.nextId = none) :
      ∃ ns d, s1.notices = s.notices ++ ns ∧ job.ReachesLock others devices s d ∧
        job.LockSettled (job.resolvedId s.disk) d ns r s1 := by
    obtain ⟨ns, hns, haside⟩ := hadds
    refine ⟨ns, s.disk, hns, .inl rfl, .inr ⟨.inl hdisk, not_lockWritten fun n hn => (haside n hn).isUnlocked, ?_⟩⟩
    intro numbering id hok hid
    rw [hr numbering hok] at hid
    cases hid
  rw [numberAmid] at h
  cases hsrc : job.sources.run.run s with
  | mk found s1 =>
    have hadds := (sources_notes job).of_run hsrc
    cases found with
    | error f =>
      cases (run_bind_error hsrc).symm.trans h
      exact hearly hadds (congrArg Session.disk (sources_failed hsrc)) fun _ h => by cases h
    | ok files =>
      obtain ⟨hfiles, _, rfl⟩ := sources_ok hsrc
      rw [run_bind_ok hsrc] at h
      cases hfirst : (job.startId files).run.run (s.noting [.foundFiles files.length]) with
      | mk first s2 =>
        have hadds := hadds.trans ((startId_notes job files).of_run hfirst)
        obtain ⟨hdisk, hstart⟩ := startId_first hfirst
        cases first with
        | error f =>
          cases (run_bind_error hfirst).symm.trans h
          exact hearly hadds hdisk fun _ h => by cases h
        | ok first =>
          rw [run_bind_ok hfirst] at h
          cases first with
          | none =>
            cases h
            exact hearly hadds hdisk fun _ h => by cases h; rfl
          | some start =>
            obtain rfl : start = job.firstId files s.disk := hstart start rfl
            obtain ⟨ns, r1, s3, hpass, hns, hsettled⟩ := finish_settled htakes hkeep h
            obtain ⟨ms, hms, haside⟩ := hadds
            have hresolved : job.resolvedId s.disk = job.firstId files s.disk := by rw [resolvedId, hfiles]; rfl
            refine ⟨ms ++ ns, s3.disk, by rw [hns, hms, List.append_assoc],
              .inr ⟨files, s2.noting [.nextId (job.firstId files s.disk)], r1, s3, hfiles, hdisk, hpass, rfl⟩, ?_⟩
            rw [hresolved]
            exact hsettled.prepend haside

/-- In a run that keeps a lock file, on devices that take all that is written, though a scratch file may not be made,
get its mode or take the place of its target, and whatever others do to the files between reading and changing them: a
lock file that gets written holds the first id plus the number of ids put in, which is also the next id of the answer;
and where ids ran out for some file, the lock file is not written. A run that is left alone is one of these runs. -/
theorem lock_accounts_for_insertions (hkeep : job.settings.keepsLock = true) :
    job.numberAmid .none .sound = job.number ∧ ∀ others devices, (∀ p, (devices p).TakesAll) → ∀ s r s',
      (job.numberAmid others devices).run.run s = (r, s') →
      ∃ ns d, s'.notices = s.notices ++ ns ∧ job.ReachesLock others devices s d ∧
        ((∃ n, job.LocksNext (job.resolvedId s.disk) d ns r s' n) ∨ job.LeavesLock d ns r s') ∧
        ((∃ path why, .cannotInsert path why ∈ ns) → job.LeavesLock d ns r s') := by
  refine ⟨numberAmid_none job .sound, fun others devices htakes s r s' h => ?_⟩
  obtain ⟨ns, d, hns, hreaches, hsettled⟩ := numberAmid_settled htakes hkeep h
  refine ⟨ns, d, hns, hreaches, hsettled, ?_⟩
  rintro ⟨path, why, hmem⟩
  rcases hsettled with ⟨n, hlocks⟩ | hleaves
  · exact absurd hmem (hlocks.enough path why)
  · exact hleaves

/-- Others take every file away before it can be changed. -/
def vanishing : Interference := fun path d => (d.remove path).toOption.getD d

/-- A run over a source with one call, which is gone by the time the call gets the id 7. -/
def vanished : Except Failure Numbering × Session := ((small (some 7)).numberAmid vanishing .sound).run.run unlocked

/-- An id that did not make it into its file counts all the same. -/
theorem vanished_accounts :
    (small (some 7)).settings.keepsLock = true ∧
      (vanished.1.toOption = some ⟨false, 1, some 8⟩ ∧
        (vanished.2.disk.read (Lock.path (small (some 7)).directory)).toOption = some (Bytes.ofString (Lock.text 8))) ∧
      ∃ ns d, vanished.2.notices = unlocked.notices ++ ns ∧ (small (some 7)).ReachesLock vanishing .sound unlocked d ∧
        ((∃ n, (small (some 7)).LocksNext ((small (some 7)).resolvedId unlocked.disk) d ns vanished.1 vanished.2 n) ∨
          (small (some 7)).LeavesLock d ns vanished.1 vanished.2) ∧
        ((∃ path why, .cannotInsert path why ∈ ns) → (small (some 7)).LeavesLock d ns vanished.1 vanished.2) :=
  ⟨rfl, by decide +kernel,
    (lock_accounts_for_insertions rfl).2 vanishing .sound (fun _ => Device.takesAll_sound) unlocked _ _ rfl⟩

end Job

end LogRef
