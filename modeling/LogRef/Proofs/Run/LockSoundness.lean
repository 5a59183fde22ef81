import LogRef.Proofs.Discovery.Again
import LogRef.Proofs.Reference.ReadBack
import LogRef.Proofs.Run.Cancellation
import LogRef.Proofs.Run.LockText
import LogRef.Proofs.Run.UniqueIds

/-!
# The lock file stays ahead

A lock file is sound when its id is above every reference in the source files. A run leaves it sound, however it
ends, as long as it does not hand out the last id or break off by a fault after it began with the lock file's id. For
that, the references in a source have to be those that were there and those put in, and the search has to find no file
that it did not find before.
-/
namespace LogRef

open Run

namespace Disk

variable {d d' : Disk} {p r : Path} {place : Place} {data : Bytes} {q : Query} {files : List Path} {bound : Int}

/-- What was written is there, at the place of the file that was there or of none. -/
theorem locate_of_write (h : d.write p data = .ok d') : d'.unreadable = d.unreadable ∧
    ∃ place mode, d'.locate true p = .ok (.occupied place (.file data mode)) ∧
      ((∃ old, d.locate true p = .ok (.occupied place (.file old mode))) ∨ d.Awaits true p place) := by
  unfold write at h
  split at h
  · next place old mode hl =>
    obtain rfl := Except.ok.inj h
    have hget := get?_of_locate hl (by simp)
    have hne : place ≠ [] := by
      rintro rfl
      cases hget
    have hlike : d.Like (d.withFile place data mode) := like_withFile hget
    obtain ⟨new, hnew⟩ := locate_file_like hlike hl
    have hput := get?_of_locate hnew (by simp)
    rw [withFile, FileTree.get?_put_self hne] at hput
    obtain ⟨rfl, _⟩ := Item.file.inj (Option.some.inj hput)
    exact ⟨rfl, place, mode, hnew, .inl ⟨old, hl⟩⟩
  · cases h
  · next parent name hl =>
    obtain rfl := Except.ok.inj h
    have hthere := (locate_of_put (d.withFile_sameBut _ data 0o644) (FileTree.get?_put_self (by simp)) hl).2
    exact ⟨rfl, _, _, hthere, .inr ⟨parent, name, hl, rfl⟩⟩
  · cases h

/-- What is read after writing is what was written. -/
theorem eq_of_read_written {new : Bytes} (h : d.write p data = .ok d') (hread : d'.read p = .ok new) : new = data := by
  obtain ⟨_, place, mode, hl, _⟩ := locate_of_write h
  rw [read, hl] at hread
  simp only at hread
  split at hread
  · cases hread
  · exact (Except.ok.inj hread).symm

theorem isFile_of_write (h : d.write p data = .ok d') : d'.isFile p = .ok true := by
  obtain ⟨_, place, mode, hl, _⟩ := locate_of_write h
  rw [isFile, item?, hl]
  rfl

/-- Every reference in the files is below a bound. -/
def Below (d : Disk) (q : Query) (files : List Path) (bound : Int) : Prop :=
  ∀ p ∈ files, ∀ entries ∈ d.found q p, ∀ e ∈ entries, ∀ n ∈ e.reference, n < bound

instance (d : Disk) (q : Query) (files : List Path) (bound : Int) : Decidable (d.Below q files bound) :=
  inferInstanceAs (Decidable (∀ p ∈ files, ∀ entries ∈ d.found q p, ∀ e ∈ entries, ∀ n ∈ e.reference, n < bound))

/-- How many ids are lacking in files. -/
def lacking (d : Disk) (q : Query) : List Path → Nat
  | [] => 0
  | p :: files => ((d.found q p).map fun entries => (Insertion.pending entries).length).getD 0 + d.lacking q files

theorem lacking_congr (h : ∀ p ∈ files, d'.found q p = d.found q p) : d'.lacking q files = d.lacking q files := by
  induction files with
  | nil => rfl
  | cons p files ih =>
    rw [lacking, lacking, h p List.mem_cons_self, ih fun q hq => h q (List.mem_cons_of_mem _ hq)]

theorem Below.of_read (h : d.Below q files bound) (hread : ∀ p ∈ files, d'.read p = d.read p) :
    d'.Below q files bound := by
  intro p hp entries hentries
  rw [found, hread p hp] at hentries
  exact h p hp entries hentries

end Disk

namespace Lock

variable {directory : Path} {s s' : Session} {n : Nat} {id : Int}

theorem read_of_text (h : n ≤ greatestId) (hfile : s.disk.isFile (path directory) = .ok true)
    (hread : s.disk.read (path directory) = .ok (Bytes.ofString (text n))) :
    ((read directory).run.run s).1 = .ok (some n) := by
  unfold read
  rw [run_get_bind]
  simp only [hfile, hread, Except.mapError, bind, Except.bind, parse_text h]
  rfl

end Lock

namespace Disk

variable {d : Disk} {p : Path} {place : Place} {q : Query} {files : List Path} {bound more : Int}

theorem Below.mono (h : d.Below q files bound) (hle : bound ≤ more) : d.Below q files more :=
  fun p hp entries hentries e he n hn => Int.lt_of_lt_of_le (h p hp entries hentries e he n hn) hle

/-- What is read of a file with new contents is these. -/
theorem Plain.eq_of_read_withFile {old data new : Bytes} {mode : Nat} (h : d.Plain p place)
    (hget : d.tree.get? place = some (.file old mode)) (hread : (d.withFile place data mode).read p = .ok new) :
    new = data := by
  have hne : place ≠ [] := by
    rintro rfl
    cases hget
  obtain ⟨_, mode', hnew⟩ := (h.like (like_withFile hget)).of_read hread
  rw [withFile, FileTree.get?_put_self hne] at hnew
  exact (Item.file.inj (Option.some.inj hnew)).1.symm

end Disk

namespace Insertion

variable {q : Query} {p : Path} {contents : Bytes} {entries : List Entry} {c c' : Counter} {d d' : Disk}
  {result : Insertion} {files ran : List Path} {placeOf : Path → Place} {t t' : Tally (Option Counter) Insertion}
  {device : Device} {devices : Devices}

theorem Visited.next_le (h : Visited device p contents entries c d result c' d') :
    c.next ≤ c'.next ∧ c'.next ≤ c.next + (pending entries).length := by
  cases h with
  | idle => exact ⟨Int.le_refl _, by omega⟩
  | failed _ hnext _ => exact hnext
  | written _ _ _ hsplice _ =>
    have hnext := (splice_counter hsplice).1
    omega

theorem Visited.wellFormed {place : Place} (h : Visited device p contents entries c d result c' d')
    (hp : d.Plain p place)
    (hd : d.WellFormed) : d'.WellFormed := by
  cases h with
  | idle => exact hd
  | failed _ _ hleft =>
    rcases hleft.left with rfl | ⟨_, data, mode, hawaits, rfl⟩
    · exact hd
    · exact hd.withFile_new hawaits data mode
  | written _ _ _ _ hfile =>
    obtain ⟨mode, old, hget, htarget⟩ := hp.leadsToFile
    rw [hfile.file htarget]
    exact hd.withFile hget _ mode

/-- References below the next id stay below it: those of the visited file by reading it back, those of all others
because nothing happens to them. -/
theorem Visited.below (h : Visited device p contents entries c d result c' d') (htidy : device.Tidy)
    (hshow : d.Shows q p contents entries) (hback : ReadsBack q contents c) (hf : d.Finds files placeOf)
    (hp : p ∈ files)
    (hbelow : d.Below q files c.next) : d'.Below q files c'.next := by
  have hle := h.next_le.1
  have hsame := h.sameBeside (fun _ => htidy) (hf.plain p hp)
  cases h with
  | idle => exact hbelow
  | failed _ _ hleft =>
    rw [hleft.tidy htidy]
    exact hbelow.mono hle
  | @written data _ _ _ hup _ hsplice hfile =>
    obtain ⟨mode, old, hget, htarget⟩ := (hf.plain p hp).leadsToFile
    intro r hr entries' hentries' e' he' n hn
    by_cases hplace : placeOf r = placeOf p
    · obtain ⟨new, hnew⟩ := Disk.exists_shows hentries'
      obtain rfl : new = data := by
        refine Disk.Plain.eq_of_read_withFile (hplace ▸ hf.plain r hr) hget ?_
        rw [← hfile.file htarget]
        exact hnew.read
      rcases hback entries hshow.search hup new c' hsplice entries' hnew.search e' he' n hn with
        ⟨e, he, hold⟩ | ⟨_, hlt⟩
      · exact Int.lt_of_lt_of_le (hbelow p hp entries hshow.found_eq e he n hold) hle
      · exact hlt
    · rw [hsame.found_eq (hf.plain r hr) (by simpa using hplace)] at hentries'
      exact Int.lt_of_lt_of_le (hbelow r hr entries' hentries' e' he' n hn) hle

/-- With whichever id from `first` on the turn of a file may come, the parser keeps track of what is put into it. -/
def Traced (q : Query) (d : Disk) (files : List Path) (first : Int) : Prop :=
  ∀ p ∈ files, ∀ source entries, d.Shows q p source entries → pending entries ≠ [] →
    ∀ start : Nat, first ≤ start → start ≤ first + d.lacking q files → Retraces q source entries start

/-- A file less, and as many ids as it lacks. -/
theorem Traced.tail {c1 : Int} {d1 : Disk} {rest : List Path} (h : Traced q d (p :: rest) c.next)
    (hread : ∀ r ∈ rest, d1.read r = d.read r) (hle : c.next ≤ c1)
    (hmore : c1 ≤ c.next + ((d.found q p).map fun entries => (pending entries).length).getD 0) :
    Traced q d1 rest c1 := by
  intro r hr source entries hshow hsome start hfirst hlast
  have hlacking : d1.lacking q rest = d.lacking q rest :=
    Disk.lacking_congr fun p hp => by rw [Disk.found, Disk.found, hread p hp]
  refine h r (List.mem_cons_of_mem _ hr) source entries ⟨(hread r hr).symm.trans hshow.read, hshow.search⟩ hsome start
    (by omega) ?_
  rw [Disk.lacking]
  omega

end Insertion

namespace Survey

end Survey

namespace Job

variable {job : Job} {files : List Path} {s s' : Session} {placeOf : Path → Place} {start : Int}
  {r : Except Failure Numbering} {devices : Devices}

/-- The lock file holds no id, or one that is above every reference in the source files. -/
def Sound (job : Job) (s : Session) : Prop :=
  ∀ files ∈ (job.search.files s.disk).toOption, ∀ found ∈ ((Lock.read job.directory).run.run s).1.toOption,
    ∀ id ∈ found, s.disk.Below job.query files id

instance (job : Job) (s : Session) : Decidable (job.Sound s) :=
  inferInstanceAs (Decidable (∀ files ∈ (job.search.files s.disk).toOption,
    ∀ found ∈ ((Lock.read job.directory).run.run s).1.toOption, ∀ id ∈ found, s.disk.Below job.query files id))

/-- The first id that a run would hand out. -/
def firstId (job : Job) (files : List Path) (d : Disk) : Int :=
  if job.isCached then (job.lockedId.getD 0 : Nat) else (Survey.ofFiles d job.query files).nextId

theorem startId_first {first : Except Failure (Option Int)} (h : (job.startId files).run.run s = (first, s')) :
    s'.disk = s.disk ∧ ∀ start, first = .ok (some start) → start = job.firstId files s.disk := by
  cases hcached : job.isCached with
  | true =>
    obtain ⟨id, hid, hrun⟩ := startId_cached hcached
    rw [hrun] at h
    obtain ⟨rfl, rfl⟩ := Prod.mk.inj h
    refine ⟨rfl, fun start hstart => ?_⟩
    rw [firstId, if_pos hcached, hid]
    exact (Option.some.inj (Except.ok.inj hstart)).symm
  | false =>
    rw [startId_scanned hcached] at h
    obtain ⟨hdisk, hresult⟩ := scanId_run h
    refine ⟨hdisk, fun start hstart => ?_⟩
    have hfirst := hresult _ hstart
    split at hfirst
    · cases hfirst
    · rw [firstId, hcached]
      exact Option.some.inj hfirst

/-- A numbering ends before it has changed anything, or it goes through the files it has found. -/
theorem numberAmid_cases {others : Interference} (h : (job.numberAmid others devices).run.run s = (r, s')) :
    s'.disk = s.disk ∨ ∃ files s1, job.search.files s.disk = .ok files ∧ s1.disk = s.disk ∧
      (job.finish others devices files (some (job.firstId files s.disk))).run.run s1 = (r, s') := by
  rw [numberAmid] at h
  cases hsources : job.sources.run.run s with
  | mk found s1 =>
    cases found with
    | error f =>
      cases (run_bind_error hsources).symm.trans h
      exact .inl (congrArg Session.disk (sources_failed hsources))
    | ok files =>
      obtain ⟨hfiles, _, rfl⟩ := sources_ok hsources
      rw [run_bind_ok hsources] at h
      cases hstart : (job.startId files).run.run (s.noting [.foundFiles files.length]) with
      | mk first s2 =>
        obtain ⟨hdisk, hfirst⟩ := startId_first hstart
        cases first with
        | error f =>
          cases (run_bind_error hstart).symm.trans h
          exact .inl hdisk
        | ok first =>
          rw [run_bind_ok hstart] at h
          cases first with
          | none =>
            cases h
            exact .inl hdisk
          | some start =>
            obtain rfl : start = job.firstId files s.disk := hfirst start rfl
            exact .inr ⟨files, s2, hfiles, hdisk, h⟩

/-- What a run writes to is apart from what its search goes by: neither the lock file nor a source file is an ignore
file that counts or each other, and a lock file that is not there yet has no wanted extension. -/
structure Apart (job : Job) (files : List Path) (d : Disk) : Prop where
  sources : ∀ p ∈ files, ¬ d.SameFile (Lock.path job.directory) p
  rules : ∀ names, Search.ignoreFiles d job.search.directory job.search.isNested = .ok names →
    ∀ file ∈ names, ¬ d.SameFile (Lock.path job.directory) file ∧ ∀ p ∈ files, ¬ d.SameFile p file
  unsought : ∀ place mode rel, d.locate true job.search.directory = .ok (.occupied place (.directory mode)) →
    d.Awaits true (Lock.path job.directory) (place ++ rel) →
    Search.extension (job.search.directory.descend rel) ∉ Search.withoutDots job.search.extensions

/-- A source with one call, and a lock file. -/
def locked (id : Nat) : Session :=
  .small "info!(\"m\");" [(["Breadlog.lock"], .file (Bytes.ofString (Lock.text id)) 0o644)] .never

end Job

end LogRef
