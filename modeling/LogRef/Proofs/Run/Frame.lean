import LogRef.Proofs.FileSystem.Ways
import LogRef.Proofs.Run.LockSoundness

/-!
# What a numbering leaves alone

However a numbering ends, it has changed the lock file and files that had something to mark, and nothing else: no
scratch file is left if devices let go of it, and a file that was marked has the permission bits it had. Others may
change files meanwhile; where they do not, this is how things are.
-/
namespace LogRef

open Run

namespace Interference

/-- The others keep directories and links, and what can be read. -/
def Steady (others : Interference) : Prop := ∀ p (d : Disk), d.SameWays (others p d)

/-- The others leave a place alone. -/
def Spares (others : Interference) (place : Place) : Prop :=
  ∀ p d, (others p d).tree.get? place = d.tree.get? place

end Interference

namespace Disk

variable {d d0 d1 d' : Disk} {p : Path} {place q : Place} {new : Bytes} {query : Query} {contents : Bytes}
  {entries : List Entry}

/-- Writing to a path changes nothing but what it names. -/
theorem get?_of_write {data : Bytes} (hp : d.Unlinked p) (h : d.write p data = .ok d') (hne : ¬ d.Names p place) :
    d'.tree.get? place = d.tree.get? place := by
  unfold write at h
  rw [hp.locate] at h
  split at h
  · next hl =>
    obtain rfl := Except.ok.inj h
    exact FileTree.get?_put_ne fun heq => hne ⟨_, hl, heq.symm⟩
  · cases h
  · next hl =>
    obtain rfl := Except.ok.inj h
    exact FileTree.get?_put_ne fun heq => hne ⟨_, hl, heq.symm⟩
  · cases h

/-- Removing a path changes nothing but what it names. -/
theorem get?_of_remove (h : d.remove p = .ok d') (hne : ¬ d.Names p place) :
    d'.tree.get? place = d.tree.get? place := by
  unfold remove at h
  split at h
  · cases h
  · next hl =>
    obtain rfl := Except.ok.inj h
    exact FileTree.get?_erase_ne fun heq => hne ⟨_, hl, heq.symm⟩
  · cases h
  · cases h

/-- A file had something to mark: it has new contents and the permission bits it had. -/
def Annotated (query : Query) (p : Path) (place : Place) (before after : Disk) : Prop :=
  ∃ old new entries mode, before.Shows query p old entries ∧ Insertion.pending entries ≠ [] ∧
    before.tree.get? place = some (.file old mode) ∧ after.tree.get? place = some (.file new mode)

namespace SameWays

variable (h : d0.SameWays d) (hd : d0.WellFormed) (hp : d0.Plain p place)
include h hd hp

/-- New contents for a path that led to a file stand at the place of that file. -/
theorem replaced (hfile : d.Replaced p new d') :
    d0.SameWays d' ∧ (∀ q, q ≠ place → d'.tree.get? q = d.tree.get? q) ∧
      ∀ old mode, d.tree.get? place = some (.file old mode) → d'.tree.get? place = some (.file new mode) := by
  obtain ⟨q, bits, rfl, beside, data, mode, hbeside, hnames⟩ := hfile.put
  have hscratch : d0.SameWays (d.withFile beside data mode) := h.trans (.withFile (by rw [hbeside]; rfl) data mode)
  obtain ⟨dest, hl, hq⟩ := hscratch.names hd hnames
  obtain ⟨first, mode', hall⟩ := hp
  obtain rfl : place = q := by
    rw [hall false] at hl
    cases hl
    exact hq
  have hway : (d.tree.get? place).bind Item.way = none := by
    rw [h.tree, get?_of_locate (hall false) (by simp)]
    rfl
  refine ⟨h.trans (.withFile hway new bits), fun q hq => FileTree.get?_put_ne hq, fun old mode hget => ?_⟩
  have hleads : d.LeadsToFile p place mode :=
    ⟨⟨place, old, h.locate_file hd (hall true) hget⟩, _, h.locate_file hd (hall false) hget, fun _ => by simp⟩
  rw [hfile.file hleads]
  refine FileTree.get?_put_self ?_
  rintro rfl
  cases hget

/-- What a path shows is what it showed, while its file is as it was. -/
theorem shows (hshow : d.Shows query p contents entries) (hget : d.tree.get? place = d0.tree.get? place) :
    d0.Shows query p contents entries ∧ ∃ mode, d0.tree.get? place = some (.file contents mode) := by
  obtain ⟨hreadable, mode, hfile⟩ := h.get?_of_read hd hp hshow.read
  rw [hget] at hfile
  obtain ⟨old, mode', hold, hread⟩ := hp.get?
  cases hfile.symm.trans hold
  rw [if_neg hreadable] at hread
  exact ⟨⟨hread, hshow.search⟩, mode, hfile⟩

end SameWays

end Disk

namespace Lock

variable {directory : Path} {d d' : Disk} {place : Place}

/-- Whatever is done with a lock file that is no link, all else stays as it is. -/
theorem Updated.beside (h : Updated directory d d') (hlink : d.Unlinked (path directory))
    (hne : ¬ d.Names (path directory) place) : d'.tree.get? place = d.tree.get? place := by
  cases h with
  | kept => rfl
  | written n hw => exact Disk.get?_of_write hlink hw hne
  | removed hr => exact Disk.get?_of_remove hr hne

theorem Updated.sameWays (h : Updated directory d d') (hlink : d.Unlinked (path directory)) : d.SameWays d' := by
  cases h with
  | kept => exact .refl d
  | written n hw => exact .of_write hw
  | removed hr => exact .of_remove hlink hr

end Lock

namespace Insertion

variable {others : Interference} {devices : Devices} {path : Path} {contents : Bytes} {entries : List Entry}
  {d d0 d' : Disk} {q : Query} {files : List Path} {placeOf : Path → Place} {place : Place}
  {t t' : Tally (Option Counter) Insertion}

section

variable (hsteady : others.Steady) (htidy : devices.Tidy) (hd : d0.WellFormed)
include hsteady htidy hd

/-- A visit changes nothing but its file, and that only if there is something to mark; the others may have changed more
by then. -/
theorem step_framed {counter counter' : Option Counter} {result : Option Insertion}
    (h : step others devices path contents entries counter d counter' result d') (hways : d0.SameWays d)
    (hp : d0.Plain path place) :
    d0.SameWays d' ∧ (∀ q, q ≠ place → d'.tree.get? q = (others path d).tree.get? q) ∧
      (d' = others path d ∨ pending entries ≠ [] ∧ ∀ old mode,
        (others path d).tree.get? place = some (.file old mode) →
          ∃ new, d'.tree.get? place = some (.file new mode)) := by
  have hothers := hways.trans (hsteady path d)
  cases counter with
  | none =>
    obtain ⟨_, rfl⟩ := h
    exact ⟨hothers, fun _ _ => rfl, .inl rfl⟩
  | some c =>
    obtain ⟨c', r, _, _, hvisited, _⟩ := h
    cases hvisited with
    | idle => exact ⟨hothers, fun _ _ => rfl, .inl rfl⟩
    | failed _ _ hleft =>
      rw [hleft.tidy (htidy path)]
      exact ⟨hothers, fun _ _ => rfl, .inl rfl⟩
    | written hsome _ _ _ hfile =>
      obtain ⟨hways', hbeside, hown⟩ := hothers.replaced hd hp hfile
      exact ⟨hways', hbeside, .inr ⟨hsome, fun old mode hget => ⟨_, hown old mode hget⟩⟩⟩

/-- A sweep changes nothing but its files. -/
theorem swept_beside (h : Pass.Swept (step others devices) q files t d t' d') (hways : d0.SameWays d)
    (hf : ∀ p ∈ files, d0.Plain p (placeOf p)) :
    d0.SameWays d' ∧ ∀ place, others.Spares place → place ∉ files.map placeOf →
      d'.tree.get? place = d.tree.get? place := by
  induction h with
  | done t d => exact ⟨hways, fun _ _ _ => rfl⟩
  | unread _ _ ih =>
    obtain ⟨hways', hbeside⟩ := ih hways fun p hp => hf p (List.mem_cons_of_mem _ hp)
    exact ⟨hways', fun place hplace hne => hbeside place hplace fun hmem => hne (List.mem_cons_of_mem _ hmem)⟩
  | @visited p _ _ _ d _ _ _ _ _ _ _ hstep _ ih =>
    obtain ⟨hways1, hone, _⟩ := step_framed hsteady htidy hd hstep hways (hf p List.mem_cons_self)
    obtain ⟨hways', hbeside⟩ := ih hways1 fun p hp => hf p (List.mem_cons_of_mem _ hp)
    refine ⟨hways', fun place hplace hne => ?_⟩
    rw [List.map_cons, List.mem_cons, not_or] at hne
    rw [hbeside place hplace hne.2, hone place hne.1, hplace p d]

/-- A sweep changes only files with something to mark, and not their permission bits. -/
theorem swept_annotated (h : Pass.Swept (step others devices) q files t d t' d') (hways : d0.SameWays d)
    (hf : d0.Finds files placeOf) (hplace : others.Spares place) (hsame : d.tree.get? place = d0.tree.get? place) :
    d'.tree.get? place = d0.tree.get? place ∨ ∃ p ∈ files, Disk.Annotated q p place d0 d' := by
  induction h with
  | done t d => exact .inl hsame
  | unread _ _ ih =>
    refine (ih hways hf.tail hsame).imp_right ?_
    rintro ⟨p, hp, hmarked⟩
    exact ⟨p, List.mem_cons_of_mem _ hp, hmarked⟩
  | @visited p rest _ _ d d1 d' contents entries _ _ hshow hstep hrest ih =>
    have hplain := hf.plain p List.mem_cons_self
    obtain ⟨hways1, hone, hown⟩ := step_framed hsteady htidy hd hstep hways hplain
    by_cases hat : place = placeOf p
    · -- the rest of the files are at other places
      subst hat
      obtain ⟨_, hbeside⟩ := swept_beside hsteady htidy hd hrest hways1 hf.tail.plain
      have hlast : d'.tree.get? (placeOf p) = d1.tree.get? (placeOf p) :=
        hbeside _ hplace (List.nodup_cons.mp hf.distinct).1
      rcases hown with rfl | ⟨hsome, hown⟩
      · exact .inl (hlast.trans ((hplace p d).trans hsame))
      · obtain ⟨hshow0, mode, hget⟩ := hways.shows hd hplain hshow hsame
        obtain ⟨new, hnew⟩ := hown contents mode ((hplace p d).trans (hsame.trans hget))
        exact .inr ⟨p, List.mem_cons_self, contents, new, entries, mode, hshow0, hsome, hget, hlast.trans hnew⟩
    · refine (ih hways1 hf.tail ((hone place hat).trans ((hplace p d).trans hsame))).imp_right ?_
      rintro ⟨p, hp, hmarked⟩
      exact ⟨p, List.mem_cons_of_mem _ hp, hmarked⟩

end

end Insertion

namespace Job

variable {others : Interference} {devices : Devices} {job : Job} {files : List Path} {s s' : Session}
  {placeOf : Path → Place} {start : Int} {place : Place} {r : Except Failure Numbering}

/-- What a numbering may do to a place: nothing, something to the lock file, or new contents and the same permission
bits for one of the files that are searched for, which had an entry without a reference at a usable position. -/
inductive Kept (job : Job) (before after : Disk) (place : Place) : Prop
  | same (h : after.tree.get? place = before.tree.get? place)
  | lock (h : before.Names (Lock.path job.directory) place)
  | source {files : List Path} {p : Path} (hfiles : job.search.files before = .ok files) (hp : p ∈ files)
    (h : before.Annotated job.query p place after)

section

variable (hsteady : others.Steady) (htidy : devices.Tidy) (hd : s.disk.WellFormed)
  (hlink : s.disk.Unlinked (Lock.path job.directory))
include hsteady htidy hd hlink

/-- However the last phase ends, only files with something to mark have changed, and then the lock file may. -/
theorem finish_framed (hfiles : job.search.files s.disk = .ok files) (hf : s.disk.Finds files placeOf)
    (h : (job.finish others devices files (some start)).run.run s = (r, s')) :
    s.disk.SameWays s'.disk ∧ ∀ place, others.Spares place → job.Kept s.disk s'.disk place := by
  obtain ⟨r1, s1, hpass, hupdated, _⟩ := finish_run h
  obtain ⟨ran, t, s2, hran, hvisits, hdisk, _⟩ :=
    Pass.run_prefix (Insertion.meets_amid others devices) ((Insertion.steady devices).amid others) hpass
  rw [hdisk] at hupdated
  have hswept := Pass.swept_of_visitAll (Insertion.meets_amid others devices) hvisits
  have hf := hf.sublist hran.sublist
  obtain ⟨hways, _⟩ := Insertion.swept_beside hsteady htidy hd hswept (.refl _) hf.plain
  have hlink' := hways.unlinked hd hlink
  refine ⟨hways.trans (hupdated.sameWays hlink'), fun place hplace => ?_⟩
  by_cases hlock : s.disk.Names (Lock.path job.directory) place
  · exact .lock hlock
  have hafter := hupdated.beside hlink' fun hnames => hlock (hways.names hd hnames)
  rcases Insertion.swept_annotated hsteady htidy hd hswept (.refl _) hf hplace rfl with hsame | ⟨p, hp, hmarked⟩
  · exact .same (hafter.trans hsame)
  · obtain ⟨old, new, entries, mode, hshow, hsome, hold, hnew⟩ := hmarked
    exact .source hfiles (hran.subset hp) ⟨old, new, entries, mode, hshow, hsome, hold, hafter.trans hnew⟩

theorem numberAmid_framed (h : (job.numberAmid others devices).run.run s = (r, s')) :
    s.disk.SameWays s'.disk ∧ ∀ place, others.Spares place → job.Kept s.disk s'.disk place := by
  rcases numberAmid_cases h with hsame | ⟨files, s1, hfiles, hdisk, hfinish⟩
  · rw [hsame]
    exact ⟨.refl _, fun place _ => .same rfl⟩
  · obtain ⟨placeOf, hf⟩ := Search.finds_of_files hd.tree hfiles
    rw [← hdisk] at hd hlink hfiles hf ⊢
    exact finish_framed hsteady htidy hd hlink hfiles hf hfinish

end

/-- A file keeps its permission bits where only the lock file and files with something to mark change. -/
theorem Kept.mode {before after : Disk} {p : Path} {old : Bytes} {mode : Nat} (h : job.Kept before after place)
    (hlink : before.Unlinked (Lock.path job.directory)) (hlock : ¬ before.SameFile (Lock.path job.directory) p)
    (hp : before.locate true p = .ok (.occupied place (.file old mode))) :
    ∃ new, after.tree.get? place = some (.file new mode) := by
  have hget := Disk.get?_of_locate hp (by simp)
  cases h with
  | same h => exact ⟨old, h.trans hget⟩
  | source _ _ h =>
    obtain ⟨_, new, _, _, _, _, hbefore, hafter⟩ := h
    cases hbefore.symm.trans hget
    exact ⟨new, hafter⟩
  | lock h =>
    obtain ⟨dest, hl, hplace⟩ := h
    cases dest with
    | free parent name =>
      obtain rfl : parent ++ [name] = place := hplace
      cases (Disk.get?_of_locate_free hl).symm.trans hget
    | occupied q item =>
      obtain rfl : q = place := hplace
      exact absurd ⟨q, item, _, hlink.locate.trans hl, hp⟩ hlock

/-- However a numbering ends, on devices that may fail as long as a scratch file that is given up can be closed and
removed, and whatever others do to files meanwhile: where the others change nothing, only the lock file and files that
had something to mark are other than before, nothing else is created or removed, and every file that was found has the
permission bits it had. What is at a place is meant here; a link to a file that was marked shows its new contents. A run
that is left alone is one of these runs. -/
theorem number_leaves_rest (job : Job) :
    job.numberAmid .none .sound = job.number ∧ ∀ others devices, others.Steady → devices.Tidy →
      ∀ s r s', s.disk.WellFormed → s.disk.isLink (Lock.path job.directory) ≠ .ok true →
      (∀ files, job.search.files s.disk = .ok files →
        ∀ p ∈ files, ¬ s.disk.SameFile (Lock.path job.directory) p) →
      (job.numberAmid others devices).run.run s = (r, s') →
      s.disk.SameWays s'.disk ∧ (∀ place, others.Spares place → job.Kept s.disk s'.disk place) ∧
        ∀ files, job.search.files s.disk = .ok files → ∀ p ∈ files, ∃ place old mode,
          (∀ follow, s.disk.locate follow p = .ok (.occupied place (.file old mode))) ∧
          (others.Spares place → ∃ new, s'.disk.tree.get? place = some (.file new mode)) := by
  refine ⟨numberAmid_none job .sound, fun others devices hsteady htidy s r s' hd hlink hlock h => ?_⟩
  have hunlinked := Disk.unlinked_of_isLink hlink
  obtain ⟨hways, hkept⟩ := numberAmid_framed hsteady htidy hd hunlinked h
  refine ⟨hways, hkept, fun files hfiles p hp => ?_⟩
  obtain ⟨placeOf, hf⟩ := Search.finds_of_files hd.tree hfiles
  obtain ⟨old, mode, hall⟩ := hf.plain p hp
  refine ⟨placeOf p, old, mode, hall, fun hplace => ?_⟩
  exact (hkept _ hplace).mode hunlinked (hlock files hfiles p hp) (hall true)

/-- A source with one call, no lock file yet, and a file that is no source. -/
def besideOther : Session :=
  .small "info!(\"m\");" [(["src", "notes.txt"], .file (Bytes.ofString "info!(\"m\");") 0o600)] .never

/-- Others rewrite the file that is no source. -/
def scribbling : Interference := fun _ d =>
  match d.tree.get? ["src", "notes.txt"] with
  | some (.file _ mode) => d.withFile ["src", "notes.txt"] [] mode
  | _ => d

theorem scribbling_steady : scribbling.Steady := by
  intro _ d
  unfold scribbling
  split
  · next hget => exact .withFile (by rw [hget]; rfl) _ _
  · exact .refl d

theorem scribbling_spares (h : place ≠ ["src", "notes.txt"]) : scribbling.Spares place := by
  intro _ d
  unfold scribbling
  split
  · exact FileTree.get?_put_ne h
  · rfl

/-- The only source cannot take its place. -/
def unmoved : Devices := fun _ => { Device.sound with rename := some .broken }

theorem besideOther_leaves_rest :
    (∀ place, place ≠ ["src", "notes.txt"] → (small none).Kept besideOther.disk
        (((small none).numberAmid scribbling .sound).run.run besideOther).2.disk place ∧
      (small none).Kept besideOther.disk
        (((small none).numberAmid scribbling unmoved).run.run besideOther).2.disk place) ∧
      (((small none).numberAmid scribbling .sound).run.run besideOther).2.disk.tree.items =
        [(["src"], .directory 0o755), (["src", "a.rs"], .file (Bytes.ofString "info!(\"[ref: 1] m\");") 0o644),
          (["src", "notes.txt"], .file [] 0o600),
          (["Breadlog.lock"], .file (Bytes.ofString (Lock.text 2)) 0o644)] ∧
      (((small none).numberAmid scribbling unmoved).run.run besideOther).2.disk.tree.items =
        [(["src"], .directory 0o755), (["src", "a.rs"], .file (Bytes.ofString "info!(\"m\");") 0o644),
          (["src", "notes.txt"], .file [] 0o600),
          (["Breadlog.lock"], .file (Bytes.ofString (Lock.text 2)) 0o644)] := by
  have hlocate : besideOther.disk.locate true (Lock.path (small none).directory) = .ok (.free [] "Breadlog.lock") :=
    eq_ok_of_toOption (by decide +kernel)
  have hlink : besideOther.disk.isLink (Lock.path (small none).directory) = .ok false :=
    eq_ok_of_toOption (by decide +kernel)
  have hwell : besideOther.disk.WellFormed := ⟨by decide +kernel, FileTree.isDirectory_top _⟩
  have hlock : ∀ files, (small none).search.files besideOther.disk = .ok files →
      ∀ p ∈ files, ¬ besideOther.disk.SameFile (Lock.path (small none).directory) p := by
    rintro files _ p _ ⟨place, item, item', hl, _⟩
    rw [hlocate] at hl
    cases hl
  have hall := (number_leaves_rest (small none)).2 scribbling
  refine ⟨fun place hplace => ⟨?_, ?_⟩, by decide +kernel, by decide +kernel⟩
  · exact (hall .sound scribbling_steady Devices.tidy_sound besideOther _ _ hwell (by simp [hlink]) hlock rfl).2.1 place
      (scribbling_spares hplace)
  · exact (hall unmoved scribbling_steady (fun _ => ⟨rfl, rfl⟩) besideOther _ _ hwell (by simp [hlink]) hlock rfl).2.1
      place (scribbling_spares hplace)

/-- A link to the only source. -/
def besideLink : Session := .small "info!(\"m\");" [(["link.txt"], .link "src/a.rs")] .never

/-- The device is full when the scratch file is written, and still when it is closed. -/
def stuck : Devices := fun _ => { Device.sound with calls := [.failed .full 0], closing := .failed .full 0 }

/-- What is read at other paths can change all the same, when they are links, and a scratch file stays where it is when
it cannot be closed. -/
theorem link_and_scratch_not_left :
    ((besideLink.disk.read ⟨.none, ["link.txt"]⟩).toOption = some (Bytes.ofString "info!(\"m\");") ∧
      (((small none).number.run.run besideLink).2.disk.read ⟨.none, ["link.txt"]⟩).toOption =
        some (Bytes.ofString "info!(\"[ref: 1] m\");")) ∧
    besideOther.disk.tree.get? ["src", ".a.rs.t.breadlog"] = none ∧
      (((small none).numberOn stuck).run.run besideOther).2.disk.tree.get? ["src", ".a.rs.t.breadlog"] =
        some (.file [] 0o600) := by
  decide +kernel

end Job

end LogRef
