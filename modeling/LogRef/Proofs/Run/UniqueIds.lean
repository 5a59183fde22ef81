import LogRef.Proofs.Run.Phases

/-!
# Numbering from a survey

However a run ends that looks for its first id itself, the ids it has written are new, and each is written once. This
holds whatever others do to the files and whichever calls of the devices fail.
-/
namespace LogRef

open Insertion Run

namespace Survey

variable {entries : List Entry} {e : Entry} {n : Int} {surveys : List FileSurvey} {found : FileSurvey} {d : Disk}
  {q : Query} {files : List Path} {p : Path}

theorem le_of_greatest {ids : List Int} {top : Int} (h : greatest ids = some top) (hn : n ∈ ids) : n ≤ top :=
  (List.max?_eq_some_iff.mp h).2 n hn

theorem exists_greatest {ids : List Int} (hn : n ∈ ids) : ∃ top, greatest ids = some top := by
  cases h : greatest ids with
  | some top => exact ⟨top, rfl⟩
  | none => exact absurd (List.max?_eq_none_iff.mp h ▸ hn) (List.not_mem_nil)

theorem le_greatest_ofEntries (he : e ∈ entries) (hn : e.reference = some n) :
    ∃ found top, ofEntries entries = some found ∧ found.greatest = some top ∧ n ≤ top := by
  have hmem : n ∈ entries.filterMap Entry.reference := List.mem_filterMap.mpr ⟨e, he, hn⟩
  obtain ⟨top, htop⟩ := exists_greatest hmem
  have hsome : ¬ entries.isEmpty = true := fun h => List.not_mem_nil (List.isEmpty_iff.mp h ▸ he)
  exact ⟨_, top, by rw [ofEntries, if_neg hsome], htop, le_of_greatest htop hmem⟩

theorem lt_conclude {top : Int} (hfound : found ∈ surveys) (htop : found.greatest = some top) :
    top < (conclude surveys).nextId := by
  have hmem : top ∈ surveys.filterMap FileSurvey.greatest := List.mem_filterMap.mpr ⟨found, hfound, htop⟩
  obtain ⟨most, hmost⟩ := exists_greatest hmem
  have hle := le_of_greatest hmost hmem
  simp only [conclude, hmost]
  exact Int.lt_add_one_of_le hle

/-- The first id is above every reference in the files. -/
theorem lt_nextId (hp : p ∈ files) (hentries : d.found q p = some entries) (he : e ∈ entries)
    (hn : e.reference = some n) : n < (ofFiles d q files).nextId := by
  obtain ⟨found, top, hfound, htop, hle⟩ := le_greatest_ofEntries he hn
  have hmem : found ∈ (files.filterMap (d.found q)).filterMap ofEntries :=
    List.mem_filterMap.mpr ⟨entries, List.mem_filterMap.mpr ⟨p, hp, hentries⟩, hfound⟩
  exact Int.lt_of_le_of_lt hle (lt_conclude hmem htop)

end Survey

namespace Job

variable {others : Interference} {devices : Devices} {job : Job} {files : List Path} {s s' : Session}
  {r : Except Failure Numbering}

/-- What a run has written that counts up from its survey, and what it answers: the first files were visited, up to
the id `next`, and then the lock file was seen to. -/
structure Numbered (job : Job) (others : Interference) (devices : Devices) (files : List Path) (d : Disk)
    (r : Except Failure Numbering) (d' : Disk) (writes : List Write) (next : Int) : Prop where
  visited : ∃ ran s t s', ran <+: files ∧ s.disk = d ∧
    (((Insertion.pass devices).amid others).visitAll job.query
      ⟨some ⟨(Survey.ofFiles d job.query files).nextId⟩, [], []⟩ ran).run.run s = (.ok t, s') ∧
    t.state = some ⟨next⟩ ∧ Wrote others devices job.query d writes s'.disk ∧
    Lock.Updated job.directory s'.disk d'
  answered : ∀ numbering, r = .ok numbering →
    numbering.nextId = some next ∨ numbering.nextId = none ∧ writes = []
  inOrder : (writes.map Write.path).Sublist files
  ascending : (writes.flatMap Write.ids).Pairwise (· < ·)
  fromFirst : ∀ id ∈ writes.flatMap Write.ids, (Survey.ofFiles d job.query files).nextId ≤ id
  fits : ∀ id ∈ writes.flatMap Write.ids, id ≤ greatestId
  fresh : ∀ id ∈ writes.flatMap Write.ids, ∀ p ∈ files, ∀ entries, d.found job.query p = some entries →
    ∀ e ∈ entries, ∀ n, e.reference = some n → n < id
  belowNext : ∀ id ∈ writes.flatMap Write.ids, id < next

theorem numbered_of_visited {d : Disk} {ran : List Path} {t : Tally (Option Counter) Insertion}
    (hran : ran <+: files) (hrun : (((Insertion.pass devices).amid others).visitAll job.query
      ⟨some ⟨(Survey.ofFiles s.disk job.query files).nextId⟩, [], []⟩ ran).run.run s = (.ok t, s'))
    (hlock : Lock.Updated job.directory s'.disk d)
    (hanswer : ∀ numbering, r = .ok numbering → numbering.nextId = t.state.map Counter.next) :
    ∃ writes next, job.Numbered others devices files s.disk r d writes next := by
  obtain ⟨⟨next⟩, ws, hstate, hwrote, hsub, hup⟩ :=
    wrote_of_swept (Pass.swept_of_visitAll (meets_amid others devices) hrun) rfl
  rw [hstate] at hanswer
  exact ⟨ws, next, {
    visited := ⟨ran, s, t, s', hran, rfl, hrun, hstate, hwrote, hlock⟩
    answered := fun numbering h => .inl (hanswer numbering h)
    inOrder := hsub.trans hran.sublist
    ascending := hup.up
    fromFirst := hup.from_
    fits := hup.fits
    fresh := fun id hid p hp entries hentries e he n hn =>
      Int.lt_of_lt_of_le (Survey.lt_nextId hp hentries he hn) (hup.from_ id hid)
    belowNext := hup.below }⟩

/-- Nothing was written and no id was used. -/
theorem numbered_nothing {d : Disk} (hd : d = s.disk) (hanswer : ∀ numbering, r = .ok numbering →
    numbering.nextId = none) :
    ∃ writes next, job.Numbered others devices files s.disk r d writes next := by
  subst hd
  exact ⟨[], (Survey.ofFiles s.disk job.query files).nextId, {
    visited := ⟨[], s, _, s, List.nil_prefix, rfl, rfl, rfl, .none _, .kept⟩
    answered := fun numbering h => .inr ⟨hanswer numbering h, rfl⟩
    inOrder := List.nil_sublist files
    ascending := .nil
    fromFirst := fun _ h => (List.not_mem_nil h).elim
    fits := fun _ h => (List.not_mem_nil h).elim
    fresh := fun _ h => (List.not_mem_nil h).elim
    belowNext := fun _ h => (List.not_mem_nil h).elim }⟩

/-- The ids that a run has written when it ends, with a result or not, go up from file to file and from place to place.
They begin at the survey's first id, are above all references that the survey has seen, and below the id that would
have been next. Others may change the files between reading and changing them, and any call of a device may fail. -/
theorem numbering_ascends (hfiles : job.search.files s.disk = .ok files) (hscan : job.isCached = false)
    (h : (job.numberAmid others devices).run.run s = (r, s')) :
    ∃ writes next, job.Numbered others devices files s.disk r s'.disk writes next := by
  rw [numberAmid] at h
  by_cases hsome : files = []
  · subst hsome
    rw [run_bind_error (sources_of_none hfiles)] at h
    obtain ⟨rfl, rfl⟩ := Prod.mk.inj h
    exact numbered_nothing rfl fun _ h => by cases h
  rw [run_bind_ok (sources_of_files hfiles hsome), startId_scanned hscan] at h
  cases hstart : (job.scanId files).run.run (s.noting [.foundFiles files.length]) with
  | mk result s1 =>
    obtain ⟨hdisk, hresult⟩ := scanId_run hstart
    rw [Session.noting_disk] at hdisk hresult
    cases result with
    | error f =>
      rw [run_bind_error hstart] at h
      obtain ⟨rfl, rfl⟩ := Prod.mk.inj h
      exact numbered_nothing hdisk fun _ h => by cases h
    | ok first =>
      rw [run_bind_ok hstart] at h
      have hfirst := hresult first rfl
      split at hfirst
      · subst hfirst
        obtain ⟨rfl, rfl⟩ := Prod.mk.inj h
        exact numbered_nothing hdisk fun numbering h => by rw [← Except.ok.inj h]
      · subst hfirst
        obtain ⟨r1, s2, hpass, hlock, hnumbering⟩ := finish_run h
        obtain ⟨ran, t, s3, hran, hrun, hdisk3, hr1⟩ :=
          Pass.run_prefix (meets_amid others devices) ((steady devices).amid others) hpass
        rw [hdisk3] at hlock
        rw [← hdisk] at hrun ⊢
        refine numbered_of_visited (s := s1.noting _) hran hrun hlock fun numbering hr => ?_
        obtain ⟨outcome, rfl, rfl⟩ := hnumbering numbering hr
        rcases hr1 with ⟨hr1, _⟩ | hr1 | ⟨f, hr1⟩
        · obtain rfl := Except.ok.inj hr1
          obtain ⟨c, _, hstate, _⟩ := wrote_of_swept (Pass.swept_of_visitAll (meets_amid others devices) hrun) rfl
          simp only [numberingOf, hstate]
          rfl
        · cases hr1
        · cases hr1

/-- A session that is told to stop right after its only call got an id. -/
def interrupted : Session := .small "info!(\"m\");" [] (.after 4 none)

theorem interrupted_ascends : (small none).isCached = false ∧
    (((small none).number.run.run interrupted).2.disk.read Session.smallFile).toOption =
      some (Bytes.ofString "info!(\"[ref: 1] m\");") ∧
    ∃ writes next, (small none).Numbered .none .sound [Session.smallFile] interrupted.disk
      ((small none).number.run.run interrupted).1 ((small none).number.run.run interrupted).2.disk writes next :=
  ⟨rfl, by decide +kernel, numbering_ascends (eq_ok_of_toOption (by decide +kernel)) rfl rfl⟩

end Job

end LogRef
