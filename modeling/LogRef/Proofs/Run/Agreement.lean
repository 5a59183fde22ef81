import LogRef.Proofs.Run.Cancellation

/-!
# Counting and numbering agree

A count and a numbering look at the same calls: where nothing is missing nothing is inserted, and a numbering that is
complete has inserted as many ids as a count found missing before. This holds on all devices: where nothing is missing
nothing is written, and a numbering that is complete has met no failure.
-/
namespace LogRef

open Run

theorem Pass.addUp_cons (n : Int) (counts : List Int) : addUp (n :: counts) = n + addUp counts := rfl

namespace Audit

/-- How many entries have no reference. -/
def lacking (entries : List Entry) : Int := (entries.filter fun e => !e.hasReference).length

theorem lacking_nonneg (entries : List Entry) : 0 ≤ lacking entries := Int.natCast_nonneg _

theorem addUp_missing (found : List (List Entry)) :
    Pass.addUp (found.filterMap missing) = Pass.addUp (found.map lacking) := by
  induction found with
  | nil => rfl
  | cons entries found ih =>
    rw [List.map_cons, Pass.addUp_cons, ← ih]
    cases entries with
    | nil => simp [missing, lacking]
    | cons e rest => simp [missing, lacking, Pass.addUp_cons]

theorem addUp_lacking_nonneg (found : List (List Entry)) : 0 ≤ Pass.addUp (found.map lacking) := by
  induction found with
  | nil => exact Int.le_refl 0
  | cons entries found ih =>
    rw [List.map_cons, Pass.addUp_cons]
    exact Int.add_nonneg (lacking_nonneg entries) ih

theorem complete_of_addUp {found : List (List Entry)} (h : Pass.addUp (found.map lacking) = 0) :
    ∀ entries ∈ found, ∀ e ∈ entries, e.hasReference = true := by
  induction found with
  | nil => exact fun _ h => (List.not_mem_nil h).elim
  | cons entries found ih =>
    have hrest := addUp_lacking_nonneg found
    have hfirst := lacking_nonneg entries
    rw [List.map_cons, Pass.addUp_cons] at h
    intro es hes e he
    rcases List.mem_cons.mp hes with rfl | hes
    · have hnone : lacking es = 0 := by omega
      have hnil := List.eq_nil_of_length_eq_zero (Int.ofNat_eq_zero.mp hnone)
      have := List.filter_eq_nil_iff.mp hnil e he
      simpa using this
    · exact ih (by omega) es hes e he

end Audit

namespace Survey

theorem length_reference (entries : List Entry) :
    ((entries.length - (entries.filterMap Entry.reference).length : Nat) : Int) = Audit.lacking entries := by
  unfold Audit.lacking
  congr 1
  induction entries with
  | nil => rfl
  | cons e entries ih =>
    have hle := List.length_filterMap_le Entry.reference entries
    cases hr : e.reference with
    | none =>
      have hnot : (!e.hasReference) = true := by simp [Entry.hasReference, hr]
      rw [List.filterMap_cons_none hr, List.filter_cons, if_pos hnot, List.length_cons, List.length_cons, ← ih]
      omega
    | some n =>
      have hnot : ¬ (!e.hasReference) = true := by simp [Entry.hasReference, hr]
      rw [List.filterMap_cons_some hr, List.filter_cons, if_neg hnot, List.length_cons, List.length_cons, ← ih]
      omega

/-- A survey misses what a count misses. -/
theorem missing_conclude (found : List (List Entry)) :
    (conclude (found.filterMap ofEntries)).missing = Pass.addUp (found.map Audit.lacking) := by
  unfold conclude
  dsimp only
  induction found with
  | nil => rfl
  | cons entries found ih =>
    rw [List.map_cons, Pass.addUp_cons, ← ih]
    cases entries with
    | nil => simp [ofEntries, Audit.lacking]
    | cons e rest =>
      rw [← length_reference]
      simp [ofEntries, Pass.addUp_cons]

theorem missing_ofFiles (d : Disk) (q : Query) (files : List Path) :
    (ofFiles d q files).missing = Pass.addUp ((files.filterMap (d.found q)).map Audit.lacking) :=
  missing_conclude _

end Survey

namespace Insertion

variable {path : Path} {contents : Bytes} {entries : List Entry} {c c' : Counter} {d d' : Disk} {result : Insertion}
  {q : Query} {files : List Path} {placeOf : Path → Place} {t t' : Tally (Option Counter) Insertion}
  {device : Device} {devices : Devices} {s : Session}

theorem lacking_eq (entries : List Entry) :
    Audit.lacking entries = ((pending entries).length : Int) + (unusable entries).length := by
  have hsplit := List.length_eq_length_filter_add (l := entries.filter fun e => !e.hasReference) Entry.isUsable
  rw [Audit.lacking, hsplit, Int.natCast_add]
  rfl

/-- A visit that does not fail has put in an id for every entry that lacked one. -/
theorem Visited.inserted_eq (h : Visited device path contents entries c d result c' d')
    (hok : result.hasFailed = false) : result.inserted = Audit.lacking entries := by
  have hnone {r : Int} (hfailed : (⟨!(unusable entries).isEmpty, r⟩ : Insertion).hasFailed = false) :
      (unusable entries).length = 0 := by
    simp only [Bool.not_eq_false', List.isEmpty_iff] at hfailed
    rw [hfailed]
    rfl
  cases h with
  | idle hpending => rw [lacking_eq, hpending, hnone hok]; rfl
  | failed => cases hok
  | written => rw [lacking_eq, hnone hok]; exact (Int.add_zero _).symm

/-- What a file's entries say of the visit to it. -/
def Accounts (entries : List Entry) (result : Option Insertion) : Prop :=
  ∃ r, result = some r ∧ (r.hasFailed = false → r.inserted = Audit.lacking entries) ∧
    ((∀ e ∈ entries, e.hasReference = true) → r = ⟨false, 0⟩)

theorem conclude_cons (r : Insertion) (rs : List Insertion) :
    conclude (r :: rs) = ⟨r.hasFailed || (conclude rs).hasFailed, r.inserted + (conclude rs).inserted⟩ := rfl

theorem conclude_concat (rs : List Insertion) (r : Insertion) :
    conclude (rs ++ [r]) = ⟨(conclude rs).hasFailed || r.hasFailed, (conclude rs).inserted + r.inserted⟩ := by
  induction rs with
  | nil => simp [conclude, Pass.addUp]
  | cons r' rs ih => rw [List.cons_append, conclude_cons, conclude_cons, ih, Bool.or_assoc, Int.add_assoc]

theorem reduceOption_some (r : Insertion) (rs : List (Option Insertion)) :
    (some r :: rs).reduceOption = r :: rs.reduceOption := rfl

theorem addUp_inserted {found : List (List Entry)} {rs : List (Option Insertion)} (h : List.Forall₂ Accounts found rs)
    (hok : (conclude rs.reduceOption).hasFailed = false) :
    (conclude rs.reduceOption).inserted = Pass.addUp (found.map Audit.lacking) := by
  induction h with
  | nil => rfl
  | @cons entries r found rs hr _ ih =>
    obtain ⟨result, rfl, hinserted, _⟩ := hr
    rw [reduceOption_some, conclude_cons] at hok ⊢
    obtain ⟨hfirst, hrest⟩ := Bool.or_eq_false_iff.mp hok
    rw [List.map_cons, Pass.addUp_cons, ← ih hrest, ← hinserted hfirst]

theorem conclude_complete {found : List (List Entry)} {rs : List (Option Insertion)}
    (h : List.Forall₂ Accounts found rs) (hall : ∀ entries ∈ found, ∀ e ∈ entries, e.hasReference = true) :
    conclude rs.reduceOption = ⟨false, 0⟩ := by
  induction h with
  | nil => rfl
  | @cons entries r found rs hr _ ih =>
    obtain ⟨result, rfl, _, hcomplete⟩ := hr
    rw [reduceOption_some, conclude_cons, hcomplete (hall entries List.mem_cons_self),
      ih fun es hes => hall es (List.mem_cons_of_mem _ hes)]
    rfl

/-- A step of an insertion that does not fail. -/
def unfailed (devices : Devices) : Pass.Step (Option Counter) Insertion :=
  fun path contents entries counter d counter' result d' =>
    step .none devices path contents entries counter d counter' result d' ∧ ∀ r ∈ result, r.hasFailed = false

/-- A step that does not fail leaves no scratch file behind, whatever the devices do. -/
theorem contained_unfailed (devices : Devices) : Pass.Contained (unfailed devices) := by
  rintro path contents entries counter d counter' result d' place ⟨hstep, hok⟩ hp
  cases counter with
  | none =>
    obtain ⟨_, rfl⟩ := hstep
    exact .refl _ _
  | some c =>
    obtain ⟨c', r, _, rfl, hvisited, _⟩ := hstep
    exact hvisited.sameBeside (fun hfailed => by cases (hok r rfl).symm.trans hfailed) hp

theorem unfailed_of_results (h : Pass.Swept (step .none devices) q files t d t' d')
    (hok : ∀ r ∈ t'.results, r.hasFailed = false) : Pass.Swept (unfailed devices) q files t d t' d' := by
  induction h with
  | done t d => exact .done t d
  | unread hunread _ ih => exact .unread hunread (ih hok)
  | visited hshow hstep hrest ih =>
    refine .visited hshow ⟨hstep, fun r hr => hok r (hrest.results_subset ?_)⟩ (ih hok)
    exact List.mem_append_right _ (Option.mem_toList.mpr hr)

/-- Where every entry has a reference no step fails, and nothing is written. -/
theorem unfailed_of_complete (h : Pass.Swept (step .none devices) q files t d t' d') (hc : ∃ c, t.state = some c)
    (hall : ∀ entries ∈ files.filterMap (d.found q), ∀ e ∈ entries, e.hasReference = true) :
    Pass.Swept (unfailed devices) q files t d t' d' ∧ d' = d := by
  induction h with
  | done t d => exact ⟨.done t d, rfl⟩
  | unread hunread _ ih =>
    rw [List.filterMap_cons, Disk.found_of_unread hunread] at hall
    obtain ⟨hswept, hsame⟩ := ih hc hall
    exact ⟨.unread hunread hswept, hsame⟩
  | visited hshow hstep _ ih =>
    rw [List.filterMap_cons, hshow.found_eq] at hall
    obtain ⟨c, hc⟩ := hc
    have hstep' := hstep
    rw [hc] at hstep'
    obtain ⟨c', r, rfl, rfl, hvisited, hcomplete⟩ := hstep'
    obtain ⟨rfl, rfl⟩ := hcomplete (hall _ List.mem_cons_self)
    obtain ⟨hswept, hsame⟩ := ih ⟨c', rfl⟩ fun es hes => hall es (List.mem_cons_of_mem _ hes)
    exact ⟨.visited hshow ⟨hstep, fun r hr => by cases hr; rfl⟩ hswept, hsame⟩

/-- A sweep with a counter that does not fail accounts for the entries of all its files. -/
theorem accounts_of_swept (h : Pass.Swept (unfailed devices) q files t d t' d') (hf : d.Finds files placeOf)
    (hc : ∃ c, t.state = some c) (hnew : t.results = []) :
    ∃ rs, List.Forall₂ Accounts (files.filterMap (d.found q)) rs ∧ t'.results = rs.reduceOption := by
  obtain ⟨rs, hrs, hresults⟩ := h.results (I := fun state => ∃ c, state = some c) (P := Accounts)
    (contained_unfailed devices) (fun {p contents entries state d state' result d'} hstep hstate => by
      obtain ⟨c, rfl⟩ := hstate
      obtain ⟨c', r, rfl, rfl, hvisited, hcomplete⟩ := hstep.1
      exact ⟨⟨c', rfl⟩, r, rfl, hvisited.inserted_eq, fun hall => (hcomplete hall).1⟩) hf hc
  exact ⟨rs, hrs, by rw [hresults, hnew, List.nil_append]⟩

/-- Visits to files in which every entry has a reference do not break off. -/
theorem visitAll_of_complete (devices : Devices) (hf : s.disk.Finds files placeOf)
    (hsearch : ∀ p ∈ files, s.disk.Searchable q p) (hc : ∃ c, t.state = some c)
    (hall : ∀ entries ∈ files.filterMap (s.disk.found q), ∀ e ∈ entries, e.hasReference = true) :
    ∃ t' s', ((Insertion.pass devices).visitAll q t files).run.run s = (.ok t', s') := by
  induction files generalizing t s with
  | nil => exact ⟨t, s, rfl⟩
  | cons path rest ih =>
    have hrest := fun p hp => hsearch p (List.mem_cons_of_mem path hp)
    have hlater (entries) (h : entries ∈ rest.filterMap (s.disk.found q)) : ∀ e ∈ entries, e.hasReference = true :=
      hall entries (((List.sublist_cons_self path rest).filterMap _).subset h)
    rcases Pass.visitFile_of_searchable (meets devices) (hf.plain path List.mem_cons_self)
      (hsearch path List.mem_cons_self) t with ⟨s1, hvisit, hdisk⟩ | ⟨_, entries, _, _, s1, hshow, hvisit, hstep⟩
    · obtain ⟨t', s', hrun⟩ := ih (hdisk ▸ hf.tail) (hdisk ▸ hrest) (t := { t with skipped := t.skipped ++ [path] })
        hc (hdisk ▸ hlater)
      exact ⟨t', s', by rw [Pass.visitAll, run_bind_ok hvisit, hrun]⟩
    · obtain ⟨c, hc⟩ := hc
      rw [hc] at hstep
      obtain ⟨c', r, rfl, rfl, _, hcomplete⟩ := hstep
      have hentries : entries ∈ (path :: rest).filterMap (s.disk.found q) :=
        List.mem_filterMap.mpr ⟨path, List.mem_cons_self, hshow.found_eq⟩
      have hdisk : s1.disk = s.disk := (hcomplete (hall entries hentries)).2
      obtain ⟨t', s', hrun⟩ :=
        ih (t := { t with state := some c', results := t.results ++ (some r).toList }) (hdisk ▸ hf.tail)
        (hdisk ▸ hrest) ⟨c', rfl⟩ (hdisk ▸ hlater)
      exact ⟨t', s', by rw [Pass.visitAll, run_bind_ok hvisit, hrun]⟩

theorem unfailed_of_conclude {rs : List Insertion} (h : (conclude rs).hasFailed = false) :
    ∀ r ∈ rs, r.hasFailed = false := by
  simpa [conclude] using h

end Insertion

namespace Job

variable {devices : Devices} {job : Job} {files : List Path} {s s' : Session} {placeOf : Path → Place}

/-- The number of calls without a reference in the files on a disk. -/
def lackingIn (job : Job) (files : List Path) (d : Disk) : Int :=
  Pass.addUp ((files.filterMap (d.found job.query)).map Audit.lacking)

theorem audit_run {outcome : Outcome Unit Int} (hf : s.disk.Finds files placeOf)
    (h : (Audit.pass.run job.tools.parse job.settings () files).run.run s = (.ok outcome, s')) :
    outcome.result = job.lackingIn files s.disk ∧ ∀ p ∈ files, s.disk.Searchable job.query p := by
  obtain ⟨t, hswept, rfl⟩ := Pass.swept_of_run Audit.meets Audit.steady h
  refine ⟨?_, hswept.searchable (Pass.contained_quietly _) hf⟩
  rw [hswept.quiet.2, List.nil_append, Audit.addUp_missing]
  rfl

/-- A count of files that can all be searched. -/
theorem count_of_searchable (hs : s.stop = .never) (hfiles : job.search.files s.disk = .ok files) (hsome : files ≠ [])
    (hf : s.disk.Finds files placeOf) (hsearch : ∀ p ∈ files, s.disk.Searchable job.query p) :
    ∃ s', job.count.run.run s = (.ok ⟨job.lackingIn files s.disk⟩, s') := by
  obtain ⟨outcome, s1, hrun⟩ := (Pass.stopsCleanly (s := s.noting [.foundFiles files.length]) Audit.meets Audit.steady
    (Pass.contained_quietly _) hs hf hsearch ()).returns
  have hresult := (audit_run (s := s.noting [.foundFiles files.length]) hf hrun).1
  rw [Session.noting_disk] at hresult
  rw [count, run_bind_ok (sources_of_files hfiles hsome), run_bind_ok hrun, ← hresult]
  split
  · exact ⟨s1.noting [.missingFound], rfl⟩
  · exact ⟨s1, rfl⟩

theorem searchable_of_count {n : Shortfall} (hfiles : job.search.files s.disk = .ok files)
    (hf : s.disk.Finds files placeOf) (h : job.count.run.run s = (.ok n, s')) :
    n.missing = job.lackingIn files s.disk ∧ files ≠ [] ∧ ∀ p ∈ files, s.disk.Searchable job.query p := by
  rw [count] at h
  obtain ⟨files', s0, hsources, h⟩ := of_run_bind_ok h
  obtain ⟨hfiles', hsome, rfl⟩ := sources_ok hsources
  obtain rfl := Except.ok.inj (hfiles.symm.trans hfiles')
  obtain ⟨outcome, s1, hrun, h⟩ := of_run_bind_ok h
  obtain ⟨hresult, hsearch⟩ := audit_run (s := s.noting [.foundFiles files.length]) hf hrun
  refine ⟨?_, hsome, hsearch⟩
  rw [Session.noting_disk] at hresult
  rw [← hresult]
  split at h <;> cases h <;> rfl

/-- Where nothing is missing, the last phase changes nothing but the lock file, and it is complete if every file can be
read. -/
theorem finish_of_complete (hs : s.stop = .never) (hf : s.disk.Finds files placeOf)
    (hsearch : ∀ p ∈ files, s.disk.Searchable job.query p) (hnull : (Lock.path job.directory).hasNull = false)
    (hnone : job.lackingIn files s.disk = 0) (start : Int) :
    ∃ numbering s', (job.finish .none devices files (some start)).run.run s = (.ok numbering, s') ∧
      numbering.isComplete = files.all s.disk.canRead ∧ numbering.inserted = 0 ∧
      Lock.Updated job.directory s.disk s'.disk := by
  have hcomplete := Audit.complete_of_addUp hnone
  obtain ⟨t0, s0, hvisits⟩ := Insertion.visitAll_of_complete (s := s.noting [.nextId start])
    (t := ⟨some ⟨start⟩, [], []⟩) devices hf hsearch ⟨_, rfl⟩ hcomplete
  obtain ⟨outcome, s1, hpass⟩ := Pass.returns_of_visitAll (s := s.noting [.nextId start]) (Insertion.meets devices)
    (Insertion.steady devices) hs hvisits
  obtain ⟨t, hswept, rfl⟩ := Pass.swept_of_run (Insertion.meets devices) (Insertion.steady devices) hpass
  obtain ⟨hswept, hsame⟩ := Insertion.unfailed_of_complete hswept ⟨_, rfl⟩ hcomplete
  have hsame : s1.disk = s.disk := hsame
  obtain ⟨rs, hrs, hresults⟩ := Insertion.accounts_of_swept hswept hf ⟨_, rfl⟩ rfl
  have hresult : Insertion.conclude t.results = ⟨false, 0⟩ := hresults ▸ Insertion.conclude_complete hrs hcomplete
  have hskipped : t.skipped = files.filter fun p => !s.disk.canRead p :=
    hswept.skipped (Insertion.contained_unfailed devices) hf
  have hnumbering : ∀ start,
      (numberingOf start ⟨t.state, Insertion.conclude t.results, t.skipped⟩).isComplete = files.all s.disk.canRead ∧
        (numberingOf start ⟨t.state, Insertion.conclude t.results, t.skipped⟩).inserted = 0 := by
    intro start
    rw [numberingOf, hresult, hskipped, Bool.eq_iff_iff]
    simp
  rw [← insertion_none] at hpass
  rw [finish_of_inserted (insertAmid_kept hpass (by simp))]
  cases job.settings.keepsLock with
  | false => exact ⟨_, _, rfl, (hnumbering start).1, (hnumbering start).2, hsame ▸ .kept⟩
  | true =>
    obtain ⟨b, s3, hwrite⟩ := Lock.write_ok hnull ((t.state.map Counter.next).getD start)
      (s1.noting [.insertedInAll (Insertion.conclude t.results).inserted])
    have hlock := Lock.write_updated job.directory ((t.state.map Counter.next).getD start)
      (s1.noting [.insertedInAll (Insertion.conclude t.results).inserted])
    rw [hwrite] at hlock
    simp only [if_true]
    exact ⟨_, s3, by rw [run_bind_ok hwrite]; rfl, (hnumbering start).1, (hnumbering start).2, hsame ▸ hlock⟩

/-- A complete last phase has inserted what was lacking before. -/
theorem inserted_of_finish {numbering : Numbering} {start : Int} (hf : s.disk.Finds files placeOf)
    (h : (job.finish .none devices files (some start)).run.run s = (.ok numbering, s'))
    (hcomplete : numbering.isComplete = true) :
    numbering.inserted = job.lackingIn files s.disk ∧ ∀ p ∈ files, s.disk.Searchable job.query p := by
  obtain ⟨r, s1, hpass, _, hnumbering⟩ := finish_run h
  obtain ⟨outcome, rfl, rfl⟩ := hnumbering numbering rfl
  obtain ⟨t, hswept, rfl⟩ := Pass.swept_of_run (Insertion.meets devices) (Insertion.steady devices) hpass
  have hok : (Insertion.conclude t.results).hasFailed = false := by
    simpa using (Bool.and_eq_true_iff.mp hcomplete).1
  have hswept := Insertion.unfailed_of_results hswept (Insertion.unfailed_of_conclude hok)
  obtain ⟨rs, hrs, hresults⟩ := Insertion.accounts_of_swept hswept hf ⟨_, rfl⟩ rfl
  refine ⟨?_, hswept.searchable (Insertion.contained_unfailed devices) hf⟩
  rw [hresults] at hok
  have hsum := Insertion.addUp_inserted hrs hok
  rw [← hresults] at hsum
  exact hsum

/-- A complete numbering has inserted what was lacking before. -/
theorem inserted_of_complete {numbering : Numbering} (hfiles : job.search.files s.disk = .ok files)
    (hf : s.disk.Finds files placeOf) (h : (job.numberOn devices).run.run s = (.ok numbering, s'))
    (hcomplete : numbering.isComplete = true) :
    numbering.inserted = job.lackingIn files s.disk ∧ files ≠ [] ∧ ∀ p ∈ files, s.disk.Searchable job.query p := by
  rw [numberOn_eq] at h
  obtain ⟨files', s0, hsources, h⟩ := of_run_bind_ok h
  obtain ⟨hfiles', hsome, rfl⟩ := sources_ok hsources
  obtain rfl := Except.ok.inj (hfiles.symm.trans hfiles')
  obtain ⟨first, s1, hfirst, h⟩ := of_run_bind_ok h
  cases first with
  | some start =>
    have hdisk : s1.disk = s.disk := by
      cases hcached : job.isCached with
      | true =>
        obtain ⟨id, _, hrun⟩ := startId_cached hcached
        rw [hrun] at hfirst
        rw [← (Prod.mk.inj hfirst).2]
        rfl
      | false =>
        rw [startId_scanned hcached] at hfirst
        exact (scanId_run hfirst).1
    obtain ⟨hinserted, hsearch⟩ := inserted_of_finish (s := s1) (hdisk ▸ hf) h hcomplete
    rw [hdisk] at hinserted hsearch
    exact ⟨hinserted, hsome, hsearch⟩
  | none =>
    obtain ⟨hnumbering, _⟩ := Prod.mk.inj h
    obtain rfl := Except.ok.inj hnumbering
    cases hcached : job.isCached with
    | true =>
      obtain ⟨id, _, hrun⟩ := startId_cached hcached
      rw [hrun] at hfirst
      cases hfirst
    | false =>
      rw [startId_scanned hcached] at hfirst
      have hmissing := (scanId_run hfirst).2 none rfl
      rw [Session.noting_disk] at hmissing
      split at hmissing
      · next hzero =>
        rw [Survey.missing_ofFiles] at hzero
        exact ⟨hzero.symm, hsome, searchable_of_scan (s := s.noting [.foundFiles files.length]) hf hfirst⟩
      · cases hmissing

/-- Where a count finds nothing missing, a numbering inserts nothing and leaves the files as they are, unless the lock
file is one of them; it succeeds unless it began with the id of the lock file and met a file that cannot be read. And a
complete numbering has inserted as many ids as a count found missing before. -/
theorem count_agrees_with_number (job : Job) (devices : Devices) (hs : s.stop = .never) (hw : s.disk.tree.WellFormed)
    (hfiles : job.search.files s.disk = .ok files)
    (hlock : ∀ p ∈ files, ¬ s.disk.SameFile (Lock.path job.directory) p)
    (hnull : (Lock.path job.directory).hasNull = false) :
    (∀ s1, job.count.run.run s = (.ok ⟨0⟩, s1) →
      ∃ numbering s2, (job.numberOn devices).run.run s = (.ok numbering, s2) ∧
        numbering.isComplete = (!job.isCached || files.all s.disk.canRead) ∧ numbering.inserted = 0 ∧
        ∀ p ∈ files, ∀ place item, s.disk.locate true p = .ok (.occupied place item) →
          s2.disk.tree.get? place = s.disk.tree.get? place) ∧
    (∀ numbering s2, (job.numberOn devices).run.run s = (.ok numbering, s2) → numbering.isComplete = true →
      ∃ s1, job.count.run.run s = (.ok ⟨numbering.inserted⟩, s1)) := by
  obtain ⟨placeOf, hf⟩ := Search.finds_of_files hw hfiles
  refine ⟨fun s1 hcount => ?_, fun numbering s2 hnumber hcomplete => ?_⟩
  · obtain ⟨hnone, hsome, hsearch⟩ := searchable_of_count hfiles hf hcount
    have hnone : job.lackingIn files s.disk = 0 := hnone.symm
    have hmissing : (Survey.ofFiles s.disk job.query files).missing = 0 := (Survey.missing_ofFiles _ _ _).trans hnone
    obtain ⟨_, first, s0, hfirst, hdisk, hstop, hinserts⟩ :=
      startId_run (s := s.noting [.foundFiles files.length]) hs hf hsearch
    rw [Session.noting_disk] at hdisk hinserts
    -- a survey finds nothing to do, so that ids are inserted only from a cached one on
    have hcached : job.isCached = first.isSome := by rw [hinserts, inserts, hmissing]; simp
    rw [numberOn_eq, run_bind_ok (sources_of_files hfiles hsome), run_bind_ok hfirst, hcached]
    cases first with
    | none => exact ⟨⟨true, 0, none⟩, s0, rfl, rfl, rfl, fun p hp place item hl => by rw [hdisk]⟩
    | some start =>
      obtain ⟨numbering, s2, hfinish, hcomplete, hinserted, hupdated⟩ :=
        finish_of_complete (s := s0) hstop (hdisk ▸ hf) (hdisk ▸ hsearch) hnull (hdisk ▸ hnone) start
      rw [hdisk] at hupdated hcomplete
      refine ⟨numbering, s2, hfinish, hcomplete, hinserted, fun p hp place item hl => ?_⟩
      rw [hf.place_eq hp hl]
      exact places_of_updated hf hlock (.refl _) hupdated hp
  · obtain ⟨hinserted, hsome, hsearch⟩ := inserted_of_complete hfiles hf hnumber hcomplete
    obtain ⟨s1, hcount⟩ := count_of_searchable hs hfiles hsome hf hsearch
    exact ⟨s1, hinserted ▸ hcount⟩

/-- A source whose call has a reference. -/
def numbered : Session := .small "info!(\"[ref: 1] m\");" [] .never

/-- With something missing and with nothing, and in the second case with a cached id. -/
theorem small_counts_agree :
    (((small none).number.run.run unlocked).1.toOption = some ⟨true, 1, some 2⟩ ∧
      ∃ s1, (small none).count.run.run unlocked = (.ok ⟨1⟩, s1)) ∧
    ((small (some 5)).count.run.run numbered).1.toOption = some ⟨0⟩ ∧
      ∃ numbering s2, (small (some 5)).number.run.run numbered = (.ok numbering, s2) ∧
        numbering.isComplete = true ∧ numbering.inserted = 0 := by
  have hapart {s : Session} (hfree : (s.disk.locate true (Lock.path ⟨.single, []⟩)).toOption =
      some (.free [] "Breadlog.lock")) (p : Path) : ¬ s.disk.SameFile (Lock.path ⟨.single, []⟩) p := by
    rintro ⟨place, item, item', hl, _⟩
    rw [eq_ok_of_toOption hfree] at hl
    cases hl
  have hnumber : ((small none).number.run.run unlocked).1.toOption = some ⟨true, 1, some 2⟩ := by decide +kernel
  have hcount : ((small (some 5)).count.run.run numbered).1.toOption = some ⟨0⟩ := by decide +kernel
  have hfirst := count_agrees_with_number (s := unlocked) (small none) .sound rfl (by decide +kernel)
    (eq_ok_of_toOption (a := [Session.smallFile]) (by decide +kernel))
    (fun p _ => hapart (by decide +kernel) p) (by decide +kernel)
  have hsecond := count_agrees_with_number (s := numbered) (small (some 5)) .sound rfl (by decide +kernel)
    (eq_ok_of_toOption (a := [Session.smallFile]) (by decide +kernel))
    (fun p _ => hapart (by decide +kernel) p) (by decide +kernel)
  obtain ⟨numbering, s2, hrun, hcomplete, hinserted, _⟩ :=
    hsecond.1 _ (Prod.ext (eq_ok_of_toOption hcount) rfl)
  exact ⟨⟨hnumber, hfirst.2 _ _ (Prod.ext (eq_ok_of_toOption hnumber) rfl) rfl⟩, hcount,
    numbering, s2, hrun, hcomplete, hinserted⟩

/-- A lock file that is a link to a source without calls. -/
def lockIsSource : Session := .small "next_reference_id: 5\n" [(["Breadlog.lock"], .link "src/a.rs")] .never

/-- A source that cannot be read. -/
def unreadSource : Session :=
  { numbered with disk := { numbered.disk with unreadable := [["src", "a.rs"]] } }

/-- Nothing is missing, yet a source that the lock file leads to is overwritten with the next id, and a source that
cannot be read fails a run that begins with a cached id. -/
theorem complete_source_overwritten_or_unread :
    (Lock.path (small (some 5)).directory ∉ [Session.smallFile] ∧
      ((small (some 5)).search.files lockIsSource.disk).toOption = some [Session.smallFile] ∧
      ((Lock.read (small (some 5)).directory).run.run lockIsSource).1.toOption = some (some 5) ∧
      ((small (some 5)).count.run.run lockIsSource).1.toOption = some ⟨0⟩ ∧
      (((small (some 5)).number.run.run lockIsSource).2.disk.read Session.smallFile).toOption ≠
        (lockIsSource.disk.read Session.smallFile).toOption) ∧
    ((small (some 5)).search.files unreadSource.disk).toOption = some [Session.smallFile] ∧
      ((small (some 5)).count.run.run unreadSource).1.toOption = some ⟨0⟩ ∧
      ((small (some 5)).number.run.run unreadSource).1.toOption = some ⟨false, 0, some 5⟩ := by
  decide +kernel

end Job

end LogRef
