import LogRef.Proofs.Run.Phases

/-!
# Stopping a run

A run that is told to stop has visited the first files, and each of them is as the whole run would leave it. The
other files are as they were, and the lock file is gone.
-/
namespace LogRef

open Run

namespace Disk

variable {d d' : Disk} {p r : Path} {place : Place} {data : Bytes} {mode : Nat}

/-- Two paths lead to the same thing, links followed. -/
def SameFile (d : Disk) (p r : Path) : Prop :=
  ∃ place item item', d.locate true p = .ok (.occupied place item) ∧ d.locate true r = .ok (.occupied place item')

theorem locate_of_like (h : d.Like d') {follow : Bool} {item : Item}
    (hl : d'.locate follow p = .ok (.occupied place item)) :
    ∃ item', d.locate follow p = .ok (.occupied place item') := by
  rcases locate_alike h follow p with heq | ⟨place', data, data', mode, hd, hd'⟩
  · exact ⟨item, heq ▸ hl⟩
  · rw [hd'] at hl
    cases hl
    exact ⟨_, hd⟩

theorem isFile_like (h : d.Like d') (p : Path) : d'.isFile p = d.isFile p := by
  unfold isFile item?
  rcases locate_alike h true p with heq | ⟨place, data, data', mode, hd, hd'⟩
  · rw [heq]
  · rw [hd, hd']
    rfl

/-- What is a file can be removed. -/
theorem isFile_of_remove_error {e : FileError} (h : d.remove p = .error e) : d.isFile p ≠ .ok true := by
  intro hfile
  obtain ⟨q, data, mode, hl⟩ := locate_of_isFile hfile
  obtain ⟨place, item, hsearch, hitem⟩ := locate_unfollowed hl
  rw [remove, hsearch] at h
  cases item with
  | directory mode => exact hitem mode rfl
  | file data mode => cases h
  | link target => cases h

end Disk

namespace Lock

variable {directory : Path} {d d' : Disk} {place : Place} {data : Bytes} {mode : Nat}

/-- Whatever is done with the lock file, other files stay as they are. -/
theorem Updated.get? (h : Updated directory d d') (hfile : d.tree.get? place = some (.file data mode))
    (hne : ∀ item, d.locate true (path directory) ≠ .ok (.occupied place item)) :
    d'.tree.get? place = d.tree.get? place := by
  cases h with
  | kept => rfl
  | written n hw =>
    unfold Disk.write at hw
    split at hw
    · next q _ _ hl =>
      obtain rfl := Except.ok.inj hw
      exact FileTree.get?_put_ne fun heq => hne _ (heq ▸ hl)
    · cases hw
    · next parent name hl =>
      obtain rfl := Except.ok.inj hw
      refine FileTree.get?_put_ne fun heq => ?_
      rw [heq, Disk.get?_of_locate_free hl] at hfile
      cases hfile
    · cases hw
  | removed hr =>
    unfold Disk.remove at hr
    split at hr
    · cases hr
    · next q item hdir hl =>
      obtain rfl := Except.ok.inj hr
      refine FileTree.get?_erase_ne fun heq => ?_
      subst heq
      have hitem := Disk.get?_of_locate hl fun mode hm => hdir mode hm
      rw [hfile] at hitem
      obtain rfl := Option.some.inj hitem
      exact hne _ (Disk.locate_followed hl fun target ht => by cases ht)
    · cases hr
    · cases hr

end Lock

theorem Lock.write_steady (directory : Path) (id : Int) : Run.Steady (Lock.write directory id) := by
  unfold Lock.write
  split
  · exact .bind (.report _) fun _ => .pure _
  · refine .get_bind (fun s => ?_) fun _ _ => rfl
    split
    · split
      · exact .bind (.throw _) fun _ => .bind (.report _) fun _ => .pure _
      · exact .bind (.report _) fun _ => .pure _
    · exact .bind (.ofWork (.setDisk _)) fun _ => .bind (.report _) fun _ => .pure _

namespace Run

variable {α β : Type} {x : Run α} {k : α → Run β} {s s' : Session} {m m' : Nat}

/-- On this session, the work asks `m` questions and does not depend on later ones. -/
def Asks (x : Run α) (m : Nat) (s : Session) : Prop :=
  ∀ n signal, x.run.run (s.withStop (.after (n + m) signal)) =
    ((x.run.run s).1, (x.run.run s).2.withStop (.after n signal))

theorem Steady.asks (h : Steady x) (s : Session) : Asks x 0 s := fun n signal => h s (.after n signal)

theorem Asks.bind {a : α} {total : Nat} (hx : Asks x m s) (h : x.run.run s = (.ok a, s')) (hk : Asks (k a) m' s')
    (htotal : total = m + m') : Asks (x >>= k) total s := by
  subst htotal
  intro n signal
  have hrun := hx (n + m') signal
  rw [h] at hrun
  rw [show n + (m + m') = n + m' + m by omega, run_bind_ok hrun, run_bind_ok h, hk n signal]

end Run

namespace Pass

variable {σ α β : Type} {pass : Pass σ α β} {step : Step σ α} {total : List α → β} {parse : Bytes → Node}
  {settings : Settings} {start : σ} {files : List Path} {s : Session} {placeOf : Path → Place}

/-- How a pass goes that is told to stop at its `k`-th question, against the same pass that is never told. -/
structure StopsCleanly (pass : Pass σ α β) (parse : Bytes → Node) (settings : Settings) (start : σ)
    (files : List Path) (s : Session) : Prop where
  returns : ∃ outcome s', (pass.run parse settings start files).run.run s = (.ok outcome, s')
  early : ∀ k signal, 1 ≤ k → k ≤ questions settings files →
    ∃ t s', (pass.visitAll (query parse settings) ⟨start, [], []⟩
        (files.take (min files.length (settings.workers * (k / 2))))).run.run s = (.ok t, s') ∧
      (pass.run parse settings start files).run.run (s.withStop (.after (k - 1) signal)) =
        (.error .cancelled, s'.stopped signal)
  late : ∀ k signal, questions settings files < k →
    (pass.run parse settings start files).run.run (s.withStop (.after (k - 1) signal)) =
      (((pass.run parse settings start files).run.run s).1,
        ((pass.run parse settings start files).run.run s).2.withStop
          (.after (k - 1 - questions settings files) signal))

theorem asks_run (hp : pass.Steady) (hs : s.stop = .never) {t : Tally σ α} {s' : Session}
    (h : (pass.visitAll (query parse settings) ⟨start, [], []⟩ files).run.run s = (.ok t, s')) :
    Asks (pass.run parse settings start files) (questions settings files) s := by
  intro n signal
  rw [run_outlasts hp signal n h, run_never hp hs]

theorem stop_run (hp : pass.Steady) (parse : Bytes → Node) (settings : Settings) (start : σ) (files : List Path)
    (hs : s.stop = .never) :
    ((pass.run parse settings start files).run.run s).2.stop = .never := by
  rw [run_never hp hs]
  have hwhole : Run.Steady (pass.whole parse settings start files) :=
    .bind (hp.visitAll _ _ _) fun t => .bind (hp.conclude t.results) fun _ => .pure _
  rw [hwhole.stop_eq, hs]

/-- A pass that is not told to stop comes to its end with its visits. -/
theorem returns_of_visitAll (hm : pass.Meets step total) (hp : pass.Steady) (hs : s.stop = .never) {t : Tally σ α}
    {s' : Session} (h : (pass.visitAll (query parse settings) ⟨start, [], []⟩ files).run.run s = (.ok t, s')) :
    ∃ outcome s1, (pass.run parse settings start files).run.run s = (.ok outcome, s1) := by
  obtain ⟨ns, hconclude⟩ := hm.conclude t.results s'
  rw [run_never hp hs]
  exact ⟨_, _, by rw [whole, run_bind_ok h, run_bind_ok hconclude]; rfl⟩

theorem stopsCleanly (hm : pass.Meets step total) (hp : pass.Steady) (hc : Contained step) (hs : s.stop = .never)
    (hf : s.disk.Finds files placeOf) (hsearch : ∀ p ∈ files, s.disk.Searchable (query parse settings) p)
    (start : σ) : pass.StopsCleanly parse settings start files s := by
  obtain ⟨t, s', hall⟩ := visitAll_ok hm hc hf hsearch ⟨start, [], []⟩
  refine ⟨returns_of_visitAll hm hp hs hall, fun k signal hk hle => ?_, fun k signal hlt => ?_⟩
  · obtain ⟨t1, s1, h1, h2⟩ := run_cancelled hp signal (n := k - 1) (by omega) hall
    rw [show k - 1 + 1 = k by omega] at h1
    exact ⟨t1, s1, by rw [Nat.min_comm, ← List.take_eq_take_min, h1], h2⟩
  · have hasks := asks_run hp hs hall (k - 1 - questions settings files) signal
    rwa [show k - 1 - questions settings files + questions settings files = k - 1 by omega] at hasks

end Pass

namespace Job

variable {devices : Devices} {job : Job} {files : List Path} {s s' : Session} {placeOf : Path → Place} {start : Int}

/-- How many questions are asked before ids are inserted. -/
def scanQuestions (job : Job) (files : List Path) : Nat :=
  if job.isCached then 0 else Pass.questions job.settings files

/-- Whether a run comes to insert ids. -/
def inserts (job : Job) (files : List Path) (d : Disk) : Bool :=
  job.isCached || (Survey.ofFiles d job.query files).missing != 0

/-- How many questions are asked in all. -/
def allQuestions (job : Job) (files : List Path) (d : Disk) : Nat :=
  job.scanQuestions files + if job.inserts files d then Pass.questions job.settings files else 0

theorem scanId_asks (hs : s.stop = .never) (hf : s.disk.Finds files placeOf)
    (hsearch : ∀ p ∈ files, s.disk.Searchable job.query p) :
    Asks (job.scanId files) (Pass.questions job.settings files) s := by
  have hreport := run_lift_report .scanningForId s
  obtain ⟨t, s', hall⟩ := Pass.visitAll_ok (s := s.noting [.scanningForId]) Survey.meets
    (Pass.contained_quietly Survey.ofEntries) hf hsearch ⟨(), [], []⟩
  have hpass : Asks (Survey.pass.run job.tools.parse job.settings () files) (Pass.questions job.settings files)
      (s.noting [.scanningForId]) := Pass.asks_run Survey.steady hs hall
  obtain ⟨outcome, s1, hrun⟩ := (Pass.stopsCleanly (s := s.noting [.scanningForId]) Survey.meets Survey.steady
    (Pass.contained_quietly Survey.ofEntries) hs hf hsearch ()).returns
  refine ((Steady.report _).asks s).bind hreport (hpass.bind hrun (Steady.asks ?_ s1) rfl) (by omega)
  split
  · exact .bind (.report _) fun _ => .pure _
  · exact .pure _

theorem scanId_cancelled (hs : s.stop = .never) (hf : s.disk.Finds files placeOf)
    (hsearch : ∀ p ∈ files, s.disk.Searchable job.query p) {k : Nat} (signal : Option Int) (hk : 1 ≤ k)
    (hle : k ≤ Pass.questions job.settings files) :
    ∃ s', (job.scanId files).run.run (s.withStop (.after (k - 1) signal)) = (.error .cancelled, s') ∧
      s'.disk = s.disk := by
  obtain ⟨t, s1, hvisit, hpass⟩ := (Pass.stopsCleanly (s := s.noting [.scanningForId]) Survey.meets Survey.steady
    (Pass.contained_quietly Survey.ofEntries) hs hf hsearch ()).early k signal hk hle
  have hreport : (liftM (Session.report .scanningForId) : Run Unit).run.run (s.withStop (.after (k - 1) signal)) =
      (.ok (), (s.noting [.scanningForId]).withStop (.after (k - 1) signal)) := rfl
  refine ⟨s1.stopped signal, ?_, (Pass.swept_of_visitAll Survey.meets hvisit).quiet.1⟩
  rw [scanId, run_bind_ok hreport, run_bind_error hpass]

/-- The first id is settled the same way, whatever is answered later, and nothing changes meanwhile. -/
theorem startId_run (hs : s.stop = .never) (hf : s.disk.Finds files placeOf)
    (hsearch : ∀ p ∈ files, s.disk.Searchable job.query p) :
    Asks (job.startId files) (job.scanQuestions files) s ∧
      ∃ first s', (job.startId files).run.run s = (.ok first, s') ∧ s'.disk = s.disk ∧ s'.stop = .never ∧
        first.isSome = job.inserts files s.disk := by
  cases hcached : job.isCached with
  | true =>
    obtain ⟨id, _, hrun⟩ := startId_cached hcached
    refine ⟨fun n signal => ?_, some (id : Int), _, hrun files s, rfl, hs, by simp [inserts, hcached]⟩
    rw [scanQuestions, if_pos hcached, hrun, hrun]
    rfl
  | false =>
    rw [startId_scanned hcached, scanQuestions, hcached, if_neg Bool.false_ne_true]
    refine ⟨scanId_asks hs hf hsearch, ?_⟩
    obtain ⟨outcome, s1, hrun⟩ := (Pass.stopsCleanly (s := s.noting [.scanningForId]) Survey.meets Survey.steady
      (Pass.contained_quietly Survey.ofEntries) hs hf hsearch ()).returns
    have hreport := run_lift_report .scanningForId s
    have hstop : s1.stop = .never := by
      have hnever :=
        Pass.stop_run (s := s.noting [.scanningForId]) Survey.steady job.tools.parse job.settings () files hs
      rwa [hrun] at hnever
    obtain ⟨hdisk, hresult⟩ := survey_run hrun
    have hresult := hresult outcome rfl
    rw [Session.noting_disk] at hdisk hresult
    rw [scanId, run_bind_ok hreport, run_bind_ok hrun, inserts, ← hresult]
    by_cases hmissing : outcome.result.missing = 0
    · exact ⟨none, s1.noting [.nothingMissing], by rw [if_pos hmissing]; rfl, hdisk, hstop, by simp [hcached, hmissing]⟩
    · exact ⟨some outcome.result.nextId, _, by rw [if_neg hmissing]; rfl, hdisk, hstop, by simp [hmissing]⟩

theorem insertAmid_asks (htidy : devices.Tidy) (hs : s.stop = .never) (hf : s.disk.Finds files placeOf)
    (hsearch : ∀ p ∈ files, s.disk.Searchable job.query p) (start : Int) :
    Asks (job.insertAmid .none devices start files) (Pass.questions job.settings files) s := by
  obtain ⟨t, s', hall⟩ :=
    Pass.visitAll_ok (Insertion.meets devices) (Insertion.contained htidy) hf hsearch ⟨some ⟨start⟩, [], []⟩
  obtain ⟨outcome, s1, hrun⟩ := (Pass.stopsCleanly (Insertion.meets devices) (Insertion.steady devices)
    (Insertion.contained htidy) hs hf hsearch (some ⟨start⟩)).returns
  intro n signal
  have hpass := Pass.asks_run (Insertion.steady devices) hs hall n signal
  rw [hrun, ← insertion_none] at hpass
  rw [← insertion_none] at hrun
  rw [insertAmid_kept hpass (by simp), insertAmid_kept hrun (by simp)]

theorem finish_asks (htidy : devices.Tidy) (hs : s.stop = .never) (hf : s.disk.Finds files placeOf)
    (hsearch : ∀ p ∈ files, s.disk.Searchable job.query p) (start : Int) :
    Asks (job.finish .none devices files (some start)) (Pass.questions job.settings files) s := by
  obtain ⟨outcome, s1, hrun⟩ := (Pass.stopsCleanly (s := s.noting [.nextId start]) (Insertion.meets devices)
    (Insertion.steady devices) (Insertion.contained htidy) hs hf hsearch (some ⟨start⟩)).returns
  have hreport := run_lift_report (.nextId start) s
  refine ((Steady.report _).asks s).bind hreport
    ((insertAmid_asks (s := s.noting [.nextId start]) htidy hs hf hsearch start).bind (insertAmid_kept hrun (by simp))
      (Steady.asks ?_ s1) rfl) (by omega)
  refine .bind (.report _) fun _ => ?_
  dsimp only
  split
  · exact .bind (Lock.write_steady _ _) fun _ => .pure _
  · exact .pure _

/-- Visits that stop early leave the files they have been to as all visits would, and the others as they were. -/
theorem visited_places (htidy : devices.Tidy) (hf : s.disk.Finds files placeOf) {n : Nat} {q : Query} {s1 s2 : Session}
    {t t1 t2 : Tally (Option Counter) Insertion}
    (h1 : ((Insertion.pass devices).visitAll q t (files.take n)).run.run s = (.ok t1, s1))
    (h2 : ((Insertion.pass devices).visitAll q t files).run.run s = (.ok t2, s2)) :
    s.disk.Like s1.disk ∧ s.disk.Like s2.disk ∧
      (∀ p ∈ files.take n, s1.disk.tree.get? (placeOf p) = s2.disk.tree.get? (placeOf p)) ∧
      ∀ p ∈ files.drop n, s1.disk.tree.get? (placeOf p) = s.disk.tree.get? (placeOf p) := by
  have hfront := (Pass.swept_of_visitAll (Insertion.meets devices) h1).sameBeside (Insertion.contained htidy)
    (hf.sublist (List.take_sublist n files))
  have hrest : ((Insertion.pass devices).visitAll q t1 (files.drop n)).run.run s1 = (.ok t2, s2) := by
    rw [← Pass.visitAll_append h1, List.take_append_drop, h2]
  have hback := (Pass.swept_of_visitAll (Insertion.meets devices) hrest).sameBeside (Insertion.contained htidy)
    (hfront.finds (hf.sublist (List.drop_sublist n files)))
  have hdistinct := hf.distinct
  rw [← List.take_append_drop n files, List.map_append, List.nodup_append] at hdistinct
  refine ⟨hfront.like, hfront.like.trans hback.like, fun p hp => ?_, fun p hp => ?_⟩
  · refine (hback.beside _ fun hmem => ?_).symm
    exact hdistinct.2.2 _ (List.mem_map_of_mem hp) _ hmem rfl
  · refine hfront.beside _ fun hmem => ?_
    exact hdistinct.2.2 _ hmem _ (List.mem_map_of_mem hp) rfl

/-- Whatever is done with a lock file that is none of the files, they stay as they are. -/
theorem places_of_updated (hf : s.disk.Finds files placeOf)
    (hlock : ∀ p ∈ files, ¬ s.disk.SameFile (Lock.path job.directory) p) {d d' : Disk} (hlike : s.disk.Like d)
    (hupdated : Lock.Updated job.directory d d') {p : Path} (hp : p ∈ files) :
    d'.tree.get? (placeOf p) = d.tree.get? (placeOf p) := by
  obtain ⟨data, mode, hget, _⟩ := ((hf.plain p hp).like hlike).get?
  refine hupdated.get? hget fun item hl => hlock p hp ?_
  obtain ⟨item', hl'⟩ := Disk.locate_of_like hlike hl
  obtain ⟨data', mode', hall⟩ := hf.plain p hp
  exact ⟨placeOf p, item', _, hl', hall true⟩

theorem read_of_removed {there : Bool} (hthere : s.disk.isFile (Lock.path job.directory) = .ok there)
    {s1 s2 : Session} (hlike : s.disk.Like s1.disk) (hnull : (Lock.path job.directory).hasNull = false)
    (h : (Lock.remove job.directory).run.run s1 = (.ok (), s2)) :
    ((Lock.read job.directory).run.run s2).1 = .ok none := by
  cases hr : s1.disk.remove (Lock.path job.directory) with
  | ok d =>
    rw [Lock.remove_of_ok hr] at h
    obtain rfl := (Prod.mk.inj h).2
    rw [Lock.read_of_no_file (s := { s1 with disk := d }) (Disk.isFile_of_remove hr)]
  | error e =>
    obtain ⟨ns, hrun⟩ := Lock.remove_of_error hr (Disk.remove_not_refused hnull hr)
    rw [hrun] at h
    obtain rfl := (Prod.mk.inj h).2
    rw [← Disk.isFile_like hlike] at hthere
    cases there with
    | true => exact absurd hthere (Disk.isFile_of_remove_error hr)
    | false => rw [Lock.read_of_no_file (s := s1.noting ns) hthere]

/-- Between two disks: the first `n` files are as the whole run leaves them, the others as they were. Files are known
by their places, as a path may lead through the lock file. -/
structure Halfway (files : List Path) (n : Nat) (before after whole : Disk) : Prop where
  done : ∀ p ∈ files.take n, ∀ place item, before.locate true p = .ok (.occupied place item) →
    after.tree.get? place = whole.tree.get? place
  untouched : ∀ p ∈ files.drop n, ∀ place item, before.locate true p = .ok (.occupied place item) →
    after.tree.get? place = before.tree.get? place

/-- The files are halfway when the lock file is seen to, and so they stay. -/
theorem halfway_of_updated (htidy : devices.Tidy) (hf : s.disk.Finds files placeOf)
    (hlock : ∀ p ∈ files, ¬ s.disk.SameFile (Lock.path job.directory) p) {n : Nat} {q : Query} {s1 s2 : Session}
    {t t1 t2 : Tally (Option Counter) Insertion}
    (h1 : ((Insertion.pass devices).visitAll q t (files.take n)).run.run s = (.ok t1, s1))
    (h2 : ((Insertion.pass devices).visitAll q t files).run.run s = (.ok t2, s2)) {after whole : Disk}
    (hafter : Lock.Updated job.directory s1.disk after) (hwhole : Lock.Updated job.directory s2.disk whole) :
    Halfway files n s.disk after whole := by
  obtain ⟨hlike1, hlike2, hdone, huntouched⟩ := visited_places htidy hf h1 h2
  refine ⟨fun p hp place item hl => ?_, fun p hp place item hl => ?_⟩
  · have hmem := List.mem_of_mem_take hp
    rw [hf.place_eq hmem hl, places_of_updated hf hlock hlike1 hafter hmem,
      places_of_updated hf hlock hlike2 hwhole hmem, hdone p hp]
  · have hmem := List.mem_of_mem_drop hp
    rw [hf.place_eq hmem hl, places_of_updated hf hlock hlike1 hafter hmem, huntouched p hp]

/-- A cancelled insertion takes the lock file away, if there is to be one. -/
theorem insertAmid_stopped {start : Int} (hnull : (Lock.path job.directory).hasNull = false)
    (h : (job.insertion .none devices start files).run.run s = (.error .cancelled, s')) :
    ∃ s2, (job.insertAmid .none devices start files).run.run s = (.error .cancelled, s2) ∧
      Lock.Updated job.directory s'.disk s2.disk ∧
      (job.settings.keepsLock = true → (Lock.remove job.directory).run.run s' = (.ok (), s2)) := by
  rw [insertAmid_cancelled h]
  cases hkeep : job.settings.keepsLock with
  | false => exact ⟨s', rfl, .kept, fun h => by cases h⟩
  | true =>
    obtain ⟨s2, hremove⟩ : ∃ s2, (Lock.remove job.directory).run.run s' = (.ok (), s2) := by
      cases hr : s'.disk.remove (Lock.path job.directory) with
      | ok d => exact ⟨_, Lock.remove_of_ok hr⟩
      | error e =>
        obtain ⟨ns, hrun⟩ := Lock.remove_of_error hr (Disk.remove_not_refused hnull hr)
        exact ⟨_, hrun⟩
    simp only [if_true]
    exact ⟨s2, by rw [run_bind_ok hremove]; rfl, Lock.remove_updated hremove, fun _ => hremove⟩

/-- What the last phase leaves when it is told to stop. -/
theorem finish_cancelled (htidy : devices.Tidy) (hs : s.stop = .never) (hf : s.disk.Finds files placeOf)
    (hsearch : ∀ p ∈ files, s.disk.Searchable job.query p)
    (hlock : ∀ p ∈ files, ¬ s.disk.SameFile (Lock.path job.directory) p)
    (hnull : (Lock.path job.directory).hasNull = false)
    (hread : job.settings.keepsLock = true → ∃ there, s.disk.isFile (Lock.path job.directory) = .ok there) (start : Int)
    {k : Nat} (signal : Option Int) (hk : 1 ≤ k) (hle : k ≤ Pass.questions job.settings files) :
    ∃ s', (job.finish .none devices files (some start)).run.run (s.withStop (.after (k - 1) signal)) =
        (.error .cancelled, s') ∧
      Halfway files (min files.length (job.settings.workers * (k / 2))) s.disk s'.disk
        ((job.finish .none devices files (some start)).run.run s).2.disk ∧
      (job.settings.keepsLock = true → ((Lock.read job.directory).run.run s').1 = .ok none) := by
  have hclean := Pass.stopsCleanly (s := s.noting [.nextId start]) (Insertion.meets devices) (Insertion.steady devices)
    (Insertion.contained htidy) hs hf hsearch (some ⟨start⟩)
  obtain ⟨t1, s1, hfront, hpass⟩ := hclean.early k signal hk hle
  obtain ⟨s2, hins, hafter, hremove⟩ := insertAmid_stopped hnull hpass
  cases hfinish : (job.finish .none devices files (some start)).run.run s with
  | mk r s0 =>
    -- the whole run: its pass returns, so it has been through all files
    obtain ⟨r3, s3, hrun, hwhole, _⟩ := finish_run hfinish
    obtain ⟨ran, t4, s4, _, hall, hdisk, hr3⟩ :=
      Pass.run_prefix (Insertion.meets devices) (Insertion.steady devices) hrun
    obtain ⟨outcome, s5, hreturns⟩ := hclean.returns
    rw [insertion_none, hreturns] at hrun
    obtain ⟨rfl, rfl⟩ := Prod.mk.inj hrun
    obtain rfl : ran = files := by
      rcases hr3 with ⟨_, hran⟩ | hr3 | ⟨f, hr3⟩
      · exact hran
      · cases hr3
      · cases hr3
    rw [hdisk] at hwhole
    refine ⟨s2, ?_, halfway_of_updated (s := s.noting [.nextId start]) htidy hf hlock hfront hall hafter hwhole,
      fun hkeep => ?_⟩
    · have hreport : (liftM (Session.report (.nextId start)) : Run Unit).run.run
          (s.withStop (.after (k - 1) signal)) =
          (.ok (), (s.noting [.nextId start]).withStop (.after (k - 1) signal)) := rfl
      rw [finish, run_bind_ok hreport, run_bind_error hins]
    · obtain ⟨there, hthere⟩ := hread hkeep
      have hlike : s.disk.Like (s1.stopped signal).disk := by
        rw [Session.stopped_disk]
        exact (visited_places (s := s.noting [.nextId start]) htidy hf hfront hall).1
      exact read_of_removed hthere hlike hnull (hremove hkeep)

/-- How a run goes that is told to stop at its `k`-th question, against the same run that is never told. -/
structure StopsCleanly (job : Job) (devices : Devices) (files : List Path) (s : Session) : Prop where
  scan : ∀ k signal, 1 ≤ k → k ≤ job.scanQuestions files →
    ∃ s', (job.numberOn devices).run.run (s.withStop (.after (k - 1) signal)) = (.error .cancelled, s') ∧
      s'.disk = s.disk
  insertion : job.inserts files s.disk = true → ∀ k signal, job.scanQuestions files < k →
    k ≤ job.allQuestions files s.disk →
    ∃ s', (job.numberOn devices).run.run (s.withStop (.after (k - 1) signal)) = (.error .cancelled, s') ∧
      Halfway files (min files.length (job.settings.workers * ((k - job.scanQuestions files) / 2))) s.disk s'.disk
        ((job.numberOn devices).run.run s).2.disk ∧
      (job.settings.keepsLock = true → ((Lock.read job.directory).run.run s').1 = .ok none)
  late : ∀ k signal, job.allQuestions files s.disk < k →
    ((job.numberOn devices).run.run (s.withStop (.after (k - 1) signal))).1 = ((job.numberOn devices).run.run s).1 ∧
      ((job.numberOn devices).run.run (s.withStop (.after (k - 1) signal))).2.disk =
        ((job.numberOn devices).run.run s).2.disk

theorem stopsCleanly (htidy : devices.Tidy) (hs : s.stop = .never) (hf : s.disk.Finds files placeOf)
    (hfiles : job.search.files s.disk = .ok files) (hsome : files ≠ [])
    (hsearch : ∀ p ∈ files, s.disk.Searchable job.query p)
    (hlock : ∀ p ∈ files, ¬ s.disk.SameFile (Lock.path job.directory) p)
    (hnull : (Lock.path job.directory).hasNull = false)
    (hread : job.settings.keepsLock = true → ∃ there, s.disk.isFile (Lock.path job.directory) = .ok there) :
    job.StopsCleanly devices files s := by
  have hsources (plan : StopPlan) : job.sources.run.run (s.withStop plan) =
      (.ok files, (s.noting [.foundFiles files.length]).withStop plan) :=
    sources_of_files (s := s.withStop plan) hfiles hsome
  have hsources' := sources_of_files hfiles hsome
  obtain ⟨hasks, first, s1, hfirst, hdisk, hstop, hinserts⟩ :=
    startId_run (s := s.noting [.foundFiles files.length]) hs hf hsearch
  rw [Session.noting_disk] at hdisk hinserts
  have hnumber : (job.numberOn devices).run.run s = (job.finish .none devices files first).run.run s1 := by
    rw [numberOn_eq, run_bind_ok hsources', run_bind_ok hfirst]
  have hstopped (n : Nat) (signal : Option Int) :
      (job.numberOn devices).run.run (s.withStop (.after (n + job.scanQuestions files) signal)) =
        (job.finish .none devices files first).run.run (s1.withStop (.after n signal)) := by
    have hrun := hasks n signal
    rw [hfirst] at hrun
    rw [numberOn_eq, run_bind_ok (hsources _), run_bind_ok hrun]
  refine ⟨fun k signal hk hle => ?_, fun hins k signal hlt hle => ?_, fun k signal hlt => ?_⟩
  · cases hcached : job.isCached with
    | true =>
      rw [scanQuestions, hcached] at hle
      simp at hle
      omega
    | false =>
      rw [scanQuestions, hcached, if_neg Bool.false_ne_true] at hle
      obtain ⟨s2, hscan, hdisk2⟩ :=
        scanId_cancelled (s := s.noting [.foundFiles files.length]) hs hf hsearch signal hk hle
      refine ⟨s2, ?_, hdisk2⟩
      rw [numberOn_eq, run_bind_ok (hsources _), startId_scanned hcached, run_bind_error hscan]
  · obtain ⟨start, rfl⟩ := Option.isSome_iff_exists.mp (hinserts.trans hins)
    rw [allQuestions, hins, if_pos rfl] at hle
    have hcancelled := finish_cancelled (s := s1) htidy hstop (hdisk ▸ hf) (hdisk ▸ hsearch) (hdisk ▸ hlock) hnull
      (hdisk ▸ hread) start (k := k - job.scanQuestions files) signal (by omega) (by omega)
    rw [hdisk] at hcancelled
    rwa [hnumber, show k - 1 = k - job.scanQuestions files - 1 + job.scanQuestions files by omega, hstopped]
  · rw [allQuestions] at hlt
    rw [hnumber, show k - 1 = k - 1 - job.scanQuestions files + job.scanQuestions files by omega, hstopped]
    cases first with
    | none => exact ⟨rfl, rfl⟩
    | some start =>
      rw [← hinserts, Option.isSome_some, if_pos rfl] at hlt
      have hfinish := finish_asks (s := s1) htidy hstop (hdisk ▸ hf) (hdisk ▸ hsearch) start
        (k - 1 - job.scanQuestions files - Pass.questions job.settings files) signal
      rw [show k - 1 - job.scanQuestions files - Pass.questions job.settings files +
        Pass.questions job.settings files = k - 1 - job.scanQuestions files by omega] at hfinish
      rw [hfinish]
      exact ⟨rfl, rfl⟩

/-- A source that has one call, and no lock file yet. -/
def unlocked : Session := .small "info!(\"m\");" [] .never

end Job

end LogRef
