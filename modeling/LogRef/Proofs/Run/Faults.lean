import LogRef.CommandLine.Program
import LogRef.Proofs.Discovery.Faults
import LogRef.Proofs.Reference.Overlong
import LogRef.Proofs.Run.Phases

/-!
# Runs that break off

A run ends with a result or with a failure that its command reports, unless something breaks the search for source
files or one of these has an overlong id. Then it ends in a fault. Only a run that begins with the id of the lock file
can have changed a file by then. Neither the interpreter's limit on recursion nor refused permissions are part of the
model.
-/
namespace LogRef

open Run

/-- The failures that a command turns into a result of its own. -/
def Failure.IsReported : Failure → Prop
  | .discovery _ | .noFiles _ | .cancelled => True
  | .settings _ | .fault _ => False

namespace Run

variable {α β : Type} {x : Run α} {k : α → Run β} {s s' : Session}

/-- A run that fails, if at all, with a failure that is reported. -/
def Orderly (x : Run α) (s : Session) : Prop := ∀ e, (x.run.run s).1 = .error e → e.IsReported

/-- A run that ends in a fault. -/
def Faults (x : Run α) (s : Session) : Prop := ∃ f, (x.run.run s).1 = .error (.fault f)

theorem Orderly.not_faults (h : Orderly x s) : ¬Faults x s := fun ⟨_, hf⟩ => h _ hf

namespace Orderly

theorem ok {a : α} (h : (x.run.run s).1 = .ok a) : Orderly x s := fun e he => by rw [h] at he; cases he

theorem pure (a : α) : Orderly (Pure.pure a : Run α) s := .ok rfl

theorem throw {e : Failure} (h : e.IsReported) : Orderly (MonadExcept.throw e : Run α) s := by
  intro e' he
  cases he
  exact h

theorem bind (hx : Orderly x s) (hk : ∀ a m, x.run.run s = (.ok a, m) → Orderly (k a) m) :
    Orderly (x >>= k) s := by
  intro e he
  cases hrun : x.run.run s with
  | mk result m =>
    cases result with
    | error e' =>
      rw [run_bind_error hrun] at he
      cases he
      exact hx _ (by rw [hrun])
    | ok a =>
      rw [run_bind_ok hrun] at he
      exact hk a m hrun e he

end Orderly

namespace Faults

theorem left (h : Faults x s) : Faults (x >>= k) s := by
  obtain ⟨f, hf⟩ := h
  cases hrun : x.run.run s with
  | mk result m =>
    rw [hrun] at hf
    obtain rfl : result = .error (.fault f) := hf
    exact ⟨f, by rw [run_bind_error hrun]⟩

theorem right {a : α} (hx : x.run.run s = (.ok a, s')) (h : Faults (k a) s') : Faults (x >>= k) s := by
  unfold Faults
  rwa [run_bind_ok hx]

end Faults

end Run

/-! ## Passes -/

namespace Pass

variable {σ α β : Type} {pass : Pass σ α β} {step : Step σ α} {total : List α → β} {q : Query} {s s' : Session}
  {files : List Path} {parse : Bytes → Node} {settings : Settings} {start : σ} {placeOf : Path → Place}

theorem heedStop_orderly (s : Session) : Orderly Session.heedStop s := by
  intro e he
  rcases heedStop_cases s with ⟨s', hstop, _⟩ | ⟨plan, hgo⟩
  · rw [hstop] at he
    cases he
    trivial
  · rw [hgo] at he
    cases he

theorem disk_of_heedStop {u : Unit} (h : Session.heedStop.run.run s = (.ok u, s')) : s'.disk = s.disk := by
  rcases heedStop_cases s with ⟨s1, hstop, _⟩ | ⟨plan, hgo⟩
  · rw [hstop] at h
    cases h
  · rw [hgo] at h
    cases h
    rfl

/-- Batches of files that can all be searched are visited without a fault. -/
theorem visitBatches_orderly (hm : pass.Meets step total) (hc : Contained step) {batches : List (List Path)}
    (hf : s.disk.Finds batches.flatten placeOf)
    (hsearch : ∀ p ∈ batches.flatten, s.disk.Searchable q p) (t : Tally σ α) :
    Orderly (pass.visitBatches q t batches) s := by
  induction batches generalizing s t with
  | nil => exact .pure t
  | cons batch rest ih =>
    rw [List.flatten_cons] at hf hsearch
    refine .bind (heedStop_orderly s) fun _ s1 h1 => ?_
    rw [← disk_of_heedStop h1] at hf hsearch
    obtain ⟨t2, s2, h2⟩ := visitAll_ok hm hc (hf.sublist (List.sublist_append_left _ _))
      (fun p hp => hsearch p (List.mem_append_left _ hp)) t
    refine .bind (.ok (by rw [h2])) fun t' s2' h2' => ?_
    cases h2.symm.trans h2'
    refine .bind (heedStop_orderly s2) fun _ s3 h3 => ?_
    -- the files of this batch are none of those still to come
    have hsame := (swept_of_visitAll hm h2).sameBeside hc (hf.sublist (List.sublist_append_left _ _))
    have hlater := hf.sublist (List.sublist_append_right batch rest.flatten)
    have hother : ∀ p ∈ rest.flatten, placeOf p ∉ batch.map placeOf := by
      intro p hp hmem
      have hnodup := hf.distinct
      rw [List.map_append] at hnodup
      exact (List.nodup_append.mp hnodup).2.2 _ hmem _ (List.mem_map_of_mem hp) rfl
    rw [← disk_of_heedStop h3] at hsame
    refine ih (hsame.finds hlater) (fun p hp => ?_) t2
    rw [hsame.searchable_iff (hlater.plain p hp) (hother p hp)]
    exact hsearch p (List.mem_append_right _ hp)

/-- A pass over files that can all be searched has a result, unless it is told to stop. -/
theorem run_orderly (hm : pass.Meets step total) (hc : Contained step) (hf : s.disk.Finds files placeOf)
    (hsearch : ∀ p ∈ files, s.disk.Searchable (query parse settings) p) :
    Orderly (pass.run parse settings start files) s := by
  rw [← flatten_inBatches settings.workers_pos files] at hf hsearch
  refine .bind (visitBatches_orderly hm hc hf hsearch _) fun t s1 _ => ?_
  refine .bind (heedStop_orderly s1) fun _ s2 _ => ?_
  obtain ⟨ns, hconclude⟩ := hm.conclude t.results s2
  exact .bind (.ok (by rw [hconclude])) fun _ _ _ => .pure _

/-- A pass over files of which one cannot be searched breaks off. -/
theorem run_faults (hm : pass.Meets step total) (hp : pass.Steady) (hc : Contained step) (hs : s.stop = .never)
    (hf : s.disk.Finds files placeOf) {p : Path} (hmem : p ∈ files)
    (hunsearchable : ¬s.disk.Searchable (query parse settings) p) :
    Faults (pass.run parse settings start files) s := by
  unfold Faults
  rw [run_never hp hs, whole]
  cases hv : (pass.visitAll (query parse settings) ⟨start, [], []⟩ files).run.run s with
  | mk result s1 =>
    cases result with
    | error f =>
      obtain ⟨_, _, _, _, _, _, g, rfl⟩ := visitAll_prefix hm hv
      exact ⟨g, by rw [run_bind_error hv]⟩
    | ok t => exact absurd ((swept_of_visitAll hm hv).searchable hc hf p hmem) hunsearchable

end Pass

/-! ## Commands -/

namespace Disk

variable {d : Disk} {q : Query} {p : Path} {contents : Bytes}

/-- A file can be searched unless it has an overlong id. -/
theorem not_searchable_iff (hparse : ParsesInside q.parse) (h : d.read p = .ok contents) :
    ¬d.Searchable q p ↔ q.Overlong contents := by
  rw [Searchable, canRead_of_read h, ← @findEntries_error q contents [] hparse, found, h]
  dsimp only
  cases ((findEntries q contents).run.run []).1 with
  | ok entries =>
    constructor
    · exact fun h => absurd (fun _ => rfl) h
    · rintro ⟨_, h⟩
      cases h
  | error f => exact ⟨fun _ => ⟨f, rfl⟩, fun _ h => by cases h rfl⟩

theorem searchable_of_not_overlong (hparse : ParsesInside q.parse)
    (h : ∀ contents, d.read p = .ok contents → ¬q.Overlong contents) : d.Searchable q p := by
  by_contra hnot
  cases hr : d.read p with
  | ok contents => exact h contents hr ((not_searchable_iff hparse hr).mp hnot)
  | error e => exact hnot fun hread => by rw [canRead, hr] at hread; cases hread

end Disk

namespace Job

variable {devices : Devices} {job : Job} {files : List Path} {s s' : Session} {placeOf : Path → Place}

/-- What breaks a run off: something breaks the search for its files, or one of them has an overlong id. -/
inductive Breaks (job : Job) (d : Disk) : Prop
  | search (h : job.search.Breaks d)
  | source {files : List Path} {p : Path} {contents : Bytes} (found : job.search.files d = .ok files)
    (mem : p ∈ files) (read : d.read p = .ok contents) (overlong : job.query.Overlong contents)

theorem searchable_of_not_breaks (hparse : ParsesInside job.tools.parse)
    (hfiles : job.search.files s.disk = .ok files) (h : ¬job.Breaks s.disk) :
    ∀ p ∈ files, s.disk.Searchable job.query p :=
  fun _ hp => Disk.searchable_of_not_overlong hparse fun _ hread hlong => h (.source hfiles hp hread hlong)

theorem sources_error {e : Failure} (h : job.sources.run.run s = (.error e, s')) :
    e.IsReported ∨ ∃ f, job.search.files s.disk = .error (.fault f) := by
  unfold sources at h
  rw [run_get_bind] at h
  split at h
  · next f hfiles => exact .inr ⟨f, hfiles⟩
  · next failure hfault _ =>
    cases h
    exact .inl trivial
  · cases h
    exact .inl trivial
  · cases h

theorem sources_orderly (hreader : job.tools.reader = Ignore.reader) (hd : s.disk.WellFormed)
    (h : ¬job.Breaks s.disk) : Orderly job.sources s := by
  intro e he
  cases hrun : job.sources.run.run s with
  | mk result s1 =>
    rw [hrun] at he
    obtain rfl : result = .error e := he
    obtain hreported | ⟨f, hf⟩ := sources_error hrun
    · exact hreported
    · exact absurd (.search (Search.breaks_of_files hreader hd hf)) h

theorem sources_faults {f : Fault} (h : job.search.files s.disk = .error (.fault f)) : Faults job.sources s := by
  refine ⟨f, ?_⟩
  unfold sources
  rw [run_get_bind, h]
  rfl

theorem count_orderly (hreader : job.tools.reader = Ignore.reader) (hparse : ParsesInside job.tools.parse)
    (hd : s.disk.WellFormed) (h : ¬job.Breaks s.disk) : Orderly job.count s := by
  refine .bind (sources_orderly hreader hd h) fun files s1 h1 => ?_
  obtain ⟨hfiles, _, rfl⟩ := sources_ok h1
  obtain ⟨placeOf, hf⟩ := Search.finds_of_files hd.tree hfiles
  have hsearch := searchable_of_not_breaks hparse hfiles h
  refine .bind (Pass.run_orderly Audit.meets (Pass.contained_quietly _) hf hsearch) fun outcome s2 _ => ?_
  split
  · exact .ok rfl
  · exact .pure _

/-- The first id is settled without a fault where the files can be searched. -/
theorem startId_orderly (hf : s.disk.Finds files placeOf)
    (hsearch : ∀ p ∈ files, s.disk.Searchable job.query p) : Orderly (job.startId files) s := by
  cases hcached : job.isCached with
  | true =>
    obtain ⟨id, _, hrun⟩ := startId_cached hcached
    exact .ok (by rw [hrun])
  | false =>
    rw [startId_scanned hcached]
    have hreport := run_lift_report .scanningForId s
    refine .bind (.ok (by rw [hreport])) fun _ s1 h1 => ?_
    cases hreport.symm.trans h1
    refine .bind (Pass.run_orderly Survey.meets (Pass.contained_quietly _) hf hsearch) fun outcome s2 _ => ?_
    split
    · exact .ok rfl
    · exact .pure _

theorem disk_of_startId {r : Except Failure (Option Int)} (h : (job.startId files).run.run s = (r, s')) :
    s'.disk = s.disk := by
  cases hcached : job.isCached with
  | true =>
    obtain ⟨id, _, hrun⟩ := startId_cached hcached
    rw [hrun] at h
    cases h
    rfl
  | false =>
    rw [startId_scanned hcached] at h
    exact (scanId_run h).1

theorem remove_orderly (hlock : (Lock.path job.directory).hasNull = false) (s : Session) :
    Orderly (Lock.remove job.directory) s := by
  cases hr : s.disk.remove (Lock.path job.directory) with
  | ok d => exact .ok (by rw [Lock.remove_of_ok hr])
  | error e =>
    obtain ⟨ns, hrun⟩ := Lock.remove_of_error hr (Disk.remove_not_refused hlock hr)
    exact .ok (by rw [hrun])

/-- Ids are inserted without a fault where the files can be searched. -/
theorem insertAmid_orderly (htidy : devices.Tidy) (hlock : (Lock.path job.directory).hasNull = false)
    (hf : s.disk.Finds files placeOf) (hsearch : ∀ p ∈ files, s.disk.Searchable job.query p) (start : Int) :
    Orderly (job.insertAmid .none devices start files) s := by
  have hpass : Orderly (job.insertion .none devices start files) s :=
    Pass.run_orderly (Insertion.meets devices) (Insertion.contained htidy) hf hsearch
  intro e he
  cases hrun : (job.insertion .none devices start files).run.run s with
  | mk result s1 =>
    by_cases hcancelled : result = .error .cancelled
    · subst hcancelled
      have hremoved : Orderly (do
          if job.settings.keepsLock then Lock.remove job.directory
          throw .cancelled : Run (Outcome (Option Counter) Insertion)) s1 := by
        split
        · exact .bind (remove_orderly hlock s1) fun _ _ _ => .throw trivial
        · exact .throw trivial
      rw [insertAmid_cancelled hrun] at he
      exact hremoved e he
    · rw [insertAmid_kept hrun hcancelled] at he
      exact hpass e (by rw [hrun]; exact he)

theorem finish_orderly (htidy : devices.Tidy) (hlock : (Lock.path job.directory).hasNull = false)
    (hf : s.disk.Finds files placeOf) (hsearch : ∀ p ∈ files, s.disk.Searchable job.query p) (first : Option Int) :
    Orderly (job.finish .none devices files first) s := by
  cases first with
  | none => exact .pure _
  | some start =>
    have hreport := run_lift_report (.nextId start) s
    refine .bind (.ok (by rw [hreport])) fun _ s1 h1 => ?_
    cases hreport.symm.trans h1
    refine .bind (insertAmid_orderly (s := s.noting _) htidy hlock hf hsearch start) fun outcome s2 _ => ?_
    refine .bind (.ok rfl) fun _ s3 _ => ?_
    split
    · obtain ⟨b, s4, hwrite⟩ := Lock.write_ok hlock ((outcome.state.map Counter.next).getD start) s3
      exact .bind (.ok (by rw [hwrite])) fun _ _ _ => .pure _
    · exact .pure _

theorem numberOn_orderly (hreader : job.tools.reader = Ignore.reader) (hparse : ParsesInside job.tools.parse)
    (htidy : devices.Tidy) (hd : s.disk.WellFormed) (hlock : (Lock.path job.directory).hasNull = false)
    (h : ¬job.Breaks s.disk) : Orderly (job.numberOn devices) s := by
  rw [numberOn_eq]
  refine .bind (sources_orderly hreader hd h) fun files s1 h1 => ?_
  obtain ⟨hfiles, _, rfl⟩ := sources_ok h1
  obtain ⟨placeOf, hf⟩ := Search.finds_of_files hd.tree hfiles
  have hsearch := searchable_of_not_breaks hparse hfiles h
  refine .bind (startId_orderly hf hsearch) fun first s2 h2 => ?_
  have hdisk : s2.disk = s.disk := (disk_of_startId h2).trans rfl
  exact finish_orderly htidy hlock (hdisk ▸ hf) (hdisk ▸ hsearch) first

theorem work_orderly (hreader : job.tools.reader = Ignore.reader) (hparse : ParsesInside job.tools.parse)
    (hd : s.disk.WellFormed) (hlock : (Lock.path job.directory).hasNull = false) (h : ¬job.Breaks s.disk) :
    Orderly (CommandLine.work job) s := by
  unfold CommandLine.work
  split
  · exact .bind (count_orderly hreader hparse hd h) fun _ _ _ => .pure _
  · exact .bind (numberOn_orderly hreader hparse Devices.tidy_sound hd hlock h) fun _ _ _ => .pure _

theorem finish_faults {start : Int}
    (h : Faults (job.insertion .none devices start files) (s.noting [.nextId start])) :
    Faults (job.finish .none devices files (some start)) s := by
  obtain ⟨f, hf⟩ := h
  have hreport := run_lift_report (.nextId start) s
  refine .right hreport (.left ⟨f, ?_⟩)
  cases hrun : (job.insertion .none devices start files).run.run (s.noting [.nextId start]) with
  | mk result s1 =>
    rw [hrun] at hf
    obtain rfl : result = .error (.fault f) := hf
    rw [insertAmid_kept hrun (by simp)]

theorem scanId_faults (h : Faults (Survey.pass.run job.tools.parse job.settings () files) (s.noting [.scanningForId])) :
    Faults (job.scanId files) s := by
  have hreport := run_lift_report .scanningForId s
  exact .right hreport (.left h)

/-- What breaks a run off ends it in a fault, unless it is told to stop or meets a path that is too long. -/
theorem faults_of_breaks (hreader : job.tools.reader = Ignore.reader) (hparse : ParsesInside job.tools.parse)
    (htidy : devices.Tidy) (hd : s.disk.WellFormed) (hs : s.stop = .never) (hreach : job.search.InReach s.disk)
    (h : job.Breaks s.disk) : Faults job.count s ∧ Faults (job.numberOn devices) s := by
  rw [numberOn_eq]
  cases h with
  | search hsearch =>
    obtain ⟨f, hfiles⟩ := Search.files_of_breaks hreader hd hreach hsearch
    exact ⟨(sources_faults hfiles).left, (sources_faults hfiles).left⟩
  | @source files p contents hfiles hmem hread hlong =>
    obtain ⟨placeOf, hf⟩ := Search.finds_of_files hd.tree hfiles
    have hsources := sources_of_files hfiles (List.ne_nil_of_mem hmem)
    have hnone := (Disk.not_searchable_iff hparse hread).mpr hlong
    refine ⟨.right hsources (.left ?_), .right hsources ?_⟩
    · exact Pass.run_faults Audit.meets Audit.steady (Pass.contained_quietly _) hs hf hmem hnone
    · cases hcached : job.isCached with
      | true =>
        obtain ⟨id, _, hrun⟩ := startId_cached hcached
        refine .right (hrun files _) (finish_faults ?_)
        exact Pass.run_faults (Insertion.meets devices) (Insertion.steady devices) (Insertion.contained htidy) hs hf
          hmem hnone
      | false =>
        rw [startId_scanned hcached]
        refine .left (scanId_faults ?_)
        exact Pass.run_faults Survey.meets Survey.steady (Pass.contained_quietly _) hs hf hmem hnone

/-- A run that surveys the files first breaks off before it changes any of them. -/
theorem unchanged_of_faults (htidy : devices.Tidy) (hd : s.disk.WellFormed)
    (hlock : (Lock.path job.directory).hasNull = false) (hcached : job.isCached = false)
    (h : Faults (job.numberOn devices) s) : ((job.numberOn devices).run.run s).2.disk = s.disk := by
  rw [numberOn_eq] at h ⊢
  cases hsources : job.sources.run.run s with
  | mk result s1 =>
    cases result with
    | error e =>
      rw [run_bind_error hsources]
      exact congrArg Session.disk (sources_failed hsources)
    | ok files =>
      obtain ⟨hfiles, _, rfl⟩ := sources_ok hsources
      obtain ⟨placeOf, hf⟩ := Search.finds_of_files hd.tree hfiles
      unfold Faults at h
      rw [run_bind_ok hsources, startId_scanned hcached] at h ⊢
      cases hscan : (job.scanId files).run.run (s.noting [.foundFiles files.length]) with
      | mk first s2 =>
        have hdisk : s2.disk = s.disk := (scanId_run hscan).1
        cases first with
        | error e =>
          rw [run_bind_error hscan]
          exact hdisk
        | ok first =>
          -- the survey has searched all files, so the insertion can too
          have hsearch : ∀ p ∈ files, s.disk.Searchable job.query p :=
            searchable_of_scan (s := s.noting _) hf hscan
          rw [run_bind_ok hscan] at h
          exact absurd h (finish_orderly htidy hlock (hdisk ▸ hf) (hdisk ▸ hsearch) first).not_faults

end Job

namespace CommandLine

/-- A run with settings that could be read ends with an exit code unless it breaks off. -/
theorem perform_code {homes : Homes} {o : Options} {path : Path} {job : Job} {s s1 : Session}
    (hpath : expandHome homes (Path.ofString o.config) = .ok path)
    (hjob : (Job.ofFile .standard path o.isCheck).run.run s = (.ok job, s1)) (h : Orderly (work job) s1) :
    ∃ n, ((perform homes o).run s).1 = .code n := by
  unfold perform
  rw [hpath]
  dsimp only
  rw [Work.run_bind, run_bind_ok hjob]
  cases hrun : (work job).run.run s1 with
  | mk result s2 =>
    cases result with
    | ok n => exact ⟨n, rfl⟩
    | error e =>
      have hreported := h e (by rw [hrun])
      cases e with
      | discovery e => exact ⟨runCode, rfl⟩
      | noFiles directory => exact ⟨runCode, rfl⟩
      | cancelled => exact ⟨runCode, rfl⟩
      | settings e => exact hreported.elim
      | fault f => exact hreported.elim

end CommandLine

namespace Job

variable {devices : Devices} {s : Session}

/-- A run ends with a result or with a failure that its command reports, whatever is in the files, unless something
breaks it off; and then it ends in a fault, if it is not told to stop, no path is too long and all ignore files can be
read. Where the first id comes from a survey, no file has changed by then. The parser may be any whose trees are inside
of their sources. Neither the interpreter's limit on recursion, which a deeply nested tree can reach, nor refused
permissions are part of the model. -/
theorem faults_only_when_broken (job : Job) (hreader : job.tools.reader = Ignore.reader)
    (hparse : ParsesInside job.tools.parse) (htidy : devices.Tidy) (hd : s.disk.WellFormed)
    (hlock : (Lock.path job.directory).hasNull = false) :
    (¬job.Breaks s.disk → Orderly job.count s ∧ Orderly (job.numberOn devices) s ∧
        ∀ homes o path s0, CommandLine.expandHome homes (Path.ofString o.config) = .ok path →
          (ofFile .standard path o.isCheck).run.run s0 = (.ok job, s) →
          ∃ n, ((CommandLine.perform homes o).run s0).1 = .code n) ∧
      (job.Breaks s.disk → s.stop = .never → job.search.InReach s.disk →
        Faults job.count s ∧ Faults (job.numberOn devices) s) ∧
      (Faults (job.numberOn devices) s → job.isCached = false →
        ((job.numberOn devices).run.run s).2.disk = s.disk) := by
  refine ⟨fun hsound =>
    ⟨count_orderly hreader hparse hd hsound, numberOn_orderly hreader hparse htidy hd hlock hsound, ?_⟩, ?_, ?_⟩
  · intro homes o path s0 hpath hjob
    exact CommandLine.perform_code hpath hjob (work_orderly hreader hparse hd hlock hsound)
  · intro hbreaks hs hreach
    exact faults_of_breaks hreader hparse htidy hd hs hreach hbreaks
  · intro hfaults hcached
    exact unchanged_of_faults htidy hd hlock hcached hfaults

/-- A source with a call that has no reference, and nothing wrong. -/
def soundSession : Session := Session.small "fn f() \x7b info!(\"m\"); \x7d" [] .never

/-- Nothing breaks off a run on a sound directory: its one path is short, and counting comes to an end. -/
theorem sound_not_broken :
    (soundSession.disk.WellFormed ∧ (Lock.path (small none).directory).hasNull = false) ∧
      ¬(small none).Breaks soundSession.disk ∧ Orderly (small none).number soundSession := by
  have hd : soundSession.disk.WellFormed := ⟨by decide, 0o755, rfl⟩
  have hlock : (Lock.path (small none).directory).hasNull = false := by decide
  obtain ⟨hsound, hbroken, _⟩ := faults_only_when_broken (small none) rfl Rust.inRange_parse Devices.tidy_sound hd hlock
  have hbelow : Search.below soundSession.disk (small none).search.directory = [Session.smallFile] := by
    decide +kernel
  have hreach : (small none).search.InReach soundSession.disk := by
    refine ⟨fun p hp follow => ?_, ?_, fun files hfiles file hfile => ?_⟩
    · rw [hbelow] at hp
      rw [List.mem_singleton.mp hp, Disk.TooLong]
      cases follow
      · decide
      · decide
    · rw [Disk.TooLong]
      decide
    · obtain rfl : [] = files := Except.ok.inj hfiles
      cases hfile
  have hcount : ((small none).count.run.run soundSession).1.toOption = some ⟨1⟩ := by decide +kernel
  have hnot : ¬(small none).Breaks soundSession.disk := by
    intro hbreaks
    obtain ⟨⟨f, hf⟩, _⟩ := hbroken hbreaks rfl hreach
    rw [hf] at hcount
    cases hcount
  exact ⟨⟨hd, hlock⟩, hnot, (hsound hnot).2.1⟩

/-- The same source beside an ignore file with a bare `!` in it. -/
def negatedSession : Session :=
  Session.small "fn f() \x7b info!(\"m\"); \x7d" [(["src", ".gitignore"], .file (Bytes.ofString "!\n") 0o644)] .never

/-- A `!` with nothing behind it breaks off both commands, whatever the sources are. -/
theorem bare_negation_faults :
    Faults (small none).count negatedSession ∧ Faults (small none).number negatedSession := by
  have hfiles : (small none).search.files negatedSession.disk = .error (.fault .emptyText) := rfl
  exact ⟨(sources_faults hfiles).left, (sources_faults hfiles).left⟩

end Job

end LogRef
