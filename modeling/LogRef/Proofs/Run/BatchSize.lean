import LogRef.Proofs.Run.Phases

/-!
# The size of a batch

Files are visited in batches only to ask in between whether to stop. A run that is never told to stop visits one
file after the other, in the order of their relative paths, and does not depend on where a batch ends.
-/
namespace LogRef

open Run

namespace Search

variable {s : Search} {d : Disk} {files : List Path}

/-- The text that files are sorted by. -/
def relativeText (directory p : Path) : String := joinSteps (p.steps.drop directory.steps.length)

theorem sortBelow_sorted (directory : Path) (paths : List Path) :
    (sortBelow directory paths).Pairwise fun p q => relativeText directory p ≤ relativeText directory q := by
  refine (List.pairwise_mergeSort ?_ ?_ paths).imp fun h => of_decide_eq_true h
  · intro p q r hpq hqr
    exact decide_eq_true (String.le_trans (of_decide_eq_true hpq) (of_decide_eq_true hqr))
  · intro p q
    rcases String.le_total (relativeText directory p) (relativeText directory q) with h | h
    · exact Bool.or_eq_true_iff.mpr (.inl (decide_eq_true h))
    · exact Bool.or_eq_true_iff.mpr (.inr (decide_eq_true h))

/-- Files are found in the order of their relative paths. -/
theorem files_sorted (h : s.files d = .ok files) :
    files.Pairwise fun p q => relativeText s.directory p ≤ relativeText s.directory q := by
  obtain ⟨_, kept, _, _, rfl⟩ := filesBelow_ok (filesBelow_of_files h)
  exact sortBelow_sorted s.directory kept

end Search

namespace Run

variable {α β : Type} {x y : Run α} {f g : α → Run β}

/-- Runs that do the same unless they are told to stop. -/
def SameUnstopped (x y : Run α) : Prop := ∀ s, s.stop = .never → x.run.run s = y.run.run s

namespace SameUnstopped

theorem refl (x : Run α) : SameUnstopped x x := fun _ _ => rfl

theorem bind (hy : Steady y) (h : SameUnstopped x y) (hfg : ∀ a, SameUnstopped (f a) (g a)) :
    SameUnstopped (x >>= f) (y >>= g) := by
  intro s hs
  have hstop := hy.stop_eq s
  cases hrun : y.run.run s with
  | mk result s1 =>
    have hx := (h s hs).trans hrun
    rw [hrun] at hstop
    cases result with
    | error e => rw [run_bind_error hx, run_bind_error hrun]
    | ok a => rw [run_bind_ok hx, run_bind_ok hrun, hfg a s1 (hstop.trans hs)]

end SameUnstopped

end Run

/-- The settings with batches of another size. -/
def Settings.withWorkers (settings : Settings) (n : Nat) (hn : 0 < n) : Settings :=
  { settings with workers := n, workers_pos := hn }

namespace Pass

variable {σ α β : Type} {pass : Pass σ α β} {parse : Bytes → Node} {settings : Settings} {start : σ}
  {files : List Path}

theorem Steady.whole (h : pass.Steady) (parse : Bytes → Node) (settings : Settings) (start : σ) (files : List Path) :
    Run.Steady (pass.whole parse settings start files) :=
  .bind (h.visitAll _ _ _) fun _ => .bind (h.conclude _) fun _ => .pure _

/-- In batches of any size, a pass is its visits and its conclusion. -/
theorem run_sameUnstopped (h : pass.Steady) {n : Nat} (hn : 0 < n) :
    SameUnstopped (pass.run parse (settings.withWorkers n hn) start files) (pass.whole parse settings start files) :=
  fun _ hs => run_never h hs

/-- A pass fails by a fault, unless it is told to stop. -/
theorem whole_not_cancelled {step : Step σ α} {total : List α → β} (hm : pass.Meets step total) (s : Session) :
    ((pass.whole parse settings start files).run.run s).1 ≠ .error .cancelled := by
  rw [whole]
  cases hv : (pass.visitAll (query parse settings) ⟨start, [], []⟩ files).run.run s with
  | mk result s1 =>
    cases result with
    | error f =>
      obtain ⟨_, _, _, _, _, _, g, rfl⟩ := visitAll_prefix hm hv
      rw [run_bind_error hv]
      simp
    | ok t =>
      obtain ⟨ns, hconclude⟩ := hm.conclude t.results s1
      rw [run_bind_ok hv, run_bind_ok hconclude]
      exact fun h => by cases h

end Pass

namespace Job

variable {devices : Devices} {job : Job} {files : List Path} {s : Session}

/-- The job with batches of another size. -/
def withWorkers (job : Job) (n : Nat) (hn : 0 < n) : Job := { job with settings := job.settings.withWorkers n hn }

/-- Counting without batches. -/
def countPlainly (job : Job) : Run Shortfall := do
  let files ← job.sources
  let outcome ← Audit.pass.whole job.tools.parse job.settings () files
  if outcome.result != 0 then Session.report .missingFound
  return ⟨outcome.result⟩

/-- The first id by a survey without batches. -/
def scanPlainly (job : Job) (files : List Path) : Run (Option Int) := do
  Session.report .scanningForId
  let outcome ← Survey.pass.whole job.tools.parse job.settings () files
  if outcome.result.missing = 0 then
    Session.report .nothingMissing
    return none
  else return some outcome.result.nextId

/-- The first id to hand out, from the lock file or from a survey without batches. -/
def startPlainly (job : Job) (files : List Path) : Run (Option Int) := do
  if job.isCached then
    Session.report .usingCachedId
    return job.lockedId.map Int.ofNat
  else job.scanPlainly files

/-- Handing out ids without batches. -/
def numberPlainly (job : Job) (devices : Devices) : Run Numbering := do
  let files ← job.sources
  match ← job.startPlainly files with
  | none => return ⟨true, 0, none⟩
  | some start =>
    Session.report (.nextId start)
    let outcome ← (Insertion.pass devices).whole job.tools.parse job.settings (some ⟨start⟩) files
    Session.report (.insertedInAll outcome.result.inserted)
    let next := (outcome.state.map Counter.next).getD start
    if job.settings.keepsLock then
      let _ ← Lock.write job.directory next
    return {
      isComplete := !outcome.result.hasFailed && outcome.skipped.isEmpty
      inserted := outcome.result.inserted
      nextId := some next }

theorem sources_steady (job : Job) : Run.Steady job.sources := by
  refine .get_bind (fun s => ?_) fun _ _ => rfl
  split
  · exact .throw _
  · exact .throw _
  · exact .throw _
  · exact .bind (.report _) fun _ => .pure _

theorem startPlainly_steady (job : Job) (files : List Path) : Run.Steady (job.startPlainly files) := by
  unfold startPlainly
  split
  · exact .bind (.report _) fun _ => .pure _
  · refine .bind (.report _) fun _ => .bind (Survey.steady.whole _ _ _ _) fun outcome => ?_
    split
    · exact .bind (.report _) fun _ => .pure _
    · exact .pure _

theorem startId_sameUnstopped (job : Job) {n : Nat} (hn : 0 < n) (files : List Path) :
    SameUnstopped ((job.withWorkers n hn).startId files) (job.startPlainly files) := by
  unfold startPlainly
  cases hcached : job.isCached with
  | true =>
    intro s _
    obtain ⟨id, hid, hrun⟩ := @startId_cached (job.withWorkers n hn) hcached
    have hid : job.lockedId = some id := hid
    rw [hrun files s, hid]
    rfl
  | false =>
    rw [@startId_scanned (job.withWorkers n hn) files hcached]
    exact .bind (.report _) (.refl _) fun _ =>
      .bind (Survey.steady.whole _ _ _ _) (Pass.run_sameUnstopped Survey.steady hn) fun _ => .refl _

theorem insertAmid_sameUnstopped (job : Job) {n : Nat} (hn : 0 < n) (start : Int) (files : List Path) :
    SameUnstopped ((job.withWorkers n hn).insertAmid .none devices start files)
      ((Insertion.pass devices).whole job.tools.parse job.settings (some ⟨start⟩) files) := by
  intro s hs
  -- only a run that was told to stop takes the lock file away
  have hrun : ((job.withWorkers n hn).insertion .none devices start files).run.run s =
      ((Insertion.pass devices).whole job.tools.parse job.settings (some ⟨start⟩) files).run.run s :=
    Pass.run_sameUnstopped (Insertion.steady devices) hn s hs
  exact insertAmid_kept hrun (Pass.whole_not_cancelled (Insertion.meets devices) s)

theorem count_sameUnstopped (job : Job) {n : Nat} (hn : 0 < n) :
    SameUnstopped (job.withWorkers n hn).count job.countPlainly :=
  .bind job.sources_steady (.refl _) fun _ =>
    .bind (Audit.steady.whole _ _ _ _) (Pass.run_sameUnstopped Audit.steady hn) fun _ => .refl _

theorem number_sameUnstopped (job : Job) {n : Nat} (hn : 0 < n) :
    SameUnstopped ((job.withWorkers n hn).numberOn devices) (job.numberPlainly devices) := by
  rw [numberOn_eq]
  refine .bind job.sources_steady (.refl _) fun files =>
    .bind (job.startPlainly_steady files) (job.startId_sameUnstopped hn files) fun first => ?_
  cases first with
  | none => exact .refl _
  | some start =>
    exact .bind (.report _) (.refl _) fun _ =>
      .bind ((Insertion.steady devices).whole _ _ _ _) (job.insertAmid_sameUnstopped hn start files) fun _ => .refl _

/-- In batches of any two sizes, a run that is not told to stop ends in the same way and leaves the same session
behind, files, lock file and notices: that of one visit after the other to the files in their order. The same holds of
an insertion on its own, with the files it skips. -/
theorem batch_size_unseen (job : Job) (devices : Devices) {m n : Nat} (hm : 0 < m) (hn : 0 < n) (hs : s.stop = .never) :
    ((job.withWorkers m hm).count.run.run s = job.countPlainly.run.run s ∧
        (job.withWorkers n hn).count.run.run s = job.countPlainly.run.run s) ∧
      (((job.withWorkers m hm).numberOn devices).run.run s = (job.numberPlainly devices).run.run s ∧
        ((job.withWorkers n hn).numberOn devices).run.run s = (job.numberPlainly devices).run.run s) ∧
      (∀ start files,
        ((Insertion.pass devices).run job.tools.parse (job.settings.withWorkers m hm) start files).run.run s =
            ((Insertion.pass devices).whole job.tools.parse job.settings start files).run.run s ∧
          ((Insertion.pass devices).run job.tools.parse (job.settings.withWorkers n hn) start files).run.run s =
            ((Insertion.pass devices).whole job.tools.parse job.settings start files).run.run s) ∧
      ∀ files, job.search.files s.disk = .ok files →
        files.Pairwise fun p q =>
          Search.relativeText job.settings.sourceDir p ≤ Search.relativeText job.settings.sourceDir q := by
  refine ⟨⟨?_, ?_⟩, ⟨?_, ?_⟩, fun start files => ⟨?_, ?_⟩, fun files hfiles => ?_⟩
  · exact job.count_sameUnstopped hm s hs
  · exact job.count_sameUnstopped hn s hs
  · exact job.number_sameUnstopped hm s hs
  · exact job.number_sameUnstopped hn s hs
  · exact Pass.run_sameUnstopped (Insertion.steady devices) hm s hs
  · exact Pass.run_sameUnstopped (Insertion.steady devices) hn s hs
  · exact Search.files_sorted (s := job.search) hfiles

/-- Three files in batches of one and of two, the second of which is not there. -/
theorem batch_size_unseen_of_three :
    let source := "fn f() \x7b info!(\"m\"); \x7d"
    let s := Session.small source [(["src", "c.rs"], .file (Bytes.ofString source) 0o644)] .never
    let files : List Path := ["a.rs", "b.rs", "c.rs"].map fun name => ⟨.single, ["src", name]⟩
    let outcome (n : Nat) (hn : 0 < n) :=
      ((Insertion.pass .sound).run Rust.parse ((small none).settings.withWorkers n hn) (some ⟨1⟩) files).run.run s
    outcome 1 (by decide) = outcome 2 (by decide) ∧
      (outcome 2 (by decide)).1.toOption.map (fun o => (o.result, o.state, o.skipped)) =
        some (⟨false, 2⟩, some ⟨3⟩, [⟨.single, ["src", "b.rs"]⟩]) := by
  intro source s files outcome
  obtain ⟨_, _, hpass, _⟩ :=
    batch_size_unseen (s := s) (small none) .sound (m := 1) (n := 2) (by decide) (by decide) rfl
  obtain ⟨hone, htwo⟩ := hpass (some ⟨1⟩) files
  exact ⟨hone.trans htwo.symm, by decide +kernel⟩

end Job

end LogRef
