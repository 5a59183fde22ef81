import LogRef.Proofs.Run.Visit
import LogRef.Run.Command

/-!
# When a pass stops

A pass asks before and after every batch, and once more at its end, whether to stop. What it does in between does
not depend on the answers: up to the first yes it is the pass that is never told to stop.
-/
namespace LogRef

namespace Session

variable {s : Session} {plan : StopPlan}

/-- The session with another plan to stop. -/
def withStop (s : Session) (plan : StopPlan) : Session := { s with stop := plan }

/-- The session once it was told to stop, by a signal or not. -/
def stopped (s : Session) (signal : Option Int) : Session :=
  (s.withStop .always).noting (signal.toList.map .signalled)

theorem stopped_disk (signal : Option Int) : (s.stopped signal).disk = s.disk := rfl

theorem withStop_self : s.withStop s.stop = s := rfl

theorem heedStop_never (h : s.stop = .never) : heedStop.run.run s = (.ok (), s) := by
  obtain ⟨disk, notices, stop, tag⟩ := s
  subst h
  rfl

theorem heedStop_later (s : Session) (n : Nat) (signal : Option Int) :
    heedStop.run.run (s.withStop (.after (n + 1) signal)) = (.ok (), s.withStop (.after n signal)) := rfl

theorem heedStop_now (s : Session) (signal : Option Int) :
    heedStop.run.run (s.withStop (.after 0 signal)) = (.error .cancelled, s.stopped signal) := by
  cases signal with
  | none =>
    rw [stopped, Option.toList_none, List.map_nil, noting_nil]
    rfl
  | some number => rfl

end Session

/-- Work that neither asks whether to stop nor changes the answer. -/
def Work.Steady {α : Type} (w : Work α) : Prop :=
  ∀ s plan, w.run (s.withStop plan) = ((w.run s).1, (w.run s).2.withStop plan)

namespace Work.Steady

variable {α β : Type} {w : Work α} {k : α → Work β}

theorem pure (a : α) : Steady (pure a : Work α) := fun _ _ => rfl

theorem bind (hw : Steady w) (hk : ∀ a, Steady (k a)) : Steady (w >>= k) := by
  intro s plan
  rw [run_bind, run_bind, hw s plan, hk]

theorem report (n : Notice) : Steady (Session.report n) := fun _ _ => rfl

theorem setDisk (d : Disk) : Steady (Session.setDisk d) := fun _ _ => rfl

/-- Looking at the session is no question, if the plan to stop is not looked at. -/
theorem get_bind {f : Session → Work α} (h : ∀ s, Steady (f s)) (hf : ∀ s plan, f (s.withStop plan) = f s) :
    Steady (get >>= f) := by
  intro s plan
  rw [run_bind, run_bind, run_get, run_get, hf, h s s plan]

theorem forM {γ : Type} {f : γ → Work Unit} (h : ∀ c, Steady (f c)) (l : List γ) : Steady (l.forM f) := by
  induction l with
  | nil => exact .pure ()
  | cons c l ih => exact .bind (h c) fun _ => ih

end Work.Steady

namespace Run

variable {α β : Type} {x : Run α} {k : α → Run β} {s s' : Session}

theorem run_lift_report (n : Notice) (s : Session) :
    (liftM (Session.report n) : Run Unit).run.run s = (.ok (), s.noting [n]) := rfl

theorem run_liftM {w : Work α} {a : α} (h : w.run s = (a, s')) : (liftM w : Run α).run.run s = (.ok a, s') := by
  have hlift : (liftM w : Run α).run.run s = (.ok (w.run s).1, (w.run s).2) := rfl
  rw [hlift, h]

/-- Work that may fail, but neither asks whether to stop nor changes the answer. -/
def Steady (x : Run α) : Prop :=
  ∀ s plan, x.run.run (s.withStop plan) = ((x.run.run s).1, (x.run.run s).2.withStop plan)

namespace Steady

theorem stop_eq (h : Steady x) (s : Session) : (x.run.run s).2.stop = s.stop := by
  have hs := congrArg (fun r => r.2.stop) (h s s.stop)
  rw [Session.withStop_self] at hs
  exact hs

theorem run_withStop {r : Except Failure α} (h : Steady x) (hx : x.run.run s = (r, s')) (plan : StopPlan) :
    x.run.run (s.withStop plan) = (r, s'.withStop plan) := by
  rw [h s plan, hx]

theorem pure (a : α) : Steady (pure a : Run α) := fun _ _ => rfl

theorem throw (f : Failure) : Steady (throw f : Run α) := fun _ _ => rfl

theorem bind (hx : Steady x) (hk : ∀ a, Steady (k a)) : Steady (x >>= k) := by
  intro s plan
  have hs := hx s plan
  cases hrun : x.run.run s with
  | mk result m =>
    rw [hrun] at hs
    cases result with
    | error f => rw [run_bind_error hs, run_bind_error hrun]
    | ok a => rw [run_bind_ok hs, run_bind_ok hrun, hk a m plan]

theorem ofWork {w : Work α} (h : w.Steady) : Steady (liftM w : Run α) := by
  intro s plan
  rw [run_liftM (h s plan)]
  rfl

theorem report (n : Notice) : Steady (Session.report n : Run Unit) := .ofWork (.report n)

theorem reporting (w : Reporting α) : Steady (Session.reporting w) := by
  intro s plan
  cases hw : w.run.run [] with
  | mk result ns => cases result <;> simp only [Session.reporting, hw] <;> rfl

theorem get_bind {f : Session → Run α} (h : ∀ s, Steady (f s)) (hf : ∀ s plan, f (s.withStop plan) = f s) :
    Steady (get >>= f) := by
  intro s plan
  rw [run_get_bind, run_get_bind, hf, h s s plan]

end Steady

end Run

namespace Pass

open Run

variable {σ α β : Type} {pass : Pass σ α β} {q : Query} {t t' : Tally σ α} {s s' : Session}
  {files rest batch : List Path} {batches : List (List Path)} {parse : Bytes → Node} {settings : Settings} {start : σ}

/-- A pass that does not ask whether to stop on its own. -/
structure Steady (pass : Pass σ α β) : Prop where
  visit : ∀ state path contents entries, Run.Steady (pass.visit state path contents entries)
  conclude : ∀ results, Run.Steady (pass.conclude results)

theorem Steady.visitFile (h : pass.Steady) (q : Query) (t : Tally σ α) (path : Path) :
    Run.Steady (pass.visitFile q t path) := by
  unfold Pass.visitFile
  refine .get_bind (fun s => ?_) (fun _ _ => rfl)
  split
  · split
    · exact .bind (.throw _) fun _ => .bind (.report _) fun _ => .pure _
    · exact .bind (.report _) fun _ => .pure _
  · exact .bind (.reporting _) fun entries => .bind (h.visit _ _ _ _) fun _ => .pure _

theorem Steady.visitAll (h : pass.Steady) (q : Query) (t : Tally σ α) (files : List Path) :
    Run.Steady (pass.visitAll q t files) := by
  induction files generalizing t with
  | nil => exact .pure t
  | cons path rest ih => exact .bind (h.visitFile q t path) ih

theorem visitAll_append (h : (pass.visitAll q t files).run.run s = (.ok t', s')) (rest : List Path) :
    (pass.visitAll q t (files ++ rest)).run.run s = (pass.visitAll q t' rest).run.run s' := by
  induction files generalizing t s with
  | nil =>
    obtain ⟨ht, rfl⟩ := Prod.mk.inj h
    obtain rfl := Except.ok.inj ht
    rfl
  | cons path files ih =>
    rw [visitAll] at h
    obtain ⟨t1, s1, h1, h2⟩ := of_run_bind_ok h
    rw [List.cons_append, visitAll, run_bind_ok h1]
    exact ih h2

theorem visitAll_append_error {f : Failure} (h : (pass.visitAll q t files).run.run s = (.error f, s'))
    (rest : List Path) : (pass.visitAll q t (files ++ rest)).run.run s = (.error f, s') := by
  induction files generalizing t s with
  | nil => cases h
  | cons path files ih =>
    rw [visitAll] at h
    rw [List.cons_append, visitAll]
    cases hv : (pass.visitFile q t path).run.run s with
    | mk result s1 =>
      cases result with
      | error g => rw [run_bind_error hv] at h ⊢; exact h
      | ok t1 => rw [run_bind_ok hv] at h ⊢; exact ih h

theorem of_visitAll_append (h : (pass.visitAll q t (files ++ rest)).run.run s = (.ok t', s')) :
    ∃ t1 s1, (pass.visitAll q t files).run.run s = (.ok t1, s1) ∧
      (pass.visitAll q t1 rest).run.run s1 = (.ok t', s') := by
  induction files generalizing t s with
  | nil => exact ⟨t, s, rfl, h⟩
  | cons path files ih =>
    rw [List.cons_append, visitAll] at h
    obtain ⟨t1, s1, h1, h2⟩ := of_run_bind_ok h
    obtain ⟨t2, s2, h3, h4⟩ := ih h2
    exact ⟨t2, s2, by rw [visitAll, run_bind_ok h1, h3], h4⟩

/-- A pass that is not asked to stop is its visits and its conclusion. -/
def whole (pass : Pass σ α β) (parse : Bytes → Node) (settings : Settings) (start : σ) (files : List Path) :
    Run (Outcome σ β) := do
  let t ← pass.visitAll (query parse settings) ⟨start, [], []⟩ files
  let result ← pass.conclude t.results
  return ⟨t.state, result, t.skipped⟩

theorem flatten_cutFrom {n : Nat} (hn : 0 < n) {fuel : Nat} (h : files.length ≤ fuel) :
    (cutFrom n fuel files).flatten = files := by
  induction fuel generalizing files with
  | zero => rw [List.eq_nil_of_length_eq_zero (Nat.le_zero.mp h)]; rfl
  | succ fuel ih =>
    cases files with
    | nil => rfl
    | cons path rest =>
      rw [cutFrom, List.flatten_cons, ih, List.take_append_drop]
      rw [List.length_drop]
      omega

theorem flatten_inBatches {n : Nat} (hn : 0 < n) (files : List Path) : (inBatches n files).flatten = files :=
  flatten_cutFrom hn (Nat.le_refl _)

theorem flatten_take_cutFrom {n : Nat} (hn : 0 < n) {fuel : Nat} (h : files.length ≤ fuel) (m : Nat) :
    ((cutFrom n fuel files).take m).flatten = files.take (n * m) := by
  induction m generalizing files fuel with
  | zero => rw [Nat.mul_zero, List.take_zero, List.take_zero, List.flatten_nil]
  | succ m ih =>
    cases fuel with
    | zero => rw [List.eq_nil_of_length_eq_zero (Nat.le_zero.mp h)]; simp [cutFrom]
    | succ fuel =>
      cases files with
      | nil => simp [cutFrom]
      | cons path rest =>
        rw [cutFrom, List.take_succ_cons, List.flatten_cons, ih (by rw [List.length_drop]; omega),
          Nat.mul_succ, Nat.add_comm, List.take_add]

/-- The first batches are the first files. -/
theorem flatten_take_inBatches {n : Nat} (hn : 0 < n) (files : List Path) (m : Nat) :
    ((inBatches n files).take m).flatten = files.take (n * m) :=
  flatten_take_cutFrom hn (Nat.le_refl _) m

/-- How many batches there are. -/
def batchCount (n : Nat) (files : List Path) : Nat := (files.length + n - 1) / n

theorem length_cutFrom {n : Nat} (hn : 0 < n) {fuel : Nat} (h : files.length ≤ fuel) :
    (cutFrom n fuel files).length = batchCount n files := by
  have hnone : batchCount n [] = 0 := Nat.div_eq_of_lt (by rw [List.length_nil]; omega)
  induction fuel generalizing files with
  | zero => rw [List.eq_nil_of_length_eq_zero (Nat.le_zero.mp h), hnone]; rfl
  | succ fuel ih =>
    cases files with
    | nil => rw [hnone]; rfl
    | cons path rest =>
      rw [cutFrom, List.length_cons, ih (by rw [List.length_drop]; omega), batchCount, batchCount,
        List.length_drop]
      have hadd : (path :: rest).length + n - 1 = ((path :: rest).length - 1) + n := by
        rw [List.length_cons]
        omega
      rw [hadd, Nat.add_div_right _ hn]
      congr 1
      by_cases hle : n ≤ (path :: rest).length
      · congr 1
        omega
      · rw [Nat.div_eq_of_lt (by omega), Nat.div_eq_of_lt (by omega)]

theorem length_inBatches {n : Nat} (hn : 0 < n) (files : List Path) :
    (inBatches n files).length = batchCount n files := length_cutFrom hn (Nat.le_refl _)

/-- Batches are visited as if there were no questions, if none is answered with yes. -/
theorem visitBatches_never (hp : pass.Steady) (hs : s.stop = .never) (q : Query) (t : Tally σ α)
    (batches : List (List Path)) :
    (pass.visitBatches q t batches).run.run s = (pass.visitAll q t batches.flatten).run.run s := by
  induction batches generalizing t s with
  | nil => rfl
  | cons batch rest ih =>
    rw [visitBatches, run_bind_ok (Session.heedStop_never hs), List.flatten_cons]
    have hstop := (hp.visitAll q t batch).stop_eq s
    cases hv : (pass.visitAll q t batch).run.run s with
    | mk result s1 =>
      rw [hv] at hstop
      have hs1 : s1.stop = .never := hstop.trans hs
      cases result with
      | error f => rw [run_bind_error hv, visitAll_append_error hv]
      | ok t1 => rw [run_bind_ok hv, run_bind_ok (Session.heedStop_never hs1), ih hs1, visitAll_append hv]

/-- A pass that is never told to stop is its visits and its conclusion. -/
theorem run_never (hp : pass.Steady) (hs : s.stop = .never) :
    (pass.run parse settings start files).run.run s = (pass.whole parse settings start files).run.run s := by
  have hbatches := visitBatches_never hp hs (query parse settings) ⟨start, [], []⟩ (inBatches settings.workers files)
  rw [flatten_inBatches settings.workers_pos] at hbatches
  have hstop := (hp.visitAll (query parse settings) ⟨start, [], []⟩ files).stop_eq s
  rw [run, whole]
  cases hv : (pass.visitAll (query parse settings) ⟨start, [], []⟩ files).run.run s with
  | mk result s1 =>
    rw [hv] at hbatches hstop
    cases result with
    | error f => rw [run_bind_error hbatches, run_bind_error hv]
    | ok t1 => rw [run_bind_ok hbatches, run_bind_ok hv, run_bind_ok (Session.heedStop_never (hstop.trans hs))]

/-- The question that is answered with yes stands before or after a batch: the batches before it are visited. -/
theorem visitBatches_cancelled (hp : pass.Steady) (signal : Option Int) {n : Nat} (hn : n < 2 * batches.length)
    (h : (pass.visitAll q t batches.flatten).run.run s = (.ok t', s')) :
    ∃ t1 s1, (pass.visitAll q t (batches.take ((n + 1) / 2)).flatten).run.run s = (.ok t1, s1) ∧
      (pass.visitBatches q t batches).run.run (s.withStop (.after n signal)) =
        (.error .cancelled, s1.stopped signal) := by
  induction batches generalizing t s n with
  | nil => rw [List.length_nil] at hn; omega
  | cons batch rest ih =>
    rw [List.flatten_cons] at h
    obtain ⟨t1, s1, h1, h2⟩ := of_visitAll_append h
    have hbatch (plan : StopPlan) := (hp.visitAll q t batch).run_withStop h1 plan
    rw [visitBatches]
    match n with
    | 0 => exact ⟨t, s, rfl, run_bind_error (Session.heedStop_now s signal)⟩
    | 1 =>
      rw [run_bind_ok (Session.heedStop_later s 0 signal), run_bind_ok (hbatch _)]
      refine ⟨t1, s1, ?_, run_bind_error (Session.heedStop_now s1 signal)⟩
      rw [List.take_succ_cons, List.take_zero, List.flatten_cons, List.flatten_nil, List.append_nil, h1]
    | n + 2 =>
      rw [List.length_cons] at hn
      obtain ⟨t2, s2, h3, h4⟩ := ih (n := n) (by omega) h2
      rw [run_bind_ok (Session.heedStop_later s (n + 1) signal), run_bind_ok (hbatch _),
        run_bind_ok (Session.heedStop_later s1 n signal)]
      refine ⟨t2, s2, ?_, h4⟩
      have hhalf : (n + 2 + 1) / 2 = (n + 1) / 2 + 1 := by omega
      rw [hhalf, List.take_succ_cons, List.flatten_cons, visitAll_append h1, h3]

theorem visitBatches_outlasts (hp : pass.Steady) (signal : Option Int) (n : Nat)
    (h : (pass.visitAll q t batches.flatten).run.run s = (.ok t', s')) :
    (pass.visitBatches q t batches).run.run (s.withStop (.after (n + 2 * batches.length) signal)) =
      (.ok t', s'.withStop (.after n signal)) := by
  induction batches generalizing t s with
  | nil =>
    obtain ⟨ht, rfl⟩ := Prod.mk.inj h
    obtain rfl := Except.ok.inj ht
    rfl
  | cons batch rest ih =>
    rw [List.flatten_cons] at h
    obtain ⟨t1, s1, h1, h2⟩ := of_visitAll_append h
    have hcount : n + 2 * (batch :: rest).length = n + 2 * rest.length + 1 + 1 := by
      rw [List.length_cons]
      omega
    rw [hcount, visitBatches, run_bind_ok (Session.heedStop_later s _ signal),
      run_bind_ok ((hp.visitAll q t batch).run_withStop h1 _), run_bind_ok (Session.heedStop_later s1 _ signal), ih h2]

/-- How many questions a pass asks. -/
def questions (settings : Settings) (files : List Path) : Nat := 2 * batchCount settings.workers files + 1

/-- A pass that is told to stop at one of its questions has visited the batches before that question. -/
theorem run_cancelled (hp : pass.Steady) (signal : Option Int) {n : Nat} (hn : n < questions settings files)
    (h : (pass.visitAll (query parse settings) ⟨start, [], []⟩ files).run.run s = (.ok t', s')) :
    ∃ t1 s1, (pass.visitAll (query parse settings) ⟨start, [], []⟩
        (files.take (settings.workers * ((n + 1) / 2)))).run.run s = (.ok t1, s1) ∧
      (pass.run parse settings start files).run.run (s.withStop (.after n signal)) =
        (.error .cancelled, s1.stopped signal) := by
  have hflat := flatten_inBatches settings.workers_pos files
  have hlength := length_inBatches settings.workers_pos files
  rw [← hflat] at h
  rw [questions, ← hlength] at hn
  rw [run, ← flatten_take_inBatches settings.workers_pos]
  by_cases hlast : n = 2 * (inBatches settings.workers files).length
  · subst hlast
    have hall : (2 * (inBatches settings.workers files).length + 1) / 2 =
        (inBatches settings.workers files).length := by omega
    rw [hall, List.take_length]
    have hbatches := visitBatches_outlasts hp signal 0 h
    rw [Nat.zero_add] at hbatches
    exact ⟨t', s', h, by rw [run_bind_ok hbatches, run_bind_error (Session.heedStop_now s' signal)]⟩
  · obtain ⟨t1, s1, h1, h2⟩ := visitBatches_cancelled hp signal (n := n) (by omega) h
    exact ⟨t1, s1, h1, run_bind_error h2⟩

/-- A pass that is told to stop after all its questions does not notice. -/
theorem run_outlasts (hp : pass.Steady) (signal : Option Int) (n : Nat)
    (h : (pass.visitAll (query parse settings) ⟨start, [], []⟩ files).run.run s = (.ok t', s')) :
    (pass.run parse settings start files).run.run (s.withStop (.after (n + questions settings files) signal)) =
      (((pass.whole parse settings start files).run.run s).1,
        ((pass.whole parse settings start files).run.run s).2.withStop (.after n signal)) := by
  have hcount : n + questions settings files = n + 1 + 2 * (inBatches settings.workers files).length := by
    rw [length_inBatches settings.workers_pos, questions]
    omega
  have hv := h
  rw [← flatten_inBatches settings.workers_pos files] at hv
  rw [hcount, run, run_bind_ok (visitBatches_outlasts hp signal (n + 1) hv),
    run_bind_ok (Session.heedStop_later s' n signal), whole, run_bind_ok h]
  exact Run.Steady.bind (hp.conclude t'.results) (fun _ => .pure _) s' _

end Pass

theorem Survey.steady : Survey.pass.Steady := ⟨fun _ _ _ _ => .pure _, fun _ => .pure _⟩

theorem Audit.steady : Audit.pass.Steady where
  visit _ path _ entries := by
    refine .bind (.ofWork ?_) fun _ => .pure _
    unfold Audit.visit
    split
    · exact .pure _
    · refine .bind (.forM (fun e => .report _) _) fun _ => ?_
      split
      · exact .bind (.report _) fun _ => .pure _
      · exact .pure _
  conclude counts := .ofWork (.bind (.report _) fun _ => .pure _)

namespace Insertion

theorem updateFile_steady (device : Device) (path : Path) (contents : Bytes) (targets : List Entry) (c : Counter) :
    (updateFile device path contents targets c).Steady := by
  unfold updateFile
  refine .get_bind (fun s => ?_) fun _ _ => rfl
  split
  · exact .bind (.report _) fun _ => .pure _
  · refine .bind (.setDisk _) fun _ => ?_
    split
    all_goals exact .bind (.report _) fun _ => .pure _

theorem annotate_steady (device : Device) (path : Path) (contents : Bytes) (targets : List Entry)
    (counter : Option Counter) :
    (annotate device path contents targets counter).Steady := by
  unfold annotate
  split
  · exact .bind (.report _) fun _ => .pure _
  · dsimp only
    split
    · exact .bind (.report _) fun _ => .pure _
    · split
      · exact .bind (.report _) fun _ => .pure _
      · exact .bind (updateFile_steady device path contents targets _) fun _ => .pure _

theorem steady (devices : Devices) : (Insertion.pass devices).Steady where
  visit counter path contents entries := by
    refine .bind (.ofWork ?_) fun _ => .pure _
    refine .bind (.forM (fun e => .report _) _) fun _ => ?_
    split
    · exact .pure _
    · exact .bind (annotate_steady _ path contents _ counter) fun _ => .pure _
  conclude _ := .pure _

end Insertion

end LogRef
