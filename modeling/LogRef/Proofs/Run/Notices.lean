import LogRef.Proofs.Reference.Reading
import LogRef.Proofs.Run.Sweep

/-!
# What is reported on the way

Notices are only ever added. What kinds of notices some work adds follows from its parts, however it ends.
-/
namespace LogRef

/-- All the notices that were added are of some kind. -/
def Notice.Adds (P : Notice → Prop) (before after : List Notice) : Prop := ∃ ns, after = before ++ ns ∧ ∀ n ∈ ns, P n

namespace Notice.Adds

variable {P Q : Notice → Prop} {xs ys zs : List Notice}

theorem refl (P : Notice → Prop) (xs : List Notice) : Adds P xs xs := ⟨[], by simp, by simp⟩

theorem of_append {ns : List Notice} (h : ∀ n ∈ ns, P n) : Adds P xs (xs ++ ns) := ⟨ns, rfl, h⟩

theorem one {n : Notice} (h : P n) : Adds P xs (xs ++ [n]) := by
  refine .of_append ?_
  intro m hm
  rwa [List.mem_singleton.mp hm]

theorem trans (h : Adds P xs ys) (h' : Adds P ys zs) : Adds P xs zs := by
  obtain ⟨ms, rfl, hms⟩ := h
  obtain ⟨ns, rfl, hns⟩ := h'
  refine ⟨ms ++ ns, by simp, ?_⟩
  intro n hn
  exact (List.mem_append.mp hn).elim (hms n) (hns n)

theorem mono (h : Adds P xs ys) (hPQ : ∀ n, P n → Q n) : Adds Q xs ys := by
  obtain ⟨ns, rfl, hns⟩ := h
  exact .of_append fun n hn => hPQ n (hns n hn)

end Notice.Adds

/-- What the search for calls reports. -/
def Notice.IsOfSearch : Notice → Prop
  | .ignoredCall .. | .undecodableSource .. => True
  | _ => False

/-- What a pass reports on its own: what is wrong with a file, what the search comes across, and a signal to stop. -/
def Notice.IsRoutine : Notice → Prop
  | .readFailed .. | .signalled .. => True
  | n => n.IsOfSearch

theorem Notice.IsOfSearch.isRoutine {n : Notice} (h : n.IsOfSearch) : n.IsRoutine := by
  cases n <;> trivial

namespace Reporting

variable {α β : Type} {P : Notice → Prop} {x : Reporting α} {k : α → Reporting β}

/-- Whatever it reports is of some kind. -/
def Notes (P : Notice → Prop) (x : Reporting α) : Prop := ∀ ms, Notice.Adds P ms (x.run.run ms).2

namespace Notes

theorem pure (a : α) : Notes P (pure a : Reporting α) := fun ms => .refl P ms

theorem throw (f : Fault) : Notes P (throw f : Reporting α) := fun ms => .refl P ms

theorem report {n : Notice} (h : P n) : Notes P (Reporting.report n) := fun _ => .one h

theorem bind (hx : Notes P x) (hk : ∀ a, Notes P (k a)) : Notes P (x >>= k) := by
  intro ms
  have hms := hx ms
  cases hrun : x.run.run ms with
  | mk result ns =>
    rw [hrun] at hms
    cases result with
    | error f => rwa [run_bind_error hrun]
    | ok a =>
      rw [run_bind_ok hrun]
      exact hms.trans (hk a ns)

theorem mapM {f : α → Reporting β} (h : ∀ a, Notes P (f a)) (l : List α) : Notes P (l.mapM f) := by
  induction l with
  | nil => exact .pure []
  | cons a l ih =>
    rw [List.mapM_cons]
    exact .bind (h a) fun b => .bind ih fun bs => .pure (b :: bs)

end Notes

end Reporting

theorem callEntry_notes {P : Notice → Prop} (h : ∀ name line, P (.ignoredCall name line)) (query : Query)
    (code : List Char) (offset : Nat) (call : Call) : (callEntry query code offset call).Notes P := by
  unfold callEntry
  split
  · exact .bind (.report (h _ _)) fun _ => .pure _
  · split
    · exact .pure _
    · split
      · exact .pure _
      · exact .throw _

theorem callEntries_notes {P : Notice → Prop} (h : ∀ name line, P (.ignoredCall name line)) (query : Query)
    (code : List Char) (calls : List Call) : (callEntries query code calls).Notes P := by
  refine .bind (.mapM (fun call => ?_) _) fun _ => .pure _
  split
  · exact callEntry_notes h _ _ _ _
  · exact .pure _

theorem findEntries_notes (query : Query) (source : Bytes) : (findEntries query source).Notes Notice.IsOfSearch := by
  unfold findEntries entriesInTree
  split
  · exact .bind (.report trivial) fun _ => .pure _
  · split
    · exact .throw _
    · exact callEntries_notes (fun _ _ => trivial) _ _ _

namespace Run

variable {α β : Type} {P : Notice → Prop} {x : Run α} {k : α → Run β} {s s' : Session}

/-- Whatever it reports is of some kind, however it ends. -/
def Notes (P : Notice → Prop) (x : Run α) : Prop := ∀ s, Notice.Adds P s.notices (x.run.run s).2.notices

namespace Notes

theorem of_run {r : Except Failure α} (h : Notes P x) (hx : x.run.run s = (r, s')) :
    Notice.Adds P s.notices s'.notices := by
  have hs := h s
  rwa [hx] at hs

theorem pure (a : α) : Notes P (pure a : Run α) := fun s => .refl P s.notices

theorem throw (f : Failure) : Notes P (throw f : Run α) := fun s => .refl P s.notices

theorem report {n : Notice} (h : P n) : Notes P (Session.report n : Run Unit) := fun _ => .one h

theorem setDisk (d : Disk) : Notes P (Session.setDisk d : Run Unit) := fun s => .refl P s.notices

theorem bind (hx : Notes P x) (hk : ∀ a, Notes P (k a)) : Notes P (x >>= k) := by
  intro s
  have hs := hx s
  cases hrun : x.run.run s with
  | mk result m =>
    rw [hrun] at hs
    cases result with
    | error f => rwa [run_bind_error hrun]
    | ok a =>
      rw [run_bind_ok hrun]
      exact hs.trans (hk a m)

theorem get_bind {f : Session → Run α} (h : ∀ s, Notes P (f s)) : Notes P (get >>= f) := fun s => h s s

theorem reporting {w : Reporting α} (h : w.Notes P) : Notes P (Session.reporting w) := by
  intro s
  obtain ⟨ns, hns, hP⟩ := h []
  cases hw : w.run.run [] with
  | mk result ms =>
    rw [hw] at hns
    obtain rfl : ms = ns := hns
    cases result <;> simp only [Session.reporting, hw] <;> exact .of_append hP

theorem heedStop (hP : ∀ n : Notice, n.IsRoutine → P n) : Notes P Session.heedStop := by
  intro s
  obtain ⟨disk, notices, stop, tag⟩ := s
  match stop with
  | .never | .always | .after (n + 1) signal | .after 0 none => exact .refl P notices
  | .after 0 (some number) => exact .one (hP _ trivial)

end Notes

end Run

namespace Pass

open Run

variable {σ α β : Type} {pass : Pass σ α β} {P : Notice → Prop}

/-- Whatever its visits and its conclusion report is of some kind. -/
structure Notes (P : Notice → Prop) (pass : Pass σ α β) : Prop where
  visit : ∀ state path contents entries, Run.Notes P (pass.visit state path contents entries)
  conclude : ∀ results, Run.Notes P (pass.conclude results)

namespace Notes

variable (hP : ∀ n : Notice, n.IsRoutine → P n) (h : pass.Notes P)

include hP h

theorem visitFile (q : Query) (t : Tally σ α) (path : Path) : Run.Notes P (pass.visitFile q t path) := by
  unfold Pass.visitFile
  refine .get_bind fun s => ?_
  split
  · split
    · exact .bind (.throw _) fun _ => .bind (.report (hP _ trivial)) fun _ => .pure _
    · exact .bind (.report (hP _ trivial)) fun _ => .pure _
  · refine .bind (.reporting fun ms => ?_) fun entries => .bind (h.visit _ _ _ _) fun _ => .pure _
    exact (findEntries_notes q _ ms).mono fun n hn => hP n hn.isRoutine

theorem visitAll (q : Query) (t : Tally σ α) (files : List Path) : Run.Notes P (pass.visitAll q t files) := by
  induction files generalizing t with
  | nil => exact .pure t
  | cons path rest ih => exact .bind (visitFile hP h q t path) ih

theorem visitBatches (q : Query) (t : Tally σ α) (batches : List (List Path)) :
    Run.Notes P (pass.visitBatches q t batches) := by
  induction batches generalizing t with
  | nil => exact .pure t
  | cons batch rest ih =>
    exact .bind (.heedStop hP) fun _ => .bind (visitAll hP h q t batch) fun _ => .bind (.heedStop hP) fun _ => ih _

/-- However a pass ends, it reports what its visits report and what every pass does. -/
theorem run (settings : Settings) (start : σ) (files : List Path) :
    Run.Notes P (pass.run parse settings start files) :=
  .bind (visitBatches hP h _ _ _) fun _ => .bind (.heedStop hP) fun _ => .bind (h.conclude _) fun _ => .pure _

end Notes

end Pass

end LogRef
