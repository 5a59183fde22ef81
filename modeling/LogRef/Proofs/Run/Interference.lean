import LogRef.Proofs.Run.Stops

/-!
# Passes among other programs

Between reading a file and changing it, a pass can lose its ground: other programs may take away or replace what is
on the disk. A pass amid such changes is still a pass, and without any it is the pass itself. What every visit to a
file keeps, the pass keeps.
-/
namespace LogRef

/-- What other programs do to the disk while a file is worked on. -/
abbrev Interference := Path → Disk → Disk

/-- Other programs leave the disk alone. -/
def Interference.none : Interference := fun _ d => d

/-- The session after others have changed the disk. -/
def Session.after (others : Disk → Disk) (s : Session) : Session := { s with disk := others s.disk }

namespace Pass

open Run

variable {σ α β : Type} {pass : Pass σ α β} {others : Interference} {q : Query} {t t' : Tally σ α} {s s' : Session}
  {path : Path} {files : List Path} {parse : Bytes → Node} {settings : Settings} {start : σ}

/-- The pass with others changing the disk right before a file is visited, once it was read. -/
def amid (others : Interference) (pass : Pass σ α β) : Pass σ α β where
  visit state path contents entries := do
    modify (Session.after (others path))
    pass.visit state path contents entries
  conclude := pass.conclude

theorem amid_none (pass : Pass σ α β) : pass.amid .none = pass := rfl

theorem amid_visit (pass : Pass σ α β) (others : Interference) (state : σ) (path : Path) (contents : Bytes)
    (entries : List Entry) (s : Session) : ((pass.amid others).visit state path contents entries).run.run s =
      (pass.visit state path contents entries).run.run (s.after (others path)) := rfl

theorem Steady.amid (h : pass.Steady) (others : Interference) : (pass.amid others).Steady where
  visit state path contents entries := by
    intro s plan
    rw [amid_visit, amid_visit]
    exact h.visit state path contents entries (s.after (others path)) plan
  conclude := h.conclude

/-- How the visit to a file comes to its end: it was passed over, or read, searched and visited. -/
theorem visitFile_ok (h : (pass.visitFile q t path).run.run s = (.ok t', s')) :
    (∃ e, s.disk.read path = .error e ∧ e.isRefused = false ∧
        t' = { t with skipped := t.skipped ++ [path] } ∧ s' = s.noting [.readFailed path.toString e.message]) ∨
      ∃ contents entries ns state result, s.disk.read path = .ok contents ∧
        (findEntries q contents).run.run [] = (.ok entries, ns) ∧
        (pass.visit t.state path contents entries).run.run (s.noting ns) = (.ok (state, result), s') ∧
        t' = { t with state, results := t.results ++ result.toList } := by
  unfold visitFile at h
  rw [run_get_bind] at h
  cases hr : s.disk.read path with
  | error e =>
    simp only [hr] at h
    cases he : e.isRefused with
    | true =>
      simp only [he, if_true] at h
      cases h
    | false =>
      simp only [he] at h
      cases h
      exact .inl ⟨e, rfl, he, rfl, rfl⟩
  | ok contents =>
    simp only [hr] at h
    obtain ⟨entries, s1, h1, h⟩ := of_run_bind_ok h
    obtain ⟨⟨state, result⟩, s2, h2, h⟩ := of_run_bind_ok h
    cases h
    cases hs : (findEntries q contents).run.run [] with
    | mk found ns =>
      simp only [Session.reporting, hs] at h1
      cases found with
      | error f => cases h1
      | ok entries =>
        cases h1
        exact .inr ⟨contents, entries, ns, state, result, rfl, hs, h2, rfl⟩

section Keeps

/-! What every visit to a file keeps, all of them keep, and so does a pass with a result. -/

variable {I : Tally σ α → Session → Prop}
  (hfile : ∀ {t t' : Tally σ α} {s s' : Session} {path : Path},
    (pass.visitFile q t path).run.run s = (.ok t', s') → I t s → I t' s')

include hfile

theorem visitAll_keeps (h : (pass.visitAll q t files).run.run s = (.ok t', s')) (hI : I t s) : I t' s' := by
  induction files generalizing t s with
  | nil =>
    cases h
    exact hI
  | cons path rest ih =>
    rw [visitAll] at h
    obtain ⟨t1, s1, h1, h2⟩ := of_run_bind_ok h
    exact ih h2 (hfile h1 hI)

variable (hstop : ∀ {t : Tally σ α} {s s' : Session}, Session.heedStop.run.run s = (.ok (), s') → I t s → I t s')

include hstop

theorem visitBatches_keeps {batches : List (List Path)}
    (h : (pass.visitBatches q t batches).run.run s = (.ok t', s')) (hI : I t s) : I t' s' := by
  induction batches generalizing t s with
  | nil =>
    cases h
    exact hI
  | cons batch rest ih =>
    rw [visitBatches] at h
    obtain ⟨_, s1, h1, h⟩ := of_run_bind_ok h
    obtain ⟨t2, s2, h2, h⟩ := of_run_bind_ok h
    obtain ⟨_, s3, h3, h⟩ := of_run_bind_ok h
    exact ih h (hstop h3 (visitAll_keeps hfile h2 (hstop h1 hI)))

end Keeps

theorem run_keeps {I : Tally σ α → Session → Prop}
    (hfile : ∀ {t t' : Tally σ α} {s s' : Session} {path : Path},
      (pass.visitFile (query parse settings) t path).run.run s = (.ok t', s') → I t s → I t' s')
    (hstop : ∀ {t : Tally σ α} {s s' : Session}, Session.heedStop.run.run s = (.ok (), s') → I t s → I t s')
    {outcome : Outcome σ β} (h : (pass.run parse settings start files).run.run s = (.ok outcome, s'))
    (hI : I ⟨start, [], []⟩ s) :
    ∃ t s1, I t s1 ∧ (pass.conclude t.results).run.run s1 = (.ok outcome.result, s') ∧ outcome.state = t.state ∧
      outcome.skipped = t.skipped := by
  rw [run] at h
  obtain ⟨t, s1, h1, h⟩ := of_run_bind_ok h
  obtain ⟨_, s2, h2, h⟩ := of_run_bind_ok h
  obtain ⟨result, s3, h3, h⟩ := of_run_bind_ok h
  cases h
  exact ⟨t, s2, hstop h2 (visitBatches_keeps hfile hstop h1 hI), h3, rfl, rfl⟩

end Pass

end LogRef
