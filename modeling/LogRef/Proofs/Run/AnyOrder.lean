import Mathlib.Data.List.Induction
import LogRef.Proofs.Run.Agreement
import LogRef.Proofs.Run.Interference

/-!
# Files in any order

What becomes of a file when a pass comes to it may depend on the files before. Where it does not, what a pass makes of
its files can be found file by file, and whatever is the same for every order of the files is the same for the pass.
-/
namespace LogRef

open Run

/-- What becomes of a file that a pass comes to: what is read, whether a scratch file can be made beside it, what the
device answers when that is written, and whether it can take the place of the file. -/
structure Fate where
  contents : Except FileError Bytes
  opens : Bool
  device : Device
  lands : Bool

namespace Fate

variable {fate : Fate} {q : Query} {p : Path}

/-- The entries of the file, if it can be read and searched. -/
def entries (fate : Fate) (q : Query) : Option (List Entry) :=
  match fate.contents with
  | .ok contents => ((findEntries q contents).run.run []).1.toOption
  | .error _ => none

/-- A pass that comes to the file ends in a fault. -/
def breaks (fate : Fate) (q : Query) : Bool :=
  match fate.contents with
  | .ok contents => ((findEntries q contents).run.run []).1.toOption.isNone
  | .error e => e.isRefused

theorem entries_of_found {contents : Bytes} {entries : List Entry} {ns : List Notice}
    (hread : fate.contents = .ok contents) (hfound : (findEntries q contents).run.run [] = (.ok entries, ns)) :
    fate.entries q = some entries ∧ fate.breaks q = false := by
  simp only [Fate.entries, breaks, hread, hfound]
  exact ⟨rfl, rfl⟩

theorem entries_of_unread {e : FileError} (hread : fate.contents = .error e) :
    fate.entries q = none ∧ fate.breaks q = e.isRefused := by
  exact ⟨by rw [entries, hread], by rw [breaks, hread]⟩

/-- This is whether a scratch file can be made on the disk, and whether it can take the place of the file. -/
structure Rewrites (fate : Fate) (p : Path) (d : Disk) (tag : String) : Prop where
  enter : ((Staged.new p fate.device).enter d tag).toOption.isSome = fate.opens
  land : ∀ place data, Staged.Opens fate.device p d tag place →
    (Staged.landed (d.withFile place data 0o600) (Staged.scratchPath d tag p) p).toOption.isSome = fate.lands

/-- This is what becomes of the file in a session, where others change the disk between reading and rewriting. -/
structure Holds (fate : Fate) (others : Interference) (p : Path) (s : Session) : Prop where
  read : s.disk.read p = fate.contents
  rewrites : fate.Rewrites p (others p s.disk) s.scratchTag

end Fate

namespace Pass

variable {σ α β : Type} {pass : Pass σ α β} {q : Query} {t t' : Tally σ α} {s s' : Session} {p : Path}
  {files later : List Path} {parse : Bytes → Node} {settings : Settings} {start : σ} {fate : Fate}
  {fateOf : Path → Fate}

/-- A pass whose visits and conclusion always give a result. -/
structure Total (pass : Pass σ α β) : Prop where
  visit : ∀ state path contents entries s, ∃ r s',
    (pass.visit state path contents entries).run.run s = (.ok r, s')
  conclude : ∀ results s, ∃ r s', (pass.conclude results).run.run s = (.ok r, s')

theorem Total.amid (h : pass.Total) (others : Interference) : (pass.amid others).Total where
  visit state path contents entries s := by
    rw [amid_visit]
    exact h.visit state path contents entries (s.after (others path))
  conclude := h.conclude

theorem visitFile_breaks (hread : s.disk.read p = fate.contents)
    (h : (pass.visitFile q t p).run.run s = (.ok t', s')) : fate.breaks q = false := by
  rcases visitFile_ok h with ⟨e, herror, he, _, _⟩ | ⟨contents, entries, ns, _, _, hok, hfound, _, _⟩
  · rw [(Fate.entries_of_unread (hread.symm.trans herror)).2, he]
  · exact (Fate.entries_of_found (hread.symm.trans hok) hfound).2

theorem visitFile_total (hp : pass.Total) (hread : s.disk.read p = fate.contents) (hb : fate.breaks q = false)
    (t : Tally σ α) : ∃ t' s', (pass.visitFile q t p).run.run s = (.ok t', s') := by
  unfold visitFile
  rw [run_get_bind]
  cases hr : s.disk.read p with
  | error e =>
    rw [(Fate.entries_of_unread (hread.symm.trans hr)).2] at hb
    simp only [hb]
    exact ⟨_, _, rfl⟩
  | ok contents =>
    cases hs : (findEntries q contents).run.run [] with
    | mk found ns =>
      have hreport : (Session.reporting (findEntries q contents)).run.run s =
          (found.mapError Failure.fault, s.noting ns) := by
        simp only [Session.reporting, hs]
        cases found <;> rfl
      cases found with
      | error f =>
        simp only [Fate.breaks, hread.symm.trans hr, hs] at hb
        cases hb
      | ok entries =>
        obtain ⟨⟨state, result⟩, s', hvisit⟩ := hp.visit t.state p contents entries (s.noting ns)
        exact ⟨_, s', by simp only [run_bind_ok hreport, run_bind_ok hvisit]; rfl⟩

/-- Whichever of the files came before, in whatever order, `H` holds of a file when a pass comes to it. -/
def Unordered (pass : Pass σ α β) (q : Query) (start : σ) (files : List Path) (s : Session)
    (H : Path → Session → Prop) : Prop :=
  ∀ earlier p later t s1, (earlier ++ p :: later).Perm files →
    (pass.visitAll q ⟨start, [], []⟩ earlier).run.run s = (.ok t, s1) → H p s1

namespace Unordered

variable {H : Path → Session → Prop} (hU : pass.Unordered q start files s H)

include hU

/-- What holds at the start and is kept by every visit holds in the end, in every order. -/
theorem visitAll_keeps {I : List Path → Tally σ α → Prop} (hstart : I [] ⟨start, [], []⟩)
    (hstep : ∀ {visited p t t' s1 s2}, H p s1 → (pass.visitFile q t p).run.run s1 = (.ok t', s2) → I visited t →
      I (visited ++ [p]) t')
    {visited : List Path} (hperm : (visited ++ later).Perm files)
    (h : (pass.visitAll q ⟨start, [], []⟩ visited).run.run s = (.ok t, s')) : I visited t := by
  induction visited using List.reverseRecOn generalizing later t s' with
  | nil =>
    cases h
    exact hstart
  | append_singleton visited p ih =>
    rw [List.append_assoc, List.singleton_append] at hperm
    obtain ⟨t1, s1, h1, h2⟩ := of_visitAll_append h
    rw [visitAll] at h2
    obtain ⟨t2, s2, h2, h3⟩ := of_run_bind_ok h2
    cases h3
    exact hstep (hU visited p later t1 s1 hperm h1) h2 (ih hperm h1)

variable (hread : ∀ {p s1}, H p s1 → s1.disk.read p = (fateOf p).contents)

include hread

/-- None of the files that were visited breaks the pass. -/
theorem breaks_of_visitAll {visited : List Path} (hperm : (visited ++ later).Perm files)
    (h : (pass.visitAll q ⟨start, [], []⟩ visited).run.run s = (.ok t, s')) :
    ∀ p ∈ visited, (fateOf p).breaks q = false := by
  refine hU.visitAll_keeps (I := fun visited _ => ∀ p ∈ visited, (fateOf p).breaks q = false) ?_ ?_ hperm h
  · intro p hp
    cases hp
  · intro visited p t t' s1 s2 hH hvisit hvisited r hr
    rcases List.mem_append.mp hr with hr | hr
    · exact hvisited r hr
    · rw [List.mem_singleton.mp hr]
      exact visitFile_breaks (hread hH) hvisit

/-- Where no file breaks the pass, all are visited, in every order. -/
theorem visitAll_total (hp : pass.Total) (hb : ∀ p ∈ files, (fateOf p).breaks q = false) {visited : List Path}
    (hperm : (visited ++ later).Perm files) :
    ∃ t s', (pass.visitAll q ⟨start, [], []⟩ visited).run.run s = (.ok t, s') := by
  induction visited using List.reverseRecOn generalizing later with
  | nil => exact ⟨_, _, rfl⟩
  | append_singleton visited p ih =>
    rw [List.append_assoc, List.singleton_append] at hperm
    obtain ⟨t1, s1, h1⟩ := ih hperm
    have hmem : p ∈ files := hperm.subset (List.mem_append_right _ List.mem_cons_self)
    obtain ⟨t2, s2, h2⟩ := visitFile_total hp (hread (hU visited p later t1 s1 hperm h1)) (hb p hmem) t1
    exact ⟨t2, s2, by rw [visitAll_append h1, visitAll, run_bind_ok h2]; rfl⟩

end Unordered

/-- Batches that were all visited are files that were all visited; being asked whether to stop does not matter. -/
theorem visitAll_of_visitBatches (hp : pass.Steady) {batches : List (List Path)}
    (h : (pass.visitBatches q t batches).run.run s = (.ok t', s')) :
    (pass.visitAll q t batches.flatten).run.run s = (.ok t', s'.withStop s.stop) := by
  have hgo {s s' : Session} (h : Session.heedStop.run.run s = (.ok (), s')) : ∃ plan, s' = s.withStop plan := by
    rcases heedStop_cases s with ⟨s1, hstop, _⟩ | ⟨plan, hgo⟩
    · cases hstop.symm.trans h
    · cases hgo.symm.trans h
      exact ⟨plan, rfl⟩
  induction batches generalizing t s with
  | nil =>
    cases h
    rfl
  | cons batch rest ih =>
    rw [visitBatches] at h
    obtain ⟨_, s1, h1, h⟩ := of_run_bind_ok h
    obtain ⟨t2, s2, h2, h⟩ := of_run_bind_ok h
    obtain ⟨_, s3, h3, h⟩ := of_run_bind_ok h
    obtain ⟨plan, rfl⟩ := hgo h1
    obtain ⟨plan', rfl⟩ := hgo h3
    have hbatch : (pass.visitAll q t batch).run.run s = (.ok t2, s2.withStop s.stop) :=
      (hp.visitAll q t batch).run_withStop h2 s.stop
    have hrest := (hp.visitAll q t2 rest.flatten).run_withStop (ih h) s.stop
    rw [List.flatten_cons, visitAll_append hbatch]
    exact hrest

/-- A pass with a result has visited all files and drawn its conclusion. -/
theorem visitAll_of_run (hp : pass.Steady) {outcome : Outcome σ β}
    (h : (pass.run parse settings start files).run.run s = (.ok outcome, s')) :
    ∃ t s1 s2, (pass.visitAll (query parse settings) ⟨start, [], []⟩ files).run.run s = (.ok t, s1) ∧
      (pass.conclude t.results).run.run s2 = (.ok outcome.result, s') ∧ outcome.state = t.state := by
  rw [run] at h
  obtain ⟨t, s1, h1, h⟩ := of_run_bind_ok h
  obtain ⟨_, s2, _, h⟩ := of_run_bind_ok h
  obtain ⟨result, s3, h3, h⟩ := of_run_bind_ok h
  cases h
  have hall := visitAll_of_visitBatches hp h1
  rw [flatten_inBatches settings.workers_pos] at hall
  exact ⟨t, _, s2, hall, h3, rfl⟩

/-- In every order of the files, a result of the pass has the property. There is no result in any order if a file
breaks the pass, and one in every order if none does and the pass is not told to stop. -/
structure GivesInAnyOrder (pass : Pass σ α β) (parse : Bytes → Node) (settings : Settings) (start : σ)
    (files : List Path) (s : Session) (fateOf : Path → Fate) (P : Outcome σ β → Prop) : Prop where
  given : ∀ {files' outcome s'}, files'.Perm files →
    (pass.run parse settings start files').run.run s = (.ok outcome, s') →
    P outcome ∧ ∀ p ∈ files, (fateOf p).breaks (query parse settings) = false
  gives : (∀ p ∈ files, (fateOf p).breaks (query parse settings) = false) → s.stop = .never →
    ∀ {files'}, files'.Perm files → ∃ outcome s', (pass.run parse settings start files').run.run s = (.ok outcome, s')

/-- What follows, in every order, from what a tally of all files is known to have. -/
theorem Unordered.givesInAnyOrder {H : Path → Session → Prop}
    (hU : pass.Unordered (query parse settings) start files s H)
    (hread : ∀ {p s1}, H p s1 → s1.disk.read p = (fateOf p).contents) (hp : pass.Steady) (htotal : pass.Total)
    {I : List Path → Tally σ α → Prop} (hstart : I [] ⟨start, [], []⟩)
    (hstep : ∀ {visited p t t' s1 s2}, H p s1 →
      (pass.visitFile (query parse settings) t p).run.run s1 = (.ok t', s2) → I visited t → I (visited ++ [p]) t')
    {P : Outcome σ β → Prop}
    (hend : ∀ {files' t s2 s' outcome}, files'.Perm files → I files' t →
      (pass.conclude t.results).run.run s2 = (.ok outcome.result, s') → outcome.state = t.state → P outcome) :
    pass.GivesInAnyOrder parse settings start files s fateOf P where
  given := by
    intro files' outcome s' hperm h
    obtain ⟨t, s1, s2, hall, hconclude, hstate⟩ := visitAll_of_run hp h
    have hperm' : (files' ++ []).Perm files := by rwa [List.append_nil]
    refine ⟨hend hperm (hU.visitAll_keeps hstart hstep hperm' hall) hconclude hstate, ?_⟩
    intro p hmem
    exact hU.breaks_of_visitAll hread hperm' hall p (hperm.symm.subset hmem)
  gives := by
    intro hb hs files' hperm
    have hperm' : (files' ++ []).Perm files := by rwa [List.append_nil]
    obtain ⟨t, s1, hall⟩ := hU.visitAll_total hread htotal hb hperm'
    obtain ⟨result, s2, hconclude⟩ := htotal.conclude t.results s1
    refine ⟨⟨t.state, result, t.skipped⟩, s2, ?_⟩
    rw [run_never hp hs, whole, run_bind_ok hall, run_bind_ok hconclude]
    rfl

end Pass

end LogRef
