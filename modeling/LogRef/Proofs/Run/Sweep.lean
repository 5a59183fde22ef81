import Mathlib.Data.List.Forall2
import LogRef.Proofs.Discovery.Found
import LogRef.Proofs.Run.Stops

/-!
# What a pass does to the files

A visit is given the contents of its file and the entries in them; what it may do with them is a relation, and a
sweep is such steps one after the other. However a pass ends, it has swept the first of its files, and all of them
if it has a result. A sweep over different files changes each of them at most once.
-/
namespace LogRef

namespace Disk

variable {d d' d'' : Disk} {q : Query} {p : Path} {place : Place} {places : List Place} {contents : Bytes}
  {entries : List Entry} {files : List Path} {placeOf : Path → Place}

/-- The entries of a file, if it can be read and searched. -/
def found (d : Disk) (q : Query) (p : Path) : Option (List Entry) :=
  match d.read p with
  | .ok contents => ((findEntries q contents).run.run []).1.toOption
  | .error _ => none

/-- Whether a file can be read. -/
def canRead (d : Disk) (p : Path) : Bool := (d.read p).toOption.isSome

/-- If the file can be read, it can be searched. -/
def Searchable (d : Disk) (q : Query) (p : Path) : Prop := d.canRead p = true → (d.found q p).isSome = true

instance (d : Disk) (q : Query) (p : Path) : Decidable (d.Searchable q p) :=
  inferInstanceAs (Decidable (_ → _))

/-- A file has these contents and these entries. -/
structure Shows (d : Disk) (q : Query) (p : Path) (contents : Bytes) (entries : List Entry) : Prop where
  read : d.read p = .ok contents
  search : ((findEntries q contents).run.run []).1 = .ok entries

theorem Shows.found_eq (h : d.Shows q p contents entries) : d.found q p = some entries := by
  rw [found, h.read]
  simp only [h.search]
  rfl

theorem found_of_unread (h : ∀ contents, d.read p ≠ .ok contents) : d.found q p = none := by
  rw [found]
  cases hr : d.read p with
  | ok contents => exact absurd hr (h contents)
  | error e => rfl

theorem canRead_iff : d.canRead p = true ↔ ∃ contents, d.read p = .ok contents := by
  rw [canRead]
  cases d.read p <;> simp [Except.toOption]

theorem canRead_of_read (h : d.read p = .ok contents) : d.canRead p = true := by
  rw [canRead, h]
  rfl

theorem canRead_of_unread (h : ∀ contents, d.read p ≠ .ok contents) : d.canRead p = false := by
  rw [canRead]
  cases hr : d.read p with
  | ok contents => exact absurd hr (h contents)
  | error e => rfl

theorem exists_shows (h : d.found q p = some entries) : ∃ contents, d.Shows q p contents entries := by
  unfold found at h
  split at h
  · next contents hr =>
    refine ⟨contents, hr, ?_⟩
    cases hs : ((findEntries q contents).run.run []).1 with
    | ok es => rw [hs] at h; exact congrArg Except.ok (Option.some.inj h)
    | error f => rw [hs] at h; cases h
  · cases h

/-- Only the contents of files have changed, and only at some places. -/
structure SameBeside (places : List Place) (d d' : Disk) : Prop where
  like : d.Like d'
  beside : ∀ place ∉ places, d'.tree.get? place = d.tree.get? place

namespace SameBeside

theorem refl (places : List Place) (d : Disk) : SameBeside places d d := ⟨.refl d, fun _ _ => rfl⟩

theorem trans (h : SameBeside places d d') (h' : SameBeside places d' d'') : SameBeside places d d'' :=
  ⟨h.like.trans h'.like, fun place hp => (h'.beside place hp).trans (h.beside place hp)⟩

theorem mono {more : List Place} (h : SameBeside places d d') (hsub : places ⊆ more) : SameBeside more d d' :=
  ⟨h.like, fun place hp => h.beside place fun hin => hp (hsub hin)⟩

theorem finds (h : SameBeside places d d') (hf : d.Finds files placeOf) : d'.Finds files placeOf :=
  ⟨fun p hp => (hf.plain p hp).like h.like, hf.distinct⟩

/-- A path that leads to none of the places, or nowhere, is read as before. -/
theorem read_apart (h : SameBeside places d d')
    (hplace : ∀ place item, d.locate true p = .ok (.occupied place item) → place ∉ places) :
    d'.read p = d.read p := by
  rcases locate_alike h.like true p with heq | ⟨place, data, data', mode, hd, hd'⟩
  · rw [read, read, heq, h.like.unreadable]
  · have hget := get?_of_locate hd' (by simp)
    rw [h.beside place (hplace place _ hd), get?_of_locate hd (by simp)] at hget
    obtain ⟨rfl, _⟩ := Item.file.inj (Option.some.inj hget)
    rw [read, read, hd, hd', h.like.unreadable]

theorem read_eq (h : SameBeside places d d') (hp : d.Plain p place) (hplace : place ∉ places) :
    d'.read p = d.read p := by
  obtain ⟨data, mode, hall⟩ := hp
  refine h.read_apart fun place' item hl => ?_
  rw [hall] at hl
  exact (Destination.occupied.inj (Except.ok.inj hl)).1 ▸ hplace

theorem found_eq (h : SameBeside places d d') (hp : d.Plain p place) (hplace : place ∉ places) (q : Query) :
    d'.found q p = d.found q p := by
  rw [found, found, h.read_eq hp hplace]

theorem canRead_eq (h : SameBeside places d d') (hp : d.Plain p place) (hplace : place ∉ places) :
    d'.canRead p = d.canRead p := by
  rw [canRead, canRead, h.read_eq hp hplace]

theorem searchable_iff (h : SameBeside places d d') (hp : d.Plain p place) (hplace : place ∉ places) (q : Query) :
    d'.Searchable q p ↔ d.Searchable q p := by
  rw [Searchable, Searchable, h.canRead_eq hp hplace, h.found_eq hp hplace]

end SameBeside

namespace Finds

theorem place_eq (h : d.Finds files placeOf) (hp : p ∈ files) {item : Item}
    (hl : d.locate true p = .ok (.occupied place item)) : place = placeOf p := by
  obtain ⟨data, mode, hall⟩ := h.plain p hp
  rw [hall] at hl
  exact (Destination.occupied.inj (Except.ok.inj hl)).1.symm

theorem tail {rest : List Path} (h : d.Finds (p :: rest) placeOf) : d.Finds rest placeOf :=
  ⟨fun r hr => h.plain r (List.mem_cons_of_mem _ hr), (List.nodup_cons.mp h.distinct).2⟩

theorem ne_head {rest : List Path} (h : d.Finds (p :: rest) placeOf) {r : Path} (hr : r ∈ rest) :
    placeOf r ∉ [placeOf p] := by
  intro hmem
  have hne := (List.nodup_cons.mp h.distinct).1
  rw [List.mem_singleton.mp hmem |>.symm] at hne
  exact hne (List.mem_map_of_mem hr)

theorem sublist {some_ : List Path} (h : d.Finds files placeOf) (hsub : some_.Sublist files) :
    d.Finds some_ placeOf :=
  ⟨fun p hp => h.plain p (hsub.subset hp), h.distinct.sublist (hsub.map placeOf)⟩

end Finds

end Disk

namespace Pass

open Run

/-- What a visit may do with a file, its contents and its entries, from one state and disk to the next. -/
abbrev Step (σ α : Type) := Path → Bytes → List Entry → σ → Disk → σ → Option α → Disk → Prop

variable {σ α β : Type} {pass : Pass σ α β} {step : Step σ α} {total : List α → β} {q : Query}
  {t t' : Tally σ α} {s s' : Session} {files rest : List Path} {parse : Bytes → Node} {settings : Settings} {start : σ}
  {path : Path}
  {d d' : Disk} {placeOf : Path → Place}

/-- What is known of a pass: how its visits go, none of which fails, and what it makes of their results. -/
structure Meets (pass : Pass σ α β) (step : Step σ α) (total : List α → β) : Prop where
  visit : ∀ (state : σ) {path : Path} {contents : Bytes} (entries : List Entry) {s : Session},
    s.disk.read path = .ok contents →
    ∃ state' result s', (pass.visit state path contents entries).run.run s = (.ok (state', result), s') ∧
      step path contents entries state s.disk state' result s'.disk
  conclude : ∀ results s, ∃ ns, (pass.conclude results).run.run s = (.ok (total results), s.noting ns)

/-- Steps through files, one after the other; a file that cannot be read is passed over. -/
inductive Swept (step : Step σ α) (q : Query) : List Path → Tally σ α → Disk → Tally σ α → Disk → Prop
  | done (t : Tally σ α) (d : Disk) : Swept step q [] t d t d
  | unread {p : Path} {rest : List Path} {t t' : Tally σ α} {d d' : Disk}
    (h : ∀ contents, d.read p ≠ .ok contents)
    (hrest : Swept step q rest { t with skipped := t.skipped ++ [p] } d t' d') :
    Swept step q (p :: rest) t d t' d'
  | visited {p : Path} {rest : List Path} {t t' : Tally σ α} {d d1 d' : Disk} {contents : Bytes}
    {entries : List Entry} {state : σ} {result : Option α} (hshow : d.Shows q p contents entries)
    (hstep : step p contents entries t.state d state result d1)
    (hrest : Swept step q rest { t with state, results := t.results ++ result.toList } d1 t' d') :
    Swept step q (p :: rest) t d t' d'

theorem visitFile_of_shows (hm : pass.Meets step total) {contents : Bytes} {entries : List Entry}
    (h : s.disk.Shows q path contents entries) (t : Tally σ α) :
    ∃ state result s', (pass.visitFile q t path).run.run s =
        (.ok { t with state, results := t.results ++ result.toList }, s') ∧
      step path contents entries t.state s.disk state result s'.disk := by
  obtain ⟨ns, hsearch⟩ : ∃ ns, (findEntries q contents).run.run [] = (.ok entries, ns) := ⟨_, Prod.ext h.search rfl⟩
  have hreport : (Session.reporting (findEntries q contents)).run.run s = (.ok entries, s.noting ns) := by
    simp only [Session.reporting, hsearch]
    rfl
  obtain ⟨state, result, s', hvisit, hstep⟩ := hm.visit t.state entries (s := s.noting ns) h.read
  refine ⟨state, result, s', ?_, hstep⟩
  unfold visitFile
  rw [run_get_bind]
  simp only [h.read]
  rw [run_bind_ok hreport, run_bind_ok hvisit]
  rfl

/-- A visit fails before anything is done, passes over its file, or is a step. -/
theorem visitFile_cases (q : Query) (t : Tally σ α) (path : Path) (s : Session) :
    (∃ f s', (pass.visitFile q t path).run.run s = (.error (.fault f), s') ∧ s'.disk = s.disk) ∨
      (∃ s', (pass.visitFile q t path).run.run s = (.ok { t with skipped := t.skipped ++ [path] }, s') ∧
        s'.disk = s.disk ∧ ∀ contents, s.disk.read path ≠ .ok contents) ∨
      ∃ contents entries, s.disk.Shows q path contents entries := by
  unfold visitFile
  rw [run_get_bind]
  cases hr : s.disk.read path with
  | error e =>
    by_cases href : e.isRefused = true
    · refine .inl ⟨.file e, s, ?_, rfl⟩
      simp only [href, if_true]
      rfl
    · refine .inr (.inl ⟨s.noting [.readFailed path.toString e.message], ?_, rfl, fun _ h => by cases h⟩)
      simp only [href]
      rfl
  | ok contents =>
    cases hs : (findEntries q contents).run.run [] with
    | mk result ns =>
      cases result with
      | ok entries => exact .inr (.inr ⟨contents, entries, hr, by rw [hs]⟩)
      | error f =>
        have hreport : (Session.reporting (findEntries q contents)).run.run s = (.error (.fault f), s.noting ns) := by
          simp only [Session.reporting, hs]
          rfl
        exact .inl ⟨f, s.noting ns, run_bind_error hreport, rfl⟩

theorem swept_of_visitAll (hm : pass.Meets step total)
    (h : (pass.visitAll q t files).run.run s = (.ok t', s')) : Swept step q files t s.disk t' s'.disk := by
  induction files generalizing t s with
  | nil =>
    obtain ⟨ht, rfl⟩ := Prod.mk.inj h
    obtain rfl := Except.ok.inj ht
    exact .done t s.disk
  | cons path rest ih =>
    rw [visitAll] at h
    obtain ⟨t1, s1, h1, h2⟩ := of_run_bind_ok h
    rcases pass.visitFile_cases q t path s with
      ⟨f, s2, hfail, _⟩ | ⟨s2, hskip, hdisk, hunread⟩ | ⟨contents, entries, hshow⟩
    · rw [hfail] at h1; cases h1
    · rw [hskip] at h1
      cases h1
      exact .unread hunread (hdisk ▸ ih h2)
    · obtain ⟨state, result, s2, hvisit, hstep⟩ := visitFile_of_shows hm hshow t
      rw [hvisit] at h1
      cases h1
      exact .visited hshow hstep (ih h2)

/-- Visits that fail, which is by a fault, have been through the first files before. -/
theorem visitAll_prefix (hm : pass.Meets step total) {f : Failure}
    (h : (pass.visitAll q t files).run.run s = (.error f, s')) :
    ∃ ran t1 s1, ran <+: files ∧ (pass.visitAll q t ran).run.run s = (.ok t1, s1) ∧ s'.disk = s1.disk ∧
      ∃ g, f = .fault g := by
  induction files generalizing t s with
  | nil => cases h
  | cons path rest ih =>
    have hnext {t1 : Tally σ α} {s1 : Session} (h1 : (pass.visitFile q t path).run.run s = (.ok t1, s1)) :
        ∃ ran t2 s2, ran <+: path :: rest ∧ (pass.visitAll q t ran).run.run s = (.ok t2, s2) ∧
          s'.disk = s2.disk ∧ ∃ g, f = .fault g := by
      rw [visitAll, run_bind_ok h1] at h
      obtain ⟨ran, t2, s2, hran, hrun, hdisk⟩ := ih h
      exact ⟨path :: ran, t2, s2, (List.prefix_cons_inj path).mpr hran, by rw [visitAll, run_bind_ok h1, hrun], hdisk⟩
    rcases pass.visitFile_cases q t path s with ⟨g, s2, hfail, hdisk⟩ | ⟨s2, hskip, _⟩ | ⟨contents, entries, hshow⟩
    · rw [visitAll, run_bind_error hfail] at h
      obtain ⟨hf, rfl⟩ := Prod.mk.inj h
      exact ⟨[], t, s, List.nil_prefix, rfl, hdisk, g, (Except.error.inj hf).symm⟩
    · exact hnext hskip
    · obtain ⟨state, result, s2, hvisit, _⟩ := visitFile_of_shows hm hshow t
      exact hnext hvisit

theorem heedStop_cases (s : Session) :
    (∃ s', Session.heedStop.run.run s = (.error .cancelled, s') ∧ s'.disk = s.disk) ∨
      ∃ plan, Session.heedStop.run.run s = (.ok (), s.withStop plan) := by
  obtain ⟨disk, notices, stop, tag⟩ := s
  match stop with
  | .never => exact .inr ⟨.never, rfl⟩
  | .always => exact .inl ⟨_, rfl, rfl⟩
  | .after (n + 1) signal => exact .inr ⟨.after n signal, rfl⟩
  | .after 0 none => exact .inl ⟨_, rfl, rfl⟩
  | .after 0 (some number) => exact .inl ⟨_, rfl, rfl⟩

/-- However the batches come to an end, the first files have been visited. -/
theorem visitBatches_prefix (hm : pass.Meets step total) (hp : pass.Steady) {batches : List (List Path)}
    {r : Except Failure (Tally σ α)} (h : (pass.visitBatches q t batches).run.run s = (r, s')) :
    ∃ ran t1 s1, ran <+: batches.flatten ∧ (pass.visitAll q t ran).run.run s = (.ok t1, s1) ∧
      s'.disk = s1.disk ∧
      ((r = .ok t1 ∧ ran = batches.flatten) ∨ r = .error .cancelled ∨ ∃ f, r = .error (.fault f)) := by
  induction batches generalizing t s with
  | nil =>
    obtain ⟨rfl, rfl⟩ := Prod.mk.inj h
    exact ⟨[], t, s, List.nil_prefix, rfl, rfl, .inl ⟨rfl, rfl⟩⟩
  | cons batch rest ih =>
    rw [visitBatches] at h
    rw [List.flatten_cons]
    rcases heedStop_cases s with ⟨s2, hstop, hdisk⟩ | ⟨plan, hgo⟩
    · rw [run_bind_error hstop] at h
      obtain ⟨rfl, rfl⟩ := Prod.mk.inj h
      exact ⟨[], t, s, List.nil_prefix, rfl, hdisk, .inr (.inl rfl)⟩
    rw [run_bind_ok hgo] at h
    cases hbatch : (pass.visitAll q t batch).run.run s with
    | mk result s1 =>
      have hbatch' := (hp.visitAll q t batch).run_withStop hbatch plan
      cases result with
      | error f =>
        rw [run_bind_error hbatch'] at h
        obtain ⟨rfl, rfl⟩ := Prod.mk.inj h
        obtain ⟨ran, t2, s2, hran, hrun, hdisk, g, rfl⟩ := visitAll_prefix hm hbatch
        exact ⟨ran, t2, s2, hran.trans (List.prefix_append _ _), hrun, hdisk, .inr (.inr ⟨g, rfl⟩)⟩
      | ok t1 =>
        rw [run_bind_ok hbatch'] at h
        rcases heedStop_cases (s1.withStop plan) with ⟨s2, hstop, hdisk⟩ | ⟨plan', hgo'⟩
        · rw [run_bind_error hstop] at h
          obtain ⟨rfl, rfl⟩ := Prod.mk.inj h
          exact ⟨batch, t1, s1, List.prefix_append _ _, hbatch, hdisk, .inr (.inl rfl)⟩
        rw [run_bind_ok hgo'] at h
        obtain ⟨ran, t2, s2, hran, hrun, hdisk, hr⟩ := ih h
        -- the rest ran with another plan to stop, which its visits do not look at
        have hsteady := hp.visitAll q t1 ran s1 plan'
        rw [show s1.withStop plan' = (s1.withStop plan).withStop plan' from rfl, hrun] at hsteady
        obtain ⟨h1, h2⟩ := Prod.mk.inj hsteady
        refine ⟨batch ++ ran, t2, ((pass.visitAll q t1 ran).run.run s1).2, List.prefix_append_right_inj _ |>.mpr hran,
          ?_, hdisk.trans (by rw [h2]; rfl), ?_⟩
        · rw [visitAll_append hbatch]
          exact Prod.ext h1.symm rfl
        · rcases hr with ⟨hr, hall⟩ | hr
          · exact .inl ⟨hr, by rw [hall]⟩
          · exact .inr hr

/-- However a pass ends, it has visited the first files; if it has a result, all of them. It ends without one when it
is told to stop and by a fault. -/
theorem run_prefix (hm : pass.Meets step total) (hp : pass.Steady) {r : Except Failure (Outcome σ β)}
    (h : (pass.run parse settings start files).run.run s = (r, s')) :
    ∃ ran t1 s1, ran <+: files ∧ (pass.visitAll (query parse settings) ⟨start, [], []⟩ ran).run.run s = (.ok t1, s1) ∧
      s'.disk = s1.disk ∧
      ((r = .ok ⟨t1.state, total t1.results, t1.skipped⟩ ∧ ran = files) ∨ r = .error .cancelled ∨
        ∃ f, r = .error (.fault f)) := by
  rw [run] at h
  cases hb : (pass.visitBatches (query parse settings) ⟨start, [], []⟩
      (inBatches settings.workers files)).run.run s with
  | mk result s2 =>
    obtain ⟨ran, t1, s1, hran, hrun, hdisk, hr⟩ := visitBatches_prefix hm hp hb
    rw [flatten_inBatches settings.workers_pos] at hran hr
    cases result with
    | error f =>
      rw [run_bind_error hb] at h
      obtain ⟨rfl, rfl⟩ := Prod.mk.inj h
      refine ⟨ran, t1, s1, hran, hrun, hdisk, .inr ?_⟩
      rcases hr with ⟨hr, _⟩ | hr | ⟨g, hr⟩
      · cases hr
      · cases hr
        exact .inl rfl
      · cases hr
        exact .inr ⟨g, rfl⟩
    | ok t2 =>
      obtain ⟨ht, hall⟩ : t2 = t1 ∧ ran = files := by
        rcases hr with ⟨hr, hall⟩ | hr | ⟨f, hr⟩
        · exact ⟨Except.ok.inj hr, hall⟩
        · cases hr
        · cases hr
      subst ht
      rw [run_bind_ok hb] at h
      rcases heedStop_cases s2 with ⟨s3, hstop, hdisk'⟩ | ⟨plan, hgo⟩
      · rw [run_bind_error hstop] at h
        obtain ⟨rfl, rfl⟩ := Prod.mk.inj h
        exact ⟨ran, t2, s1, hran, hrun, hdisk'.trans hdisk, .inr (.inl rfl)⟩
      · obtain ⟨ns, hconclude⟩ := hm.conclude t2.results (s2.withStop plan)
        rw [run_bind_ok hgo, run_bind_ok hconclude] at h
        obtain ⟨rfl, rfl⟩ := Prod.mk.inj h
        exact ⟨ran, t2, s1, hran, hrun, hdisk, .inl ⟨rfl, hall⟩⟩

/-- A pass with a result has swept all files. -/
theorem swept_of_run (hm : pass.Meets step total) (hp : pass.Steady) {outcome : Outcome σ β}
    (h : (pass.run parse settings start files).run.run s = (.ok outcome, s')) :
    ∃ t, Swept step (query parse settings) files ⟨start, [], []⟩ s.disk t s'.disk ∧
      outcome = ⟨t.state, total t.results, t.skipped⟩ := by
  obtain ⟨ran, t, s1, _, hrun, hdisk, ⟨hr, rfl⟩ | hr | ⟨f, hr⟩⟩ := run_prefix hm hp h
  · exact ⟨t, hdisk ▸ swept_of_visitAll hm hrun, Except.ok.inj hr⟩
  · cases hr
  · cases hr

/-- Steps that change nothing but the contents of their own file. -/
def Contained (step : Step σ α) : Prop :=
  ∀ {p contents entries state d state' result d' place}, step p contents entries state d state' result d' →
    d.Plain p place → Disk.SameBeside [place] d d'

theorem Swept.sameBeside (hc : Contained step) (h : Swept step q files t d t' d') (hf : d.Finds files placeOf) :
    Disk.SameBeside (files.map placeOf) d d' := by
  induction h with
  | done t d => exact .refl _ d
  | unread _ _ ih => exact (ih hf.tail).mono (List.subset_cons_self _ _)
  | visited hshow hstep _ ih =>
    have hone := hc hstep (hf.plain _ List.mem_cons_self)
    have hrest := ih (hone.finds hf.tail)
    exact (hone.mono (List.cons_subset_cons _ (List.nil_subset _))).trans (hrest.mono (List.subset_cons_self _ _))

/-- Results are only added. -/
theorem Swept.results_subset (h : Swept step q files t d t' d') : t.results ⊆ t'.results := by
  induction h with
  | done t d => exact List.Subset.refl _
  | unread _ _ ih => exact ih
  | visited _ _ _ ih => exact List.Subset.trans (List.subset_append_left _ _) ih

/-- In a sweep over different files every file still has the entries it had at the start, so what a step says of its
entries and its result, all steps say of those. -/
theorem Swept.results {I : σ → Prop} {P : List Entry → Option α → Prop} (hc : Contained step)
    (hP : ∀ {p contents entries state d state' result d'}, step p contents entries state d state' result d' →
      I state → I state' ∧ P entries result)
    (h : Swept step q files t d t' d') (hf : d.Finds files placeOf) (hI : I t.state) :
    ∃ rs, List.Forall₂ P (files.filterMap (d.found q)) rs ∧ t'.results = t.results ++ rs.reduceOption := by
  induction h with
  | done t d => exact ⟨[], .nil, (List.append_nil _).symm⟩
  | unread hunread _ ih =>
    obtain ⟨rs, hrs, hresults⟩ := ih hf.tail hI
    exact ⟨rs, by rwa [List.filterMap_cons, Disk.found_of_unread hunread], hresults⟩
  | @visited p rest t t' d d1 d' contents entries state result hshow hstep _ ih =>
    have hone := hc hstep (hf.plain p List.mem_cons_self)
    obtain ⟨rs, hrs, hresults⟩ := ih (hone.finds hf.tail) (hP hstep hI).1
    have hfound : rest.filterMap (d1.found q) = rest.filterMap (d.found q) :=
      List.filterMap_congr fun r hr => hone.found_eq (hf.tail.plain r hr) (hf.ne_head hr) q
    refine ⟨result :: rs, ?_, ?_⟩
    · rw [List.filterMap_cons, hshow.found_eq]
      exact .cons (hP hstep hI).2 (hfound ▸ hrs)
    · rw [hresults, List.append_assoc]
      congr 1
      cases result <;> rfl

/-- A sweep over plain files passes over those that could not be read at the start. -/
theorem Swept.skipped (hc : Contained step) (h : Swept step q files t d t' d') (hf : d.Finds files placeOf) :
    t'.skipped = t.skipped ++ files.filter fun p => !d.canRead p := by
  induction h with
  | done t d => exact (List.append_nil _).symm
  | unread hunread _ ih =>
    rw [ih hf.tail, List.filter_cons, if_pos (by rw [Disk.canRead_of_unread hunread]; rfl), List.append_assoc]
    rfl
  | @visited p rest t t' d d1 d' contents entries state result hshow hstep _ ih =>
    have hone := hc hstep (hf.plain p List.mem_cons_self)
    have hsame : rest.filter (fun r => !d1.canRead r) = rest.filter fun r => !d.canRead r :=
      List.filter_congr fun r hr => by rw [hone.canRead_eq (hf.tail.plain r hr) (hf.ne_head hr)]
    rw [ih (hone.finds hf.tail), hsame, List.filter_cons,
      if_neg (by rw [Disk.canRead_of_read hshow.read]; exact Bool.false_ne_true)]

/-- What a sweep over plain files has been through could be searched at the start, if it could be read. -/
theorem Swept.searchable (hc : Contained step) (h : Swept step q files t d t' d') (hf : d.Finds files placeOf) :
    ∀ p ∈ files, d.Searchable q p := by
  induction h with
  | done t d => exact fun _ hp => (List.not_mem_nil hp).elim
  | unread hunread _ ih =>
    intro r hr hread
    rcases List.mem_cons.mp hr with rfl | hr
    · rw [Disk.canRead_of_unread hunread] at hread
      cases hread
    · exact ih hf.tail r hr hread
  | visited hshow hstep _ ih =>
    intro r hr
    have hone := hc hstep (hf.plain _ List.mem_cons_self)
    rcases List.mem_cons.mp hr with rfl | hr
    · intro _
      rw [hshow.found_eq]
      rfl
    · exact (hone.searchable_iff (hf.tail.plain r hr) (hf.ne_head hr) q).mp (ih (hone.finds hf.tail) r hr)

/-- A file that can be searched is passed over or visited. -/
theorem visitFile_of_searchable (hm : pass.Meets step total) {place : Place} (hp : s.disk.Plain p place)
    (hsearch : s.disk.Searchable q p) (t : Tally σ α) :
    (∃ s', (pass.visitFile q t p).run.run s = (.ok { t with skipped := t.skipped ++ [p] }, s') ∧ s'.disk = s.disk) ∨
      ∃ contents entries state result s', s.disk.Shows q p contents entries ∧
        (pass.visitFile q t p).run.run s = (.ok { t with state, results := t.results ++ result.toList }, s') ∧
        step p contents entries t.state s.disk state result s'.disk := by
  obtain ⟨data, _, _, hread⟩ := hp.get?
  by_cases hunreadable : place ∈ s.disk.unreadable
  · rw [if_pos hunreadable] at hread
    refine .inl ⟨s.noting [.readFailed p.toString (FileError.message ⟨.deviceFailed, p.toString, none⟩)], ?_, rfl⟩
    unfold visitFile
    rw [run_get_bind, hread]
    rfl
  · rw [if_neg hunreadable] at hread
    obtain ⟨entries, hentries⟩ := Option.isSome_iff_exists.mp (hsearch (Disk.canRead_of_read hread))
    obtain ⟨contents, hshow⟩ := Disk.exists_shows hentries
    obtain ⟨state, result, s1, hvisit, hstep⟩ := visitFile_of_shows hm hshow t
    exact .inr ⟨contents, entries, state, result, s1, hshow, hvisit, hstep⟩

/-- Visits to different files that can all be searched do not fail. -/
theorem visitAll_ok (hm : pass.Meets step total) (hc : Contained step) (hf : s.disk.Finds files placeOf)
    (hsearch : ∀ p ∈ files, s.disk.Searchable q p) (t : Tally σ α) :
    ∃ t' s', (pass.visitAll q t files).run.run s = (.ok t', s') := by
  induction files generalizing t s with
  | nil => exact ⟨t, s, rfl⟩
  | cons path rest ih =>
    have hplain := hf.plain path List.mem_cons_self
    have hrest := fun p hp => hsearch p (List.mem_cons_of_mem path hp)
    rcases visitFile_of_searchable hm hplain (hsearch path List.mem_cons_self) t with
      ⟨s1, hvisit, hdisk⟩ | ⟨_, _, _, _, s1, _, hvisit, hstep⟩
    · obtain ⟨t', s', hall⟩ := ih (hdisk ▸ hf.tail) (hdisk ▸ hrest) { t with skipped := t.skipped ++ [path] }
      exact ⟨t', s', by rw [visitAll, run_bind_ok hvisit, hall]⟩
    · have hone := hc hstep hplain
      have hsearch' : ∀ p ∈ rest, s1.disk.Searchable q p := fun p hp =>
        (hone.searchable_iff (hf.tail.plain p hp) (hf.ne_head hp) q).mpr (hrest p hp)
      obtain ⟨t', s', hall⟩ := ih (hone.finds hf.tail) hsearch' _
      exact ⟨t', s', by rw [visitAll, run_bind_ok hvisit, hall]⟩

/-- Steps that change no file: the result is a function of the entries. -/
def quietly (f : List Entry → Option α) : Step σ α :=
  fun _ _ entries _ d _ result d' => d' = d ∧ result = f entries

theorem contained_quietly (f : List Entry → Option α) : Contained (quietly (σ := σ) f) := by
  rintro p contents entries state d state' result d' place ⟨rfl, _⟩ _
  exact .refl _ _

theorem Swept.quiet {f : List Entry → Option α} (h : Swept (quietly f) q files t d t' d') :
    d' = d ∧ t'.results = t.results ++ (files.filterMap (d.found q)).filterMap f := by
  induction h with
  | done t d => exact ⟨rfl, (List.append_nil _).symm⟩
  | unread hunread _ ih => rwa [List.filterMap_cons, Disk.found_of_unread hunread]
  | visited hshow hstep _ ih =>
    obtain ⟨rfl, rfl⟩ := hstep
    obtain ⟨rfl, hresults⟩ := ih
    refine ⟨rfl, ?_⟩
    rw [hresults, List.filterMap_cons, hshow.found_eq, List.append_assoc]
    congr 1
    simp only [List.filterMap_cons]
    cases f _ <;> rfl

end Pass

end LogRef
