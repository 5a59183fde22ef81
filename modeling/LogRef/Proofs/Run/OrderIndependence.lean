import LogRef.Proofs.Run.AnyOrder
import LogRef.Proofs.Run.UniqueIds

/-!
# The order of the files does not matter

A survey and a count add up what they find file by file. An insertion hands out ids in the order of its files, but how
many are asked for does not depend on the order, and so neither does where the counter ends nor whether ids run out. A
file whose rewriting breaks off has asked for the ids up to there.
-/
namespace LogRef

open Run

namespace Pass

theorem addUp_concat (counts : List Int) (n : Int) : addUp (counts ++ [n]) = addUp counts + n := by
  induction counts with
  | nil => simp [addUp]
  | cons m counts ih => rw [List.cons_append, addUp_cons, addUp_cons, ih, Int.add_assoc]

theorem addUp_perm {counts counts' : List Int} (h : counts.Perm counts') : addUp counts = addUp counts' := by
  induction h with
  | nil => rfl
  | cons n _ ih => rw [addUp_cons, addUp_cons, ih]
  | swap m n counts => rw [addUp_cons, addUp_cons, addUp_cons, addUp_cons, Int.add_left_comm]
  | trans _ _ ih ih' => exact ih.trans ih'

variable {σ α β : Type} {pass : Pass σ α β} {f : List Entry → Option α} {q : Query} {start : σ} {files : List Path}
  {s s1 s2 : Session} {fateOf : Path → Fate} {parse : Bytes → Node} {settings : Settings} {t t' : Tally σ α}
  {visited : List Path} {p : Path}

/-- The entries of the files that can be searched. -/
def entriesOf (q : Query) (fateOf : Path → Fate) (files : List Path) : List (List Entry) :=
  files.filterMap fun p => (fateOf p).entries q

theorem entriesOf_concat (q : Query) (fateOf : Path → Fate) (files : List Path) (p : Path) :
    entriesOf q fateOf (files ++ [p]) = entriesOf q fateOf files ++ ((fateOf p).entries q).toList := by
  rw [entriesOf, List.filterMap_append, entriesOf]
  cases h : (fateOf p).entries q <;> simp [h]

/-- A pass whose result for a file is a function of the entries. -/
def Yields (pass : Pass σ α β) (f : List Entry → Option α) : Prop :=
  ∀ state path contents entries s, ∃ state' s',
    (pass.visit state path contents entries).run.run s = (.ok (state', f entries), s')

theorem Yields.amid (h : pass.Yields f) (others : Interference) : (pass.amid others).Yields f :=
  fun state path contents entries s => h state path contents entries (s.after (others path))

theorem Yields.visitFile (hf : pass.Yields f) (hread : s1.disk.read p = (fateOf p).contents)
    (h : (pass.visitFile q t p).run.run s1 = (.ok t', s2))
    (ht : t.results = (entriesOf q fateOf visited).filterMap f) :
    t'.results = (entriesOf q fateOf (visited ++ [p])).filterMap f := by
  rw [entriesOf_concat, List.filterMap_append, ← ht]
  rcases visitFile_ok h with ⟨e, herror, _, rfl, _⟩ | ⟨contents, entries, ns, state, result, hok, hfound, hvisit, rfl⟩
  · rw [(Fate.entries_of_unread (hread.symm.trans herror)).1]
    exact (List.append_nil _).symm
  · obtain ⟨state', s', hrun⟩ := hf t.state p contents entries (s1.noting ns)
    cases hrun.symm.trans hvisit
    rw [(Fate.entries_of_found (hread.symm.trans hok) hfound).1]
    cases h : f entries <;> simp [h]

/-- What is made of the results of such a pass, in any order. -/
theorem Yields.givesInAnyOrder (hf : pass.Yields f) (hsteady : pass.Steady) (htotal : pass.Total)
    (hU : pass.Unordered (query parse settings) start files s fun p s1 => s1.disk.read p = (fateOf p).contents)
    {P : β → Prop}
    (hend : ∀ {files' s2 s' result}, files'.Perm files →
      (pass.conclude ((entriesOf (query parse settings) fateOf files').filterMap f)).run.run s2 = (.ok result, s') →
      P result) :
    pass.GivesInAnyOrder parse settings start files s fateOf fun outcome => P outcome.result := by
  refine hU.givesInAnyOrder
    (I := fun visited t => t.results = (entriesOf (query parse settings) fateOf visited).filterMap f) (fun h => h)
    hsteady htotal rfl (fun hread hvisit ht => hf.visitFile hread hvisit ht) ?_
  intro files' t s2 s' outcome hperm ht hconclude _
  rw [ht] at hconclude
  exact hend hperm hconclude

end Pass

namespace Survey

/-- Some of the ids that reach up to all of them have the same greatest. -/
theorem greatest_eq {tops ids : List Int} (hsub : ∀ n ∈ tops, n ∈ ids) (hcover : ∀ n ∈ ids, ∃ top ∈ tops, n ≤ top) :
    greatest tops = greatest ids := by
  cases h : greatest ids with
  | none =>
    obtain rfl : ids = [] := List.max?_eq_none_iff.mp h
    have hnone : tops = [] := List.eq_nil_iff_forall_not_mem.mpr fun n hn => List.not_mem_nil (hsub n hn)
    rw [hnone]
    rfl
  | some most =>
    obtain ⟨hmem, hle⟩ := List.max?_eq_some_iff.mp h
    obtain ⟨top, htop, hmost⟩ := hcover most hmem
    obtain rfl : top = most := Int.le_antisymm (hle top (hsub top htop)) hmost
    exact List.max?_eq_some_iff.mpr ⟨htop, fun n hn => hle n (hsub n hn)⟩

/-- The references in some entries. -/
def references (found : List (List Entry)) : List Int := found.flatMap fun entries => entries.filterMap Entry.reference

/-- One more than the greatest of some ids, or the first id. -/
def following (ids : List Int) : Int := 1 + (greatest ids).getD 0

theorem nextId_conclude (found : List (List Entry)) :
    (conclude (found.filterMap ofEntries)).nextId = following (references found) := by
  have htops : greatest ((found.filterMap ofEntries).filterMap FileSurvey.greatest) = greatest (references found) := by
    apply greatest_eq
    · intro n hn
      obtain ⟨survey, hsurvey, htop⟩ := List.mem_filterMap.mp hn
      obtain ⟨entries, hentries, hof⟩ := List.mem_filterMap.mp hsurvey
      refine List.mem_flatMap.mpr ⟨entries, hentries, ?_⟩
      unfold ofEntries at hof
      split at hof
      · cases hof
      · cases hof
        exact (List.max?_eq_some_iff.mp htop).1
    · intro n hn
      obtain ⟨entries, hentries, hn⟩ := List.mem_flatMap.mp hn
      obtain ⟨e, he, hreference⟩ := List.mem_filterMap.mp hn
      obtain ⟨survey, top, hof, htop, hle⟩ := le_greatest_ofEntries he hreference
      exact ⟨top, List.mem_filterMap.mpr ⟨survey, List.mem_filterMap.mpr ⟨entries, hentries, hof⟩, htop⟩, hle⟩
  rw [following, ← htops]
  unfold conclude
  dsimp only
  split
  · next id hid => rw [hid, Option.getD_some, Int.add_comm]
  · next hnone =>
    rw [hnone]
    rfl

theorem following_perm {ids ids' : List Int} (h : ids.Perm ids') : following ids = following ids' := by
  have hsame : greatest ids = greatest ids' :=
    greatest_eq (fun n hn => h.subset hn) fun n hn => ⟨n, h.symm.subset hn, Int.le_refl n⟩
  rw [following, following, hsame]

theorem yields : Survey.pass.Yields ofEntries := fun _ _ _ _ s => ⟨(), s, rfl⟩

theorem total : Survey.pass.Total where
  visit _ _ _ _ s := ⟨_, s, rfl⟩
  conclude _ s := ⟨_, s, rfl⟩

end Survey

namespace Audit

theorem yields : Audit.pass.Yields missing := by
  intro state path contents entries s
  obtain ⟨ns, hns⟩ := visit_eq path entries s
  exact ⟨(), s.noting ns, run_bind_ok (run_liftM hns)⟩

theorem total : Audit.pass.Total where
  visit state path contents entries s := by
    obtain ⟨state', s', hrun⟩ := yields state path contents entries s
    exact ⟨_, s', hrun⟩
  conclude counts s := ⟨_, _, rfl⟩

end Audit

namespace Fate

variable {fate : Fate} {q : Query} {contents : Bytes} {entries : List Entry}

/-- The entries of the file, none if it cannot be searched. -/
def found (fate : Fate) (q : Query) : List Entry := (fate.entries q).getD []

/-- The entries that would get ids. -/
def targets (fate : Fate) (q : Query) : List Entry := Insertion.pending (fate.found q)

/-- There are entries that would get ids, in order and within the file, and a scratch file can be made: ids are asked
for. -/
def reaches (fate : Fate) (q : Query) : Bool :=
  match fate.contents with
  | .error _ => false
  | .ok contents => !(fate.targets q).isEmpty &&
    Insertion.isAscending ((fate.targets q).map fun e => e.position.offset) &&
    decide (((fate.targets q).map fun e => e.position.offset).getLastD 0 ≤ contents.length) && fate.opens

/-- How many ids are asked for: those that the rewriting comes to. -/
def demand (fate : Fate) (q : Query) : Nat := if fate.reaches q then fate.device.asked (fate.targets q).length else 0

/-- How many ids are written. -/
def marks (fate : Fate) (q : Query) : Nat := if fate.reaches q then fate.device.marked (fate.targets q).length else 0

/-- Something goes wrong with the file even if there are ids enough. -/
def fails (fate : Fate) (q : Query) : Bool :=
  !(Insertion.unusable (fate.found q)).isEmpty || !(fate.targets q).isEmpty &&
    !(fate.reaches q && fate.device.carries (fate.targets q).length && fate.lands)

theorem demand_of_not_reaches (h : fate.reaches q = false) : fate.demand q = 0 ∧ fate.marks q = 0 := by
  rw [demand, marks, h]
  exact ⟨rfl, rfl⟩

theorem unread_asks_nothing {e : FileError} (h : fate.contents = .error e) :
    (fate.demand q = 0 ∧ fate.marks q = 0) ∧ fate.fails q = false := by
  have hfound : fate.found q = [] := by rw [found, (entries_of_unread h).1]; rfl
  have hreaches : fate.reaches q = false := by rw [reaches, h]
  refine ⟨demand_of_not_reaches hreaches, ?_⟩
  rw [fails, targets, hfound]
  rfl

theorem reaches_eq_opens (hread : fate.contents = .ok contents) (hfound : fate.found q = entries)
    (hsome : Insertion.pending entries ≠ [])
    (hup : Insertion.isAscending ((Insertion.pending entries).map fun e => e.position.offset) = true)
    (hlast : ((Insertion.pending entries).map fun e => e.position.offset).getLastD 0 ≤ contents.length) :
    fate.reaches q = fate.opens := by
  have hempty : (Insertion.pending entries).isEmpty = false := by simp [hsome]
  simp only [reaches, hread, targets, hfound, hempty, hup, hlast, decide_true, Bool.not_false, Bool.true_and]

end Fate

namespace Insertion

variable {others : Interference} {fate : Fate} {q : Query} {path : Path} {contents : Bytes} {entries : List Entry}
  {s s' : Session} {c : Counter} {counter' : Option Counter} {result : Insertion} {fateOf : Path → Fate}
  {start : Int} {t t' : Tally (Option Counter) Insertion} {visited files files' : List Path}

/-- What comes of a file with a given fate: how far the counter goes, whether something goes wrong, and how many ids
are counted if there are enough. -/
structure Follows (fate : Fate) (q : Query) (c : Counter) (result : Insertion) (counter' : Option Counter) : Prop where
  counter : ∃ c', counter' = some c' ∧ c'.next = min (c.next + fate.demand q) (greatestId + 1)
  failed : result.hasFailed = (fate.fails q || decide (greatestId + 1 < c.next + fate.demand q))
  inserted : c.next + fate.demand q ≤ greatestId + 1 → result.inserted = fate.marks q

/-- Where there are ids enough, only the file itself counts. -/
theorem Follows.of_enough {c' : Counter} (hnext : c'.next = c.next + fate.demand q) (hle : c'.next ≤ greatestId + 1)
    (hfailed : result.hasFailed = fate.fails q) (hinserted : result.inserted = fate.marks q) :
    Follows fate q c result (some c') := by
  refine ⟨⟨c', rfl, by omega⟩, ?_, fun _ => hinserted⟩
  rw [hfailed, decide_eq_false (by omega), Bool.or_false]

theorem Follows.of_not_reaches (hc : c.next ≤ greatestId + 1) (hreaches : fate.reaches q = false)
    (hfailed : result.hasFailed = fate.fails q) (hnone : result.inserted = 0) :
    Follows fate q c result (some c) := by
  obtain ⟨hdemand, hmarks⟩ := Fate.demand_of_not_reaches hreaches
  refine .of_enough ?_ hc hfailed ?_
  · rw [hdemand]
    exact (Int.add_zero _).symm
  · rw [hnone, hmarks]
    rfl

/-- Where all pieces and ids are written, all places have got one. -/
theorem Follows.of_spliced {targets : List Entry} {c' : Counter} {data : Bytes} (hsome : targets ≠ [])
    (hsplice : splice contents 0 targets c = (.ok data, c'))
    (hasked : fate.demand q = fate.device.asked targets.length ∧ fate.marks q = fate.device.marked targets.length)
    (hlasts : fate.device.lasts (2 * targets.length) = true)
    (hfailed : result.hasFailed = fate.fails q) (hinserted : result.inserted = targets.length) :
    Follows fate q c result (some c') := by
  obtain ⟨hdemand, hmarks⟩ := hasked
  obtain ⟨hnext, hfits⟩ := splice_counter hsplice
  rw [Device.asked_of_lasts hlasts] at hdemand
  rw [Device.marked_of_lasts hlasts] at hmarks
  rw [← hdemand] at hnext
  exact .of_enough hnext (hfits hsome) hfailed (by rw [hinserted, hmarks])

/-- Where ids are asked for, they are used up to the last, or there are enough and the result says whether the file
was changed. -/
theorem Updated.follows (hfate : fate.Rewrites path s.disk s.scratchTag) (hread : fate.contents = .ok contents)
    (hfound : fate.found q = entries) (hsome : pending entries ≠ [])
    (hup : isAscending ((pending entries).map fun e => e.position.offset) = true)
    (hlast : ((pending entries).map fun e => e.position.offset).getLastD 0 ≤ contents.length)
    (hc : c.next ≤ greatestId + 1) {c' : Counter}
    (h : Updated fate.device path contents (pending entries) c s result c' s') :
    Follows fate q c ⟨result.hasFailed || !(unusable entries).isEmpty, result.inserted⟩ (some c') := by
  have htargets : fate.targets q = pending entries := by rw [Fate.targets, hfound]
  have hreaches := Fate.reaches_eq_opens hread hfound hsome hup hlast
  have hempty : (pending entries).isEmpty = false := by simp [hsome]
  have hfails : fate.fails q = (!(unusable entries).isEmpty ||
      !(fate.opens && fate.device.carries (pending entries).length && fate.lands)) := by
    rw [Fate.fails, hfound, htargets, hempty, hreaches, Bool.not_false, Bool.true_and]
  -- once there is a scratch file, ids are asked for
  have hopened {place : Place} (hopens : Staged.Opens fate.device path s.disk s.scratchTag place) :
      fate.opens = true ∧ fate.demand q = fate.device.asked (pending entries).length ∧
        fate.marks q = fate.device.marked (pending entries).length := by
    have hopens : fate.opens = true := by rw [← hfate.enter, hopens.enter]; rfl
    rw [Fate.demand, Fate.marks, hreaches, hopens, if_pos rfl, if_pos rfl, htargets]
    exact ⟨rfl, rfl, rfl⟩
  cases h with
  | unopened henter =>
    have hopens : fate.opens = false := by rw [← hfate.enter, henter]; rfl
    refine .of_not_reaches hc (hreaches.trans hopens) ?_ rfl
    rw [hfails, hopens]
    simp
  | overflowed hopens hsplice hmore =>
    obtain ⟨_, hdemand, _⟩ := hopened hopens
    obtain ⟨_, hnext⟩ := splice_overflows hsome hsplice
    rw [← hdemand] at hmore
    refine ⟨⟨_, rfl, by omega⟩, ?_, fun hle => by omega⟩
    rw [decide_eq_true hmore, Bool.or_true, Bool.true_or]
  | broken hopens hshort hids =>
    obtain ⟨hopens, hdemand, hmarks⟩ := hopened hopens
    have hcarries := Device.not_carries_of_not_lasts hshort
    rw [← hdemand] at hids ⊢
    refine .of_enough rfl (by dsimp only; omega) ?_ (by rw [hmarks])
    rw [hfails, hopens, hcarries]
    simp
  | unlanded hopens hsplice hlasts hunlanded =>
    obtain ⟨hopen, hasked⟩ := hopened hopens
    have hnot : (fate.device.carries (pending entries).length && fate.lands) = false := by
      cases hcarries : fate.device.carries (pending entries).length with
      | false => rfl
      | true =>
        obtain ⟨e, herror⟩ := hunlanded hcarries
        rw [← hfate.land _ _ hopens, herror]
        rfl
    refine .of_spliced hsome hsplice hasked (Device.lasts_of_le (by omega) hlasts) ?_ rfl
    rw [hfails, hopen, Bool.true_and, hnot]
    simp
  | landed hopens hsplice hcarries hlanded =>
    obtain ⟨hopen, hasked⟩ := hopened hopens
    have hlands : fate.lands = true := by rw [← hfate.land _ _ hopens, hlanded]; rfl
    have hlasts := (Device.carries_iff.mp hcarries).1
    refine .of_spliced hsome hsplice hasked (Device.lasts_of_le (by omega) hlasts) ?_ rfl
    rw [hfails, hopen, hcarries, hlands]
    simp

theorem Ended.follows (hfate : fate.Rewrites path s.disk s.scratchTag) (hread : fate.contents = .ok contents)
    (hfound : fate.found q = entries) (hc : c.next ≤ greatestId + 1)
    (h : Ended fate.device path contents entries s (some c) result counter' s') : Follows fate q c result counter' := by
  have htargets : fate.targets q = pending entries := by rw [Fate.targets, hfound]
  cases h with
  | idle _ hnone =>
    have hreaches : fate.reaches q = false := by
      simp [Fate.reaches, hread, htargets, hnone]
    refine .of_not_reaches hc hreaches ?_ rfl
    simp [Fate.fails, hfound, htargets, hnone]
  | refused hsome hwhy =>
    have hreaches : fate.reaches q = false := by
      cases hwhy with
      | outOfOrder _ hdown => simp [Fate.reaches, hread, htargets, hdown]
      | pastEnd _ _ hpast =>
        have hnot := decide_eq_false (Int.not_le.mpr hpast)
        simp only [Fate.reaches, hread, htargets, hnot, Bool.and_false, Bool.false_and]
    refine .of_not_reaches hc hreaches ?_ rfl
    simp [Fate.fails, htargets, hsome, hreaches]
  | updated hsome hup hlast hupdated =>
    exact Updated.follows (s := s.noting (complaints path entries)) hfate hread hfound hsome hup hlast hc hupdated

/-- How many ids are asked for in all files. -/
def demanded (q : Query) (fateOf : Path → Fate) (files : List Path) : Int :=
  Pass.addUp (files.map fun p => ((fateOf p).demand q : Int))

/-- How many ids are written in all files. -/
def markedIn (q : Query) (fateOf : Path → Fate) (files : List Path) : Int :=
  Pass.addUp (files.map fun p => ((fateOf p).marks q : Int))

theorem demanded_concat (q : Query) (fateOf : Path → Fate) (files : List Path) (p : Path) :
    demanded q fateOf (files ++ [p]) = demanded q fateOf files + (fateOf p).demand q := by
  rw [demanded, List.map_append, List.map_singleton, Pass.addUp_concat, demanded]

theorem markedIn_concat (q : Query) (fateOf : Path → Fate) (files : List Path) (p : Path) :
    markedIn q fateOf (files ++ [p]) = markedIn q fateOf files + (fateOf p).marks q := by
  rw [markedIn, List.map_append, List.map_singleton, Pass.addUp_concat, markedIn]

theorem demanded_perm (h : files'.Perm files) : demanded q fateOf files' = demanded q fateOf files :=
  Pass.addUp_perm (h.map _)

theorem markedIn_perm (h : files'.Perm files) : markedIn q fateOf files' = markedIn q fateOf files :=
  Pass.addUp_perm (h.map _)

/-- What an insertion comes to when so many ids are asked for. -/
structure Comes (q : Query) (fateOf : Path → Fate) (start : Int) (files : List Path) (counter : Option Counter)
    (result : Insertion) : Prop where
  counter : counter = some ⟨min (start + demanded q fateOf files) (greatestId + 1)⟩
  failed : result.hasFailed =
    (files.any (fun p => (fateOf p).fails q) || decide (greatestId + 1 < start + demanded q fateOf files))
  inserted : start + demanded q fateOf files ≤ greatestId + 1 → result.inserted = markedIn q fateOf files

theorem Comes.perm (h : Comes q fateOf start files' counter' result) (hperm : files'.Perm files) :
    Comes q fateOf start files counter' result := by
  obtain ⟨hcounter, hfailed, hinserted⟩ := h
  rw [demanded_perm hperm] at hcounter hfailed hinserted
  rw [markedIn_perm hperm] at hinserted
  rw [hperm.any_eq] at hfailed
  exact ⟨hcounter, hfailed, hinserted⟩

theorem comes_start (hstart : start ≤ greatestId + 1) :
    Comes q fateOf start [] (some ⟨start⟩) (conclude []) := by
  have hzero : start + demanded q fateOf [] = start := Int.add_zero start
  have hmin : min start ((greatestId : Int) + 1) = start := by omega
  refine ⟨by rw [hzero, hmin], ?_, fun _ => rfl⟩
  rw [hzero, decide_eq_false (by omega)]
  rfl

/-- A file that cannot be read changes nothing. -/
theorem Comes.unread {e : FileError} (h : Comes q fateOf start visited counter' result)
    (hread : (fateOf path).contents = .error e) : Comes q fateOf start (visited ++ [path]) counter' result := by
  obtain ⟨hcounter, hfailed, hinserted⟩ := h
  obtain ⟨⟨hdemand, hmarks⟩, hfails⟩ := Fate.unread_asks_nothing (q := q) hread
  have hsame : demanded q fateOf (visited ++ [path]) = demanded q fateOf visited := by
    rw [demanded_concat, hdemand]
    exact Int.add_zero _
  have hmarked : markedIn q fateOf (visited ++ [path]) = markedIn q fateOf visited := by
    rw [markedIn_concat, hmarks]
    exact Int.add_zero _
  refine ⟨by rw [hsame]; exact hcounter, ?_, by rw [hsame, hmarked]; exact hinserted⟩
  rw [hsame, List.any_append, List.any_cons, List.any_nil, hfails, Bool.or_false, Bool.or_false]
  exact hfailed

/-- One more file adds the ids it asks for and those it gets. -/
theorem Comes.concat {results : List Insertion} (h : Comes q fateOf start visited (some c) (conclude results))
    (hfollows : Follows (fateOf path) q c result counter') :
    Comes q fateOf start (visited ++ [path]) counter' (conclude (results ++ [result])) := by
  obtain ⟨hcounter, hfailed, hinserted⟩ := h
  obtain ⟨⟨c', rfl, hnext⟩, hfailed', hinserted'⟩ := hfollows
  cases hcounter
  dsimp only at hnext hfailed' hinserted'
  have hnonneg : (0 : Int) ≤ (fateOf path).demand q := Int.natCast_nonneg _
  rw [conclude_concat]
  refine ⟨?_, ?_, ?_⟩
  · have hend : c'.next = min (start + (demanded q fateOf visited + (fateOf path).demand q)) (greatestId + 1) := by
      omega
    rw [demanded_concat, ← hend]
  · dsimp only
    rw [demanded_concat, hfailed, hfailed', List.any_append, List.any_cons, List.any_nil, Bool.or_false]
    -- ids that have run out stay out, and before that the counter is where they were all counted
    by_cases hover : (greatestId : Int) + 1 < start + demanded q fateOf visited
    · have hstill : (greatestId : Int) + 1 < start + (demanded q fateOf visited + (fateOf path).demand q) := by omega
      rw [decide_eq_true hover, decide_eq_true hstill]
      simp
    · have hmin : min (start + demanded q fateOf visited) ((greatestId : Int) + 1) =
          start + demanded q fateOf visited := by omega
      rw [decide_eq_false hover, hmin, Int.add_assoc, Bool.or_false, Bool.or_assoc]
  · intro hle
    dsimp only
    rw [demanded_concat] at hle
    rw [markedIn_concat, hinserted (by omega), hinserted' (by omega)]

theorem Comes.visitFile (hfate : (fateOf path).Holds others path s)
    (h : (((Insertion.pass fun p => (fateOf p).device).amid others).visitFile q t path).run.run s = (.ok t', s'))
    (ht : Comes q fateOf start visited t.state (conclude t.results)) :
    Comes q fateOf start (visited ++ [path]) t'.state (conclude t'.results) := by
  rcases Pass.visitFile_ok h with
    ⟨e, herror, _, rfl, _⟩ | ⟨contents, entries, ns, state, result, hok, hfound, hvisit, rfl⟩
  · exact ht.unread (hfate.read.symm.trans herror)
  · have hread := hfate.read.symm.trans hok
    have hentries : (fateOf path).found q = entries := by
      rw [Fate.found, (Fate.entries_of_found hread hfound).1]
      rfl
    obtain ⟨r, counter', s1, hrun, hended⟩ :=
      amid_visit_ended others (fun p => (fateOf p).device) t.state path contents entries (s.noting ns)
    cases hrun.symm.trans hvisit
    rw [ht.counter] at hended ht
    exact ht.concat (hended.follows hfate.rewrites hread hentries (Int.min_le_right _ _))

theorem total (devices : Devices) : (Insertion.pass devices).Total where
  visit counter path contents entries s := by
    obtain ⟨result, counter', s', hrun, _⟩ := visit_ended (devices path) counter path contents entries s
    exact ⟨_, s', run_bind_ok (run_liftM hrun)⟩
  conclude _ s := ⟨_, s, rfl⟩

variable {path : Path} {targets : List Entry} {c c' : Counter} {counter : Option Counter} {device : Device}
  {devices : Devices}

theorem Updated.scratchTag (h : Updated device path contents targets c s result c' s') :
    s'.scratchTag = s.scratchTag := by
  cases h <;> rfl

theorem Ended.scratchTag (h : Ended device path contents entries s counter result counter' s') :
    s'.scratchTag = s.scratchTag := by
  cases h with
  | idle => rfl
  | refused => rfl
  | updated _ _ _ hupdated => exact hupdated.scratchTag

theorem scratchTag_of_visitAll (h : ((Insertion.pass devices).visitAll q t files).run.run s = (.ok t', s')) :
    s'.scratchTag = s.scratchTag := by
  refine Pass.visitAll_keeps (I := fun _ s1 => s1.scratchTag = s.scratchTag) ?_ h rfl
  intro t t' s1 s2 path hfile htag
  rcases Pass.visitFile_ok hfile with ⟨_, _, _, _, rfl⟩ | ⟨contents, entries, ns, _, _, _, _, hvisit, _⟩
  · exact htag
  · obtain ⟨result, counter', s', hrun, hended⟩ :=
      amid_visit_ended .none devices t.state path contents entries (s1.noting ns)
    rw [Pass.amid_none] at hrun
    cases hrun.symm.trans hvisit
    exact hended.scratchTag.trans htag

end Insertion

namespace Staged

/-- New contents for files do not change whether a scratch file can be made. -/
theorem enter_like {d d' : Disk} (h : d.Like d') (device : Device) (p : Path) (tag : String) :
    ((new p device).enter d' tag).toOption.isSome = ((new p device).enter d tag).toOption.isSome := by
  have hscratch : scratchPath d' tag p = scratchPath d tag p := by
    simp only [scratchPath, Disk.absolute, Disk.origin, h.current]
  simp only [enter, new, hscratch, Disk.createPrivate]
  cases device.creation with
  | some fault => rfl
  | none =>
  rcases Disk.locate_alike h false (scratchPath d tag p) with heq | ⟨place, data, data', mode, hd, hd'⟩
  · rw [heq]
    cases d.locate false (scratchPath d tag p) with
    | error kind => rfl
    | ok dest => cases dest <;> rfl
  · rw [hd, hd']

end Staged

namespace Disk

variable {q : Query} {s : Session} {files : List Path} {placeOf : Path → Place} {devices : Devices}

/-- What becomes of a file that is on the disk, while nobody else changes it. -/
def fateOf (d : Disk) (devices : Devices) (tag : String) (p : Path) : Fate where
  contents := d.read p
  opens := ((Staged.new p (devices p)).enter d tag).toOption.isSome
  device := devices p
  lands := true

theorem Finds.perm {d : Disk} {files' : List Path} (h : d.Finds files placeOf) (hperm : files'.Perm files) :
    d.Finds files' placeOf where
  plain p hp := h.plain p (hperm.subset hp)
  distinct := (hperm.map placeOf).nodup_iff.mpr h.distinct

/-- A pass that changes nothing reads every file as it was, whatever came before. -/
theorem unordered_of_quiet {σ α β : Type} {pass : Pass σ α β} {f : List Entry → Option α} {total : List α → β}
    (hm : pass.Meets (Pass.quietly f) total) (devices : Devices) (start : σ) :
    pass.Unordered q start files s fun p s1 => s1.disk.read p = (s.disk.fateOf devices s.scratchTag p).contents := by
  intro earlier p later t s1 _ h
  rw [(Pass.swept_of_visitAll hm h).quiet.1]
  rfl

/-- Plain files at places of their own do not get in each other's way, where no scratch file is left behind. -/
theorem Finds.unordered (htidy : devices.Tidy) (hf : s.disk.Finds files placeOf) (start : Int) :
    (Insertion.pass devices).Unordered q (some ⟨start⟩) files s fun p s1 =>
      (s.disk.fateOf devices s.scratchTag p).Holds .none p s1 := by
  intro earlier p later t s1 hperm h
  have hf := hf.perm hperm
  have hplain := hf.plain p (List.mem_append_right _ List.mem_cons_self)
  have hother : placeOf p ∉ earlier.map placeOf := by
    intro hmem
    have hnodup := hf.distinct
    rw [List.map_append] at hnodup
    exact (List.nodup_append.mp hnodup).2.2 _ hmem _ (List.mem_map_of_mem List.mem_cons_self) rfl
  have hsame := (Pass.swept_of_visitAll (Insertion.meets devices) h).sameBeside (Insertion.contained htidy)
    (hf.sublist (List.sublist_append_left _ _))
  have htag := Insertion.scratchTag_of_visitAll h
  refine ⟨hsame.read_eq hplain hother, ?_, ?_⟩
  · rw [htag]
    exact Staged.enter_like hsame.like (devices p) p s.scratchTag
  · intro place data hopens
    obtain ⟨mode, _, _, htarget⟩ := (hplain.like hsame.like).leadsToFile
    rw [Staged.landed_of_leadsToFile hopens.awaits.leadsToFree htarget]
    rfl

end Disk

namespace Pass

/-- Where what becomes of each file does not depend on the files before it, the order of the files makes no
difference. A survey gives one more than the greatest reference in all files, or the first id if there is none, and
counts the calls that lack one; a count counts those. An insertion from `start` on leaves its counter behind all ids
that were asked for, or behind the greatest one if that comes first; it fails if a file of its own does or ids run out;
and it counts all ids that were written unless they run out. A file that reaches its rewriting asks for an id at each of
its places, up to a write that fails. -/
theorem results_in_any_order (parse : Bytes → Node) (settings : Settings) (others : Interference)
    (fateOf : Path → Fate) (files : List Path) (s : Session) :
    ((Survey.pass.amid others).Unordered (query parse settings) () files s
        (fun p s1 => s1.disk.read p = (fateOf p).contents) →
      (Survey.pass.amid others).GivesInAnyOrder parse settings () files s fateOf fun outcome =>
        outcome.result.nextId = Survey.following (Survey.references (entriesOf (query parse settings) fateOf files)) ∧
          outcome.result.missing = addUp ((entriesOf (query parse settings) fateOf files).map Audit.lacking)) ∧
    ((Audit.pass.amid others).Unordered (query parse settings) () files s
        (fun p s1 => s1.disk.read p = (fateOf p).contents) →
      (Audit.pass.amid others).GivesInAnyOrder parse settings () files s fateOf fun outcome =>
        outcome.result = addUp ((entriesOf (query parse settings) fateOf files).map Audit.lacking)) ∧
    ∀ start : Int, start ≤ greatestId + 1 →
      ((Insertion.pass fun p => (fateOf p).device).amid others).Unordered (query parse settings) (some ⟨start⟩) files s
        (fun p s1 => (fateOf p).Holds others p s1) →
      ((Insertion.pass fun p => (fateOf p).device).amid others).GivesInAnyOrder parse settings (some ⟨start⟩) files s
        fateOf fun outcome =>
          Insertion.Comes (query parse settings) fateOf start files outcome.state outcome.result := by
  refine ⟨fun hU => ?_, fun hU => ?_, fun start hstart hU => ?_⟩
  · refine (Survey.yields.amid others).givesInAnyOrder (Survey.steady.amid others) (Survey.total.amid others) hU
      (P := fun result =>
        result.nextId = Survey.following (Survey.references (entriesOf (query parse settings) fateOf files)) ∧
          result.missing = addUp ((entriesOf (query parse settings) fateOf files).map Audit.lacking)) ?_
    intro files' s2 s' result hperm h
    have hfound : (entriesOf (query parse settings) fateOf files').Perm
        (entriesOf (query parse settings) fateOf files) := hperm.filterMap _
    cases h
    rw [Survey.nextId_conclude, Survey.missing_conclude, addUp_perm (hfound.map Audit.lacking)]
    exact ⟨Survey.following_perm (hfound.flatMap_right _), rfl⟩
  · refine (Audit.yields.amid others).givesInAnyOrder (Audit.steady.amid others) (Audit.total.amid others) hU
      (P := fun result => result = addUp ((entriesOf (query parse settings) fateOf files).map Audit.lacking)) ?_
    intro files' s2 s' result hperm h
    have hfound : (entriesOf (query parse settings) fateOf files').Perm
        (entriesOf (query parse settings) fateOf files) := hperm.filterMap _
    cases h
    rw [Audit.addUp_missing, addUp_perm (hfound.map Audit.lacking)]
  · refine hU.givesInAnyOrder
      (I := fun visited t =>
        Insertion.Comes (query parse settings) fateOf start visited t.state (Insertion.conclude t.results))
      (fun hfate => hfate.read) ((Insertion.steady _).amid others) ((Insertion.total _).amid others)
      (Insertion.comes_start hstart) Insertion.Comes.visitFile ?_
    intro files' t s2 s' outcome hperm ht hconclude hstate
    obtain ⟨hresult, _⟩ := Prod.mk.inj hconclude
    rw [hstate, ← Except.ok.inj hresult]
    exact ht.perm hperm

/-- Two sources with one call each, which lacks a reference. -/
def twoSources : Session :=
  .small "info!(\"m\");" [(["src", "b.rs"], .file (Bytes.ofString "info!(\"n\");") 0o644)] .never

/-- The files of the two sources. -/
def bothFiles : List Path := [Session.smallFile, ⟨.single, ["src", "b.rs"]⟩]

theorem twoSources_finds : twoSources.disk.Finds bothFiles Path.steps := by
  refine ⟨?_, by decide⟩
  intro p hp
  rcases List.mem_pair.mp hp with rfl | rfl
  · exact ⟨Bytes.ofString "info!(\"m\");", 0o644, fun follow => by cases follow <;> exact eq_ok_of_toOption (by decide)⟩
  · exact ⟨Bytes.ofString "info!(\"n\");", 0o644, fun follow => by cases follow <;> exact eq_ok_of_toOption (by decide)⟩

/-- With one id left for two calls, ids run out in the file that comes second, but the counter and the failure are the
same. -/
theorem twoSources_in_any_order :
    let settings := (Job.small none).settings
    let q := query Rust.parse settings
    let fateOf := twoSources.disk.fateOf .sound twoSources.scratchTag
    Insertion.demanded q fateOf bothFiles = 2 ∧ bothFiles.reverse.Perm bothFiles ∧
      Survey.pass.GivesInAnyOrder Rust.parse settings () bothFiles twoSources fateOf (fun outcome =>
        outcome.result.nextId = Survey.following (Survey.references (entriesOf q fateOf bothFiles)) ∧
          outcome.result.missing = addUp ((entriesOf q fateOf bothFiles).map Audit.lacking)) ∧
      Audit.pass.GivesInAnyOrder Rust.parse settings () bothFiles twoSources fateOf (fun outcome =>
        outcome.result = addUp ((entriesOf q fateOf bothFiles).map Audit.lacking)) ∧
      (greatestId : Int) ≤ greatestId + 1 ∧
      (Insertion.pass .sound).GivesInAnyOrder Rust.parse settings (some ⟨greatestId⟩) bothFiles twoSources fateOf
        (fun outcome => Insertion.Comes q fateOf greatestId bothFiles outcome.state outcome.result) := by
  intro settings q fateOf
  obtain ⟨hsurvey, haudit, hinsertion⟩ := results_in_any_order Rust.parse settings .none fateOf bothFiles twoSources
  refine ⟨by decide +kernel, List.reverse_perm _, hsurvey ?_, haudit ?_, by decide, hinsertion _ (by decide) ?_⟩
  · exact Disk.unordered_of_quiet Survey.meets .sound ()
  · exact Disk.unordered_of_quiet Audit.meets .sound ()
  · exact twoSources_finds.unordered Devices.tidy_sound greatestId

/-- A source beside a link to it. -/
def linkedSource : Session := .small "info!(\"m\");" [(["src", "b.rs"], .link "a.rs")] .never

/-- The two calls of a source. -/
def twoCalls : List Entry :=
  [⟨⟨1, 1, 7⟩, none, "info", .message, none, none⟩, ⟨⟨1, 13, 19⟩, none, "info", .message, none, none⟩]

/-- A device that is full after the first piece and the first id. -/
def fullAfterTwo : Device := { Device.sound with calls := [.done, .done, .failed .full 0] }

/-- A file and a link to it get one id if the file comes first and two if the link does. Where the device is full
between two calls of a file, only one id is asked for. -/
theorem ids_not_one_a_call :
    let source := "info!(\"m\"); info!(\"n\");"
    let insert (files : List Path) :=
      (((Insertion.pass .sound).run Rust.parse (Job.small none).settings (some ⟨5⟩) files).run.run linkedSource).1
    let rewrite (device : Device) :=
      ((Insertion.visit device (some ⟨5⟩) Session.smallFile (Bytes.ofString source) twoCalls).run
        (.small source [] .never)).1
    (insert bothFiles).toOption.map (fun outcome => outcome.state) = some (some ⟨6⟩) ∧
      (insert bothFiles.reverse).toOption.map (fun outcome => outcome.state) = some (some ⟨7⟩) ∧
      rewrite .sound = (⟨false, 2⟩, some ⟨7⟩) ∧ rewrite fullAfterTwo = (⟨true, 1⟩, some ⟨6⟩) := by
  decide +kernel

end Pass

end LogRef
