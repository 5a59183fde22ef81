import LogRef.Proofs.Run.Interference
import LogRef.Proofs.Run.Sweep

/-!
# What the passes do

A survey and an audit change nothing. An insertion writes to some of its files, once each, and the ids that it
writes go up from file to file and, in a file, from place to place, whatever others and the devices do meanwhile.
-/
namespace LogRef

theorem Survey.meets : Survey.pass.Meets (Pass.quietly Survey.ofEntries) Survey.conclude where
  visit _ _ _ entries s _ := ⟨(), Survey.ofEntries entries, s, rfl, rfl, rfl⟩
  conclude results s := ⟨[], by rw [Session.noting_nil]; rfl⟩

namespace Audit

/-- How many entries of a file have no reference; a file without entries has no count. -/
def missing (entries : List Entry) : Option Int :=
  if entries.isEmpty then none else some (entries.filter fun e => !e.hasReference).length

theorem run_reportMissing (path : Path) (es : List Entry) (s : Session) :
    ∃ ns, (es.forM (reportMissing path)).run s = ((), s.noting ns) := by
  induction es generalizing s with
  | nil => exact ⟨[], by rw [Session.noting_nil]; rfl⟩
  | cons e es ih =>
    obtain ⟨ns, hns⟩ := ih (s.noting [.missingReference path.toString e.position.line e.position.column])
    exact ⟨_, by rw [← Session.noting_noting, ← hns]; rfl⟩

theorem visit_eq (path : Path) (entries : List Entry) (s : Session) :
    ∃ ns, (visit path entries).run s = (missing entries, s.noting ns) := by
  unfold visit missing
  by_cases hnone : entries.isEmpty = true
  · rw [if_pos hnone, if_pos hnone]
    exact ⟨[], by rw [Session.noting_nil]; rfl⟩
  · rw [if_neg hnone, if_neg hnone]
    obtain ⟨ns, hns⟩ := run_reportMissing path (entries.filter fun e => !e.hasReference) s
    rw [Work.run_bind, hns]
    by_cases hsome : (!(entries.filter fun e => !e.hasReference).isEmpty) = true
    · refine ⟨ns ++ [.missingInFile path.toString (entries.filter fun e => !e.hasReference).length], ?_⟩
      rw [if_pos hsome, ← Session.noting_noting]
      rfl
    · refine ⟨ns, ?_⟩
      rw [if_neg hsome]
      rfl

theorem meets : Audit.pass.Meets (Pass.quietly missing) Pass.addUp where
  visit _ path contents entries s _ := by
    obtain ⟨ns, hns⟩ := visit_eq path entries s
    exact ⟨(), missing entries, s.noting ns, Run.run_bind_ok (Run.run_liftM hns), rfl, rfl⟩
  conclude results s := ⟨[.missingInAll (Pass.addUp results)], rfl⟩

end Audit

namespace Insertion

variable {contents data : Bytes} {entries targets : List Entry} {c c' : Counter} {path : Path} {d d' : Disk}
  {result : Insertion} {place : Place} {q : Query} {device : Device} {devices : Devices} {others : Interference}

/-- What a visit may do after others have changed the disk; without a counter, nothing, and nothing either where every
entry has a reference. -/
def step (others : Interference) (devices : Devices) : Pass.Step (Option Counter) Insertion :=
  fun path contents entries counter d counter' result d' =>
    match counter with
    | none => counter' = none ∧ d' = others path d
    | some c => ∃ c' r, counter' = some c' ∧ result = some r ∧
      Visited (devices path) path contents entries c (others path d) r c' d' ∧
      ((∀ e ∈ entries, e.hasReference = true) → r = ⟨false, 0⟩ ∧ d' = others path d)

theorem visit_without_counter (device : Device) (path : Path) (contents : Bytes) (entries : List Entry) (s : Session) :
    ∃ r ns, (visit device none path contents entries).run s = ((r, none), s.noting ns) := by
  rw [visit_run]
  generalize complaints path entries = us
  by_cases hnone : pending entries = []
  · rw [if_pos hnone]
    exact ⟨_, us, rfl⟩
  · rw [if_neg hnone]
    exact ⟨_, us ++ [.noCounter path.toString], by rw [← Session.noting_noting]; rfl⟩

/-- What a visit of the pass amid others comes down to. -/
theorem amid_visit_ended (others : Interference) (devices : Devices) (counter : Option Counter) (path : Path)
    (contents : Bytes) (entries : List Entry) (s : Session) :
    ∃ result counter' s', (((Insertion.pass devices).amid others).visit counter path contents entries).run.run s =
        (.ok (counter', some result), s') ∧
      Ended (devices path) path contents entries (s.after (others path)) counter result counter' s' := by
  obtain ⟨result, counter', s', hrun, hended⟩ :=
    visit_ended (devices path) counter path contents entries (s.after (others path))
  refine ⟨result, counter', s', ?_, hended⟩
  rw [Pass.amid_visit]
  exact Run.run_bind_ok (Run.run_liftM hrun)

theorem meets_amid (others : Interference) (devices : Devices) :
    ((Insertion.pass devices).amid others).Meets (step others devices) conclude where
  visit counter path contents entries s _ := by
    rw [Pass.amid_visit]
    cases counter with
    | none =>
      obtain ⟨r, ns, hvisit⟩ := visit_without_counter (devices path) path contents entries (s.after (others path))
      exact ⟨none, some r, (s.after (others path)).noting ns, Run.run_bind_ok (Run.run_liftM hvisit), rfl, rfl⟩
    | some c =>
      obtain ⟨r, c', s', hvisit, hvisited⟩ :=
        visit_visited (devices path) c path contents entries (s.after (others path))
      refine ⟨some c', some r, s', Run.run_bind_ok (Run.run_liftM hvisit), c', r, rfl, rfl, hvisited, fun hall => ?_⟩
      rw [visit_of_complete hall] at hvisit
      obtain ⟨hresult, rfl⟩ := Prod.mk.inj hvisit
      exact ⟨(Prod.mk.inj hresult).1.symm, rfl⟩
  conclude results s := ⟨[], by rw [Session.noting_nil]; rfl⟩

theorem meets (devices : Devices) : (Insertion.pass devices).Meets (step .none devices) conclude :=
  meets_amid .none devices

/-- A visit that leaves no scratch file behind changes nothing but the contents of its file. -/
theorem Visited.sameBeside (h : Visited device path contents entries c d result c' d')
    (htidy : result.hasFailed = true → device.Tidy) (hp : d.Plain path place) : Disk.SameBeside [place] d d' := by
  cases h with
  | idle => exact .refl _ d
  | failed _ _ hleft =>
    rw [hleft.tidy (htidy rfl)]
    exact .refl _ d
  | written _ _ _ _ hfile =>
    obtain ⟨mode, old, hget, htarget⟩ := hp.leadsToFile
    rw [hfile.file htarget]
    exact ⟨Disk.like_withFile hget, fun q hq => FileTree.get?_put_ne (by simpa using hq)⟩

theorem contained (htidy : devices.Tidy) : Pass.Contained (step .none devices) := by
  intro path contents entries counter d counter' result d' place hstep hp
  cases counter with
  | none =>
    obtain ⟨_, rfl⟩ := hstep
    exact .refl _ _
  | some c =>
    obtain ⟨c', r, _, _, hvisited, _⟩ := hstep
    exact hvisited.sameBeside (fun _ => htidy path) hp

/-- Contents from `cursor` on, with marks for the ids of some entries put in before their places. -/
inductive Marked (contents : Bytes) : (cursor : Nat) → List (Entry × Int) → Bytes → Prop
  | rest (cursor : Nat) : Marked contents cursor [] (contents.drop cursor)
  | mark {cursor : Nat} {e : Entry} {id : Int} {marks : List (Entry × Int)} {more : Bytes}
    (h : Marked contents (clampOffset contents.length e.position.offset) marks more) :
    Marked contents cursor ((e, id) :: marks)
      ((contents.take (clampOffset contents.length e.position.offset)).drop cursor ++
        Bytes.ofString (e.markFor id) ++ more)

/-- Ids go up, from `first` on and up to `next`, and fit in an annotation. -/
structure Ascends (first next : Int) (ids : List Int) : Prop where
  le : first ≤ next
  up : ids.Pairwise (· < ·)
  from_ : ∀ id ∈ ids, first ≤ id
  below : ∀ id ∈ ids, id < next
  fits : ∀ id ∈ ids, id ≤ greatestId

namespace Ascends

variable {first mid next : Int} {ids more : List Int}

theorem none_ (h : first ≤ next) : Ascends first next [] :=
  ⟨h, .nil, fun _ h => (List.not_mem_nil h).elim, fun _ h => (List.not_mem_nil h).elim,
    fun _ h => (List.not_mem_nil h).elim⟩

theorem append (h : Ascends first mid ids) (h' : Ascends mid next more) : Ascends first next (ids ++ more) where
  le := Int.le_trans h.le h'.le
  up := List.pairwise_append.mpr ⟨h.up, h'.up, fun a ha b hb => Int.lt_of_lt_of_le (h.below a ha) (h'.from_ b hb)⟩
  from_ id hid := by
    rcases List.mem_append.mp hid with hid | hid
    · exact h.from_ id hid
    · exact Int.le_trans h.le (h'.from_ id hid)
  below id hid := by
    rcases List.mem_append.mp hid with hid | hid
    · exact Int.lt_of_lt_of_le (h.below id hid) h'.le
    · exact h'.below id hid
  fits id hid := by
    rcases List.mem_append.mp hid with hid | hid
    · exact h.fits id hid
    · exact h'.fits id hid

theorem singleton {id : Int} (h : id ≤ greatestId) : Ascends id (id + 1) [id] where
  le := by omega
  up := List.pairwise_singleton _ _
  from_ _ hid := Int.le_of_eq (List.mem_singleton.mp hid).symm
  below _ hid := by rw [List.mem_singleton.mp hid]; omega
  fits _ hid := by rw [List.mem_singleton.mp hid]; exact h

end Ascends

theorem splice_marked {cursor : Nat} (h : splice contents cursor targets c = (.ok data, c')) :
    ∃ marks, marks.map Prod.fst = targets ∧ Marked contents cursor marks data ∧
      Ascends c.next c'.next (marks.map Prod.snd) := by
  induction targets generalizing cursor c data with
  | nil =>
    obtain ⟨hd, rfl⟩ := Prod.mk.inj h
    exact ⟨[], rfl, Except.ok.inj hd ▸ .rest cursor, .none_ (Int.le_refl _)⟩
  | cons e targets ih =>
    obtain ⟨hle, more, hmore, rfl⟩ := splice_cons_ok h
    obtain ⟨marks, rfl, hmarked, hup⟩ := ih hmore
    exact ⟨(e, c.next) :: marks, rfl, .mark hmarked, (Ascends.singleton hle).append hup⟩

/-- New contents for a file: the old ones with marks. -/
structure Write where
  path : Path
  old : Bytes
  marks : List (Entry × Int)
  new : Bytes

def Write.ids (w : Write) : List Int := w.marks.map Prod.snd

/-- Writes to a disk, one after the other, with others changing it before each of them: each marks all pending entries
of its file, in the order of their places, and changes nothing else. A file can be passed over, and then at most a
scratch file is new. -/
inductive Wrote (others : Interference) (devices : Devices) (q : Query) : Disk → List Write → Disk → Prop
  | none (d : Disk) : Wrote others devices q d [] d
  | passed {d d1 d' : Disk} {p scratch : Path} {ws : List Write}
    (hleft : Staged.GivenUp (devices p) scratch (others p d) d1) (hrest : Wrote others devices q d1 ws d') :
    Wrote others devices q d ws d'
  | next {d d1 d' : Disk} {w : Write} {ws : List Write} {entries : List Entry}
    (hshow : d.Shows q w.path w.old entries) (hall : w.marks.map Prod.fst = pending entries)
    (hplaces : (w.marks.map fun m => m.1.position.offset).Pairwise (· ≤ ·))
    (hnew : Marked w.old 0 w.marks w.new) (hfile : (others w.path d).Replaced w.path w.new d1)
    (hrest : Wrote others devices q d1 ws d') : Wrote others devices q d (w :: ws) d'

theorem Wrote.cons_of_visited {ws : List Write} {d1 : Disk} {c1 : Counter} {next : Int}
    (hshow : d.Shows q path contents entries)
    (hv : Visited (devices path) path contents entries c (others path d) result c1 d1)
    (hrest : Wrote others devices q d1 ws d') (hup : Ascends c1.next next (ws.flatMap Write.ids)) :
    ∃ ws', Wrote others devices q d ws' d' ∧ Ascends c.next next (ws'.flatMap Write.ids) ∧
      (ws' = ws ∨ ∃ w, w.path = path ∧ ws' = w :: ws) := by
  cases hv with
  | idle => exact ⟨ws, .passed (.refl _ path _) hrest, hup, .inl rfl⟩
  | failed _ hnext hleft =>
    exact ⟨ws, .passed hleft hrest, by simpa using (Ascends.none_ hnext.1).append hup, .inl rfl⟩
  | written _ hplaces _ hsplice hfile =>
    obtain ⟨marks, hall, hmarked, hids⟩ := splice_marked hsplice
    have hsorted := pairwise_of_isAscending hplaces
    rw [← hall, List.map_map] at hsorted
    exact ⟨⟨path, contents, marks, _⟩ :: ws, .next hshow hall hsorted hmarked hfile hrest, hids.append hup,
      .inr ⟨_, rfl, rfl⟩⟩

/-- A sweep with a counter is a number of writes, with ids that go up. -/
theorem wrote_of_swept {files : List Path} {t t' : Tally (Option Counter) Insertion}
    (h : Pass.Swept (step others devices) q files t d t' d') (hc : t.state = some c) :
    ∃ c' ws, t'.state = some c' ∧ Wrote others devices q d ws d' ∧ (ws.map Write.path).Sublist files ∧
      Ascends c.next c'.next (ws.flatMap Write.ids) := by
  induction h generalizing c with
  | done t d => exact ⟨c, [], hc, .none d, .slnil, .none_ (Int.le_refl _)⟩
  | unread _ _ ih =>
    obtain ⟨c', ws, hc', hwrote, hsub, hup⟩ := ih hc
    exact ⟨c', ws, hc', hwrote, hsub.cons _, hup⟩
  | visited hshow hstep _ ih =>
    rw [hc] at hstep
    obtain ⟨c1, r, rfl, rfl, hvisited, _⟩ := hstep
    obtain ⟨c', ws, hc', hwrote, hsub, hup⟩ := ih rfl
    obtain ⟨ws', hwrote', hup', rfl | ⟨w, rfl, rfl⟩⟩ := Wrote.cons_of_visited hshow hvisited hwrote hup
    · exact ⟨c', ws', hc', hwrote', hsub.cons _, hup'⟩
    · exact ⟨c', w :: ws, hc', hwrote', hsub.cons_cons _, hup'⟩

end Insertion

end LogRef
