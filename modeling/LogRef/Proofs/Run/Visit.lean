import LogRef.Proofs.Run.Filling

/-!
# How a visit ends

A visit says what it leaves alone and why, and gives up a file as soon as something is in the way: the places, the
scratch file, the ids, a write or the commit. Only a commit that works changes a file. Ids may be used up without being
written, by an overflow or by what is given up.
-/
namespace LogRef

namespace Session

/-- The session with more notices. -/
def noting (s : Session) (ns : List Notice) : Session := { s with notices := s.notices ++ ns }

variable {s : Session} {ms ns : List Notice} {d : Disk}

theorem noting_nil : s.noting [] = s := by
  rw [noting, List.append_nil]

theorem noting_noting : (s.noting ms).noting ns = s.noting (ms ++ ns) := by
  rw [noting, noting, noting, List.append_assoc]

theorem noting_disk : (s.noting ns).disk = s.disk := rfl

theorem run_report (n : Notice) : (report n).run s = ((), s.noting [n]) := rfl

theorem run_setDisk : (setDisk d).run s = ((), { s with disk := d }) := rfl

end Session

namespace Work

variable {α β : Type} {s : Session}

theorem run_bind (x : Work α) (f : α → Work β) : (x >>= f).run s = (f (x.run s).1).run (x.run s).2 := rfl

theorem run_pure (a : α) : (pure a : Work α).run s = (a, s) := rfl

theorem run_get : (get : Work Session).run s = (s, s) := rfl

end Work

namespace Insertion

open Run

variable {device : Device} {path : Path} {contents : Bytes} {entries targets : List Entry} {c c' : Counter}
  {counter counter' : Option Counter} {s s' : Session} {result : Insertion}

/-! ## Updating a file -/

/-- How an update of a file ends: the result, the counter after it and the session after it. -/
inductive Updated (device : Device) (path : Path) (contents : Bytes) (targets : List Entry) (c : Counter)
    (s : Session) :
    Insertion → Counter → Session → Prop
  | unopened {e : Staged.Error} (henter : (Staged.new path device).enter s.disk s.scratchTag = .error e) :
    Updated device path contents targets c s ⟨true, 0⟩ c (s.noting [.updateFailed path.toString e.message])
  | overflowed {place : Place} {o : Overflow} {c' : Counter} {inserted : Int} {why : Notice} {d : Disk}
    (hopens : Staged.Opens device path s.disk s.scratchTag place)
    (hsplice : splice contents 0 targets c = (.error o, c'))
    (hmore : greatestId + 1 < c.next + device.asked targets.length)
    (hwhy : why = .cannotInsert path.toString o.message ∨ ∃ message, why = .updateFailed path.toString message)
    (hnone : device.Tidy → inserted = 0)
    (hleft : Staged.GivenUp device (Staged.scratchPath s.disk s.scratchTag path) s.disk d) :
    Updated device path contents targets c s ⟨true, inserted⟩ c' { s.noting [why] with disk := d }
  | broken {place : Place} {message : String} {d : Disk} (hopens : Staged.Opens device path s.disk s.scratchTag place)
    (hshort : device.lasts (2 * targets.length + 1) = false)
    (hids : device.asked targets.length = 0 ∨ c.next + device.asked targets.length ≤ greatestId + 1)
    (hleft : Staged.GivenUp device (Staged.scratchPath s.disk s.scratchTag path) s.disk d) :
    Updated device path contents targets c s ⟨true, device.marked targets.length⟩
      ⟨c.next + device.asked targets.length⟩ { s.noting [.updateFailed path.toString message] with disk := d }
  | unlanded {place : Place} {data : Bytes} {c' : Counter} {message : String} {d : Disk}
    (hopens : Staged.Opens device path s.disk s.scratchTag place)
    (hsplice : splice contents 0 targets c = (.ok data, c'))
    (hlasts : device.lasts (2 * targets.length + 1) = true)
    (hfails : device.carries targets.length = true → ∃ e,
      Staged.landed (s.disk.withFile place data 0o600) (Staged.scratchPath s.disk s.scratchTag path) path = .error e)
    (hleft : Staged.GivenUp device (Staged.scratchPath s.disk s.scratchTag path) s.disk d) :
    Updated device path contents targets c s ⟨true, targets.length⟩ c'
      { s.noting [.updateFailed path.toString message] with disk := d }
  | landed {place : Place} {data : Bytes} {c' : Counter} {d : Disk}
    (hopens : Staged.Opens device path s.disk s.scratchTag place)
    (hsplice : splice contents 0 targets c = (.ok data, c')) (hcarries : device.carries targets.length = true)
    (hlanded : Staged.landed (s.disk.withFile place data 0o600) (Staged.scratchPath s.disk s.scratchTag path) path =
      .ok d) :
    Updated device path contents targets c s ⟨false, targets.length⟩ c'
      { s.noting [.inserted path.toString targets.length] with disk := d }

/-- The rewriting of a file, once there is a scratch file. -/
def rewriting (contents : Bytes) (targets : List Entry) : Rewriting Unit := do
  fill contents 0 targets
  act Staged.commit

/-- What is said about a rewriting, and counted. -/
def verdict (path : Path) (left : Except Staged.Error Unit) (result : Except Setback Unit) (written : Nat) :
    Notice × Insertion :=
  match left, result with
  | .error e, _ | .ok (), .error (.staged e) => (.updateFailed path.toString e.message, ⟨true, written⟩)
  | .ok (), .error (.overflow o) => (.cannotInsert path.toString o.message, ⟨true, 0⟩)
  | .ok (), .ok () => (.inserted path.toString written, ⟨false, written⟩)

theorem updateFile_run {place : Place} {r : Except Setback Unit} {p : Progress} {left : Except Staged.Error Unit}
    {y : Staged × Disk} (hopens : Staged.Opens device path s.disk s.scratchTag place)
    (hrun : (rewriting contents targets).run.run ⟨Staged.opened path (Staged.scratchPath s.disk s.scratchTag path) []
      device, s.disk.withFile place [] 0o600, c, 0⟩ = (r, p))
    (hleave : Staged.leave.run.run (p.staged, p.disk) = (left, y)) :
    (updateFile device path contents targets c).run s =
      (((verdict path left r p.written).2, p.counter),
        { s.noting [(verdict path left r p.written).1] with disk := y.2 }) := by
  unfold updateFile
  simp only [Work.run_bind, Work.run_get, hopens.enter]
  rw [rewriting] at hrun
  simp only [hrun, hleave, Work.run_bind, Session.run_setDisk]
  cases left with
  | error e => rfl
  | ok _ =>
    cases r with
    | ok _ => rfl
    | error setback => cases setback <;> rfl

theorem updateFile_updated (device : Device) (path : Path) (contents : Bytes) (targets : List Entry) (c : Counter)
    (s : Session) : ∃ result c' s', (updateFile device path contents targets c).run s = ((result, c'), s') ∧
      Updated device path contents targets c s result c' s' := by
  rcases Staged.enter_cases device path s.disk s.scratchTag with ⟨why, henter⟩ | ⟨place, hopens⟩
  · refine ⟨⟨true, 0⟩, c, s.noting [.updateFailed path.toString _], ?_, .unopened henter⟩
    unfold updateFile
    simp only [Work.run_bind, Work.run_get, henter]
    rfl
  have hplace := hopens.awaits
  obtain ⟨r, p, hfill, hfilled⟩ := fill_filled contents 0 targets path
    (Staged.scratchPath s.disk s.scratchTag path) [] device (s.disk.withFile place [] 0o600) c 0
  cases hfilled with
  | @overflowed o c' more device' w' hsplice hmore hlater =>
    obtain ⟨left, y, hleave, _, _, _, hgiven, htidy⟩ := Staged.givenUp_of_inUse hplace (Staged.inUse_opened hlater)
    refine ⟨_, _, _, updateFile_run hopens (run_bind_error hfill) hleave, ?_⟩
    cases left with
    | ok _ => exact .overflowed hopens hsplice hmore (.inl rfl) (fun _ => rfl) hgiven
    | error e => exact .overflowed hopens hsplice hmore (.inr ⟨_, rfl⟩) (fun ht => by cases (htidy ht).1) hgiven
  | @broken fault more device' hshort hids hlater =>
    obtain ⟨left, y, hleave, _, _, _, hgiven, _⟩ := Staged.givenUp_of_inUse hplace (Staged.inUse_opened hlater)
    refine ⟨_, _, _, updateFile_run hopens (run_bind_error hfill) hleave, ?_⟩
    rw [Nat.zero_add]
    cases left with
    | ok _ => exact .broken hopens hshort hids hgiven
    | error e => exact .broken hopens hshort hids hgiven
  | @whole data c' hsplice hlasts =>
    rw [List.nil_append, Nat.zero_add] at hfill
    have hcount : device.lasts (2 * targets.length + 4) =
        (device.after (2 * targets.length + 1)).lasts 3 := by
      rw [device.lasts_add (2 * targets.length + 1) 3, hlasts, Bool.true_and]
    rcases Staged.commit_cases hplace.leadsToFree (device.after (2 * targets.length + 1)) data [] 0o600 with
      ⟨e, y, hcommit, hinUse, hfails⟩ | ⟨d', hlasts', hcopy, hrename, hlanded, hcommit⟩
    · obtain ⟨left, z, hleave, _, _, _, hgiven, _⟩ :=
        Staged.givenUp_of_inUse hplace (hinUse.of_later (device.later_after _))
      refine ⟨_, _, _, updateFile_run hopens ((run_bind_ok hfill).trans (run_act_error hcommit)) hleave, ?_⟩
      have hunlanded : device.carries targets.length = true → ∃ e, Staged.landed (s.disk.withFile place data 0o600)
          (Staged.scratchPath s.disk s.scratchTag path) path = .error e := by
        intro hcarries
        obtain ⟨hlasts, hcopy, hrename⟩ := Device.carries_iff.mp hcarries
        exact hfails (hcount.symm.trans hlasts) hcopy hrename
      cases left with
      | ok _ => exact .unlanded hopens hsplice hlasts hunlanded hgiven
      | error e => exact .unlanded hopens hsplice hlasts hunlanded hgiven
    · have hcarries : device.carries targets.length = true :=
        Device.carries_iff.mpr ⟨hcount.trans hlasts', hcopy, hrename⟩
      exact ⟨_, _, _, updateFile_run hopens ((run_bind_ok hfill).trans (run_act_ok hcommit))
        (Staged.leave_committed _ _ _ _), .landed hopens hsplice hcarries hlanded⟩

/-! ## Visiting it -/

/-- The entries whose reference can neither be read nor written. -/
def unusable (entries : List Entry) : List Entry :=
  (entries.filter fun e => !e.hasReference).filter fun e => !e.isUsable

/-- What a visit says about the entries it cannot use. -/
def complaints (path : Path) (entries : List Entry) : List Notice :=
  (unusable entries).map fun e => .unusableReference path.toString e.position.line e.position.column

theorem run_reportUnusable (path : Path) (es : List Entry) (s : Session) :
    (es.forM (reportUnusable path)).run s =
      ((), s.noting (es.map fun e => .unusableReference path.toString e.position.line e.position.column)) := by
  induction es generalizing s with
  | nil => rw [List.map_nil, Session.noting_nil]; rfl
  | cons e es ih =>
    have hrest := ih (s.noting [.unusableReference path.toString e.position.line e.position.column])
    rw [Session.noting_noting, List.singleton_append] at hrest
    rw [List.map_cons, ← hrest]
    rfl

/-- A visit reports what is unusable and annotates what is pending. -/
theorem visit_run (device : Device) (counter : Option Counter) (path : Path) (contents : Bytes) (entries : List Entry)
    (s : Session) :
    (visit device counter path contents entries).run s =
      if pending entries = [] then
        ((⟨!(unusable entries).isEmpty, 0⟩, counter), s.noting (complaints path entries))
      else
        let r := (annotate device path contents (pending entries) counter).run (s.noting (complaints path entries))
        (({ r.1.1 with hasFailed := r.1.1.hasFailed || !(unusable entries).isEmpty }, r.1.2), r.2) := by
  have hsnd : s.noting (complaints path entries) = (((unusable entries).forM (reportUnusable path)).run s).2 := by
    rw [run_reportUnusable]
    rfl
  rw [hsnd]
  by_cases hnone : pending entries = []
  · have hempty : (pending entries).isEmpty = true := List.isEmpty_iff.mpr hnone
    rw [if_pos hnone]
    simp only [pending] at hempty
    simp only [visit, hempty, if_true]
    rfl
  · have hempty : ¬ (pending entries).isEmpty = true := fun h => hnone (List.isEmpty_iff.mp h)
    rw [if_neg hnone]
    simp only [pending] at hempty
    simp only [visit, hempty]
    rfl

/-- Why places are not looked at any further, and what is said about it. -/
inductive Refuses (path : Path) (contents : Bytes) (targets : List Entry) : Option Counter → Notice → Prop
  | noCounter : Refuses path contents targets none (.noCounter path.toString)
  | outOfOrder (c : Counter) (h : isAscending (targets.map fun e => e.position.offset) = false) :
    Refuses path contents targets (some c) (.outOfOrder path.toString)
  | pastEnd (c : Counter) (hup : isAscending (targets.map fun e => e.position.offset) = true)
    (h : contents.length < (targets.map fun e => e.position.offset).getLastD 0) :
    Refuses path contents targets (some c) (.pastEnd path.toString)

/-- How a visit ends: the result, the counter after it and the session after it. -/
inductive Ended (device : Device) (path : Path) (contents : Bytes) (entries : List Entry) (s : Session) :
    Option Counter → Insertion → Option Counter → Session → Prop
  | idle (counter : Option Counter) (h : pending entries = []) :
    Ended device path contents entries s counter ⟨!(unusable entries).isEmpty, 0⟩ counter
      (s.noting (complaints path entries))
  | refused {counter : Option Counter} {why : Notice} (hsome : pending entries ≠ [])
    (h : Refuses path contents (pending entries) counter why) :
    Ended device path contents entries s counter ⟨true, 0⟩ counter (s.noting (complaints path entries ++ [why]))
  | updated {c c' : Counter} {r : Insertion} {s' : Session} (hsome : pending entries ≠ [])
    (hup : isAscending ((pending entries).map fun e => e.position.offset) = true)
    (hlast : ((pending entries).map fun e => e.position.offset).getLastD 0 ≤ contents.length)
    (h : Updated device path contents (pending entries) c (s.noting (complaints path entries)) r c' s') :
    Ended device path contents entries s (some c) ⟨r.hasFailed || !(unusable entries).isEmpty, r.inserted⟩ (some c') s'

/-- A visit that refuses the places touches nothing. -/
theorem annotate_refused {why : Notice} (h : Refuses path contents targets counter why) (device : Device)
    (s : Session) :
    (annotate device path contents targets counter).run s = ((⟨true, 0⟩, counter), s.noting [why]) := by
  cases h with
  | noCounter => rfl
  | outOfOrder c h =>
    simp only [annotate, h, Bool.not_false, if_true]
    rfl
  | pastEnd c hup h =>
    simp only [annotate, hup, Bool.not_true, Bool.false_eq_true, if_false, h, if_true]
    rfl

theorem annotate_updated (device : Device) (path : Path) (c : Counter)
    (hup : isAscending (targets.map fun e => e.position.offset) = true)
    (hlast : (targets.map fun e => e.position.offset).getLastD 0 ≤ contents.length) (s : Session) :
    ∃ result c' s', (annotate device path contents targets (some c)).run s = ((result, some c'), s') ∧
      Updated device path contents targets c s result c' s' := by
  obtain ⟨result, c', s', hrun, hupdated⟩ := updateFile_updated device path contents targets c s
  refine ⟨result, c', s', ?_, hupdated⟩
  simp only [annotate, hup, Bool.not_true, Bool.false_eq_true, if_false, Int.not_lt.mpr hlast]
  rw [Work.run_bind, hrun]
  rfl

/-- Every visit ends in one of these ways. -/
theorem visit_ended (device : Device) (counter : Option Counter) (path : Path) (contents : Bytes) (entries : List Entry)
    (s : Session) :
    ∃ result counter' s', (visit device counter path contents entries).run s = ((result, counter'), s') ∧
      Ended device path contents entries s counter result counter' s' := by
  rw [visit_run]
  by_cases hnone : pending entries = []
  · rw [if_pos hnone]
    exact ⟨_, _, _, rfl, .idle counter hnone⟩
  rw [if_neg hnone]
  have hrefused {why : Notice} (h : Refuses path contents (pending entries) counter why) := by
    have hrun := annotate_refused h device (s.noting (complaints path entries))
    rw [Session.noting_noting] at hrun
    exact hrun
  cases counter with
  | none =>
    have hwhy : Refuses path contents (pending entries) none _ := .noCounter
    rw [hrefused hwhy]
    exact ⟨_, _, _, rfl, .refused hnone hwhy⟩
  | some c =>
    by_cases hup : isAscending ((pending entries).map fun e => e.position.offset) = true
    · by_cases hlast : ((pending entries).map fun e => e.position.offset).getLastD 0 ≤ contents.length
      · obtain ⟨r, c', s', hrun, hupdated⟩ :=
          annotate_updated device path c hup hlast (s.noting (complaints path entries))
        rw [hrun]
        exact ⟨_, _, _, rfl, .updated hnone hup hlast hupdated⟩
      · have hwhy : Refuses path contents (pending entries) (some c) _ := .pastEnd c hup (Int.not_le.mp hlast)
        rw [hrefused hwhy]
        exact ⟨_, _, _, rfl, .refused hnone hwhy⟩
    · have hwhy : Refuses path contents (pending entries) (some c) _ := .outOfOrder c (Bool.not_eq_true _ ▸ hup)
      rw [hrefused hwhy]
      exact ⟨_, _, _, rfl, .refused hnone hwhy⟩

/-- How a visit with a counter can go, in short: the result, the counter after it and the disk after it. -/
inductive Visited (device : Device) (path : Path) (contents : Bytes) (entries : List Entry) (c : Counter) (d : Disk) :
    Insertion → Counter → Disk → Prop
  | idle (h : pending entries = []) : Visited device path contents entries c d ⟨!(unusable entries).isEmpty, 0⟩ c d
  | failed {inserted : Int} {c' : Counter} {scratch : Path} {d' : Disk} (hsome : pending entries ≠ [])
    (hnext : c.next ≤ c'.next ∧ c'.next ≤ c.next + (pending entries).length)
    (hleft : Staged.GivenUp device scratch d d') : Visited device path contents entries c d ⟨true, inserted⟩ c' d'
  | written {data : Bytes} {c' : Counter} {d' : Disk} (hsome : pending entries ≠ [])
    (hup : isAscending ((pending entries).map fun e => e.position.offset) = true)
    (hlast : ((pending entries).map fun e => e.position.offset).getLastD 0 ≤ contents.length)
    (hdata : splice contents 0 (pending entries) c = (.ok data, c')) (hfile : d.Replaced path data d') :
    Visited device path contents entries c d ⟨!(unusable entries).isEmpty, (pending entries).length⟩ c' d'

theorem Ended.visited (h : Ended device path contents entries s (some c) result counter' s') :
    ∃ c', counter' = some c' ∧ Visited device path contents entries c s.disk result c' s'.disk := by
  cases h with
  | idle _ hnone => exact ⟨c, rfl, .idle hnone⟩
  | refused hsome _ => exact ⟨c, rfl, .failed hsome ⟨Int.le_refl _, by omega⟩ (.refl _ path _)⟩
  | @updated _ c' r _ hsome hup hlast hupdated =>
    refine ⟨c', rfl, ?_⟩
    cases hupdated with
    | unopened _ => exact .failed hsome ⟨Int.le_refl _, by omega⟩ (.refl _ path _)
    | overflowed _ hsplice _ _ _ hleft =>
      obtain ⟨hmore, hnext⟩ := splice_overflows hsome hsplice
      exact .failed hsome (by omega) hleft
    | broken _ _ _ hleft =>
      have hasked := device.asked_le (pending entries).length
      exact .failed hsome (by dsimp only; omega) hleft
    | unlanded _ hsplice _ _ hleft =>
      have hnext := (splice_counter hsplice).1
      exact .failed hsome (by omega) hleft
    | landed hopens hsplice _ hlanded =>
      exact .written hsome hup hlast hsplice (Staged.replaced_of_landed hopens.awaits.leadsToFree hlanded)

/-- Every visit with a counter goes in one of these ways. -/
theorem visit_visited (device : Device) (c : Counter) (path : Path) (contents : Bytes) (entries : List Entry)
    (s : Session) : ∃ result c' s', (visit device (some c) path contents entries).run s = ((result, some c'), s') ∧
      Visited device path contents entries c s.disk result c' s'.disk := by
  obtain ⟨result, counter', s', hrun, hended⟩ := visit_ended device (some c) path contents entries s
  obtain ⟨c', rfl, hvisited⟩ := hended.visited
  exact ⟨result, c', s', hrun, hvisited⟩

/-- A visit finds nothing to do where every entry has a reference. -/
theorem visit_of_complete (h : ∀ e ∈ entries, e.hasReference = true) (counter : Option Counter) :
    (visit device counter path contents entries).run s = ((⟨false, 0⟩, counter), s) := by
  have hnone : entries.filter (fun e => !e.hasReference) = [] :=
    List.filter_eq_nil_iff.mpr fun e he => by simp [h e he]
  simp only [visit, hnone, List.filter_nil]
  rfl

end Insertion

end LogRef
