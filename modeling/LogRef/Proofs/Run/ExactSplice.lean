import LogRef.Proofs.Run.StagedUse
import LogRef.Proofs.Run.Visit

/-!
# Visits put in marks and nothing else

The file after a visit is its contents cut at the places of the entries that got ids, with the mark of each at its cut:
without the marks, it is what it was before. A visit that fails for any other reason than a `ref` value it cannot use
leaves the file as it was, and all else too but for a scratch file that could not be closed or removed.
-/
namespace LogRef

/-- Bytes that begin at an offset, cut at offsets into segments. -/
inductive Cuts : (start : Nat) → Bytes → (offsets : List Nat) → (segments : List Bytes) → Prop
  | last (start : Nat) (segment : Bytes) : Cuts start segment [] [segment]
  | cut {start : Nat} {segment rest : Bytes} {offsets : List Nat} {segments : List Bytes}
    (h : Cuts (start + segment.length) rest offsets segments) :
    Cuts start (segment ++ rest) ((start + segment.length) :: offsets) (segment :: segments)

theorem Cuts.flatten {start : Nat} {bytes : Bytes} {offsets : List Nat} {segments : List Bytes}
    (h : Cuts start bytes offsets segments) : segments.flatten = bytes := by
  induction h with
  | last start segment => simp
  | cut _ ih => rw [List.flatten_cons, ih]

/-- Segments with a mark behind each but the last. -/
def interleave : (segments marks : List Bytes) → Bytes
  | segment :: segments, mark :: marks => segment ++ mark ++ interleave segments marks
  | segments, _ => segments.flatten

namespace Insertion

variable {path : Path} {contents data : Bytes} {entries targets : List Entry} {counter counter' : Option Counter}
  {c c' : Counter} {s s' : Session} {result : Insertion} {device : Device}

/-- The marks for consecutive ids. -/
def marksOf (first : Int) (targets : List Entry) : List Bytes :=
  targets.mapIdx fun i e => Bytes.ofString (e.markFor (first + i))

theorem marksOf_cons (first : Int) (e : Entry) (targets : List Entry) :
    marksOf first (e :: targets) = Bytes.ofString (e.markFor first) :: marksOf (first + 1) targets := by
  have hnext (i : Nat) : first + ((i + 1 : Nat) : Int) = first + 1 + i := by omega
  simp only [marksOf, List.mapIdx_cons, hnext]
  simp

/-- Contents with marks for consecutive ids at the places of entries: the contents are cut there, and nothing of them is
lost. -/
def Annotated (contents : Bytes) (targets : List Entry) (first : Int) (data : Bytes) : Prop :=
  ∃ segments, Cuts 0 contents (targets.map Entry.place) segments ∧ segments.flatten = contents ∧
    data = interleave segments (marksOf first targets)

/-- The loop over the places cuts the contents and puts the marks at the cuts. -/
theorem splice_interleaves {cursor : Nat} (h : splice contents cursor targets c = (.ok data, c'))
    (h0 : ∀ e ∈ targets, 0 ≤ e.position.offset) (hup : (targets.map Entry.place).Pairwise (· ≤ ·))
    (hfrom : ∀ e ∈ targets, cursor ≤ e.place) (hin : ∀ e ∈ targets, e.place ≤ contents.length) :
    ∃ segments, Cuts cursor (contents.drop cursor) (targets.map Entry.place) segments ∧
      data = interleave segments (marksOf c.next targets) := by
  induction targets generalizing cursor c data with
  | nil =>
    obtain ⟨hd, _⟩ := Prod.mk.inj h
    refine ⟨[contents.drop cursor], .last _ _, ?_⟩
    rw [← Except.ok.inj hd]
    simp [interleave, marksOf]
  | cons e targets ih =>
    obtain ⟨_, more, hmore, rfl⟩ := splice_cons_ok h
    have hplace : clampOffset contents.length e.position.offset = e.place := by
      have := h0 e List.mem_cons_self
      rw [clampOffset, if_neg (by omega), Entry.place]
    have hcursor := hfrom e List.mem_cons_self
    have hinside := hin e List.mem_cons_self
    rw [List.map_cons, List.pairwise_cons] at hup
    rw [hplace] at hmore ⊢
    obtain ⟨segments, hcuts, rfl⟩ := ih hmore (fun f hf => h0 f (List.mem_cons_of_mem e hf)) hup.2
      (fun f hf => hup.1 _ (List.mem_map_of_mem hf)) fun f hf => hin f (List.mem_cons_of_mem e hf)
    have hlength : cursor + ((contents.take e.place).drop cursor).length = e.place := by
      rw [List.length_drop, List.length_take]
      omega
    have hcut := Cuts.cut (hlength.symm ▸ hcuts)
    rw [hlength, ← drop_split contents hcursor hinside] at hcut
    exact ⟨_, hcut, by rw [marksOf_cons, interleave]⟩

theorem le_getLastD {offsets : List Int} (h : offsets.Pairwise (· ≤ ·)) {a : Int} (ha : a ∈ offsets) :
    a ≤ offsets.getLastD 0 := by
  have hne := List.ne_nil_of_mem ha
  rw [List.getLastD_eq_getLast?, List.getLast?_eq_some_getLast hne, Option.getD_some]
  rw [← List.dropLast_append_getLast hne, List.mem_append, List.mem_singleton] at ha
  rw [← List.dropLast_append_getLast hne, List.pairwise_append] at h
  rcases ha with hfront | hlast
  · exact h.2.2 a hfront _ (List.mem_singleton_self _)
  · exact Int.le_of_eq hlast

/-- Places that are in order and not past the end are all cut. -/
theorem annotated_of_splice (h : splice contents 0 targets c = (.ok data, c'))
    (h0 : ∀ e ∈ targets, 0 ≤ e.position.offset)
    (hup : isAscending (targets.map fun e => e.position.offset) = true)
    (hlast : (targets.map fun e => e.position.offset).getLastD 0 ≤ contents.length) :
    Annotated contents targets c.next data := by
  have hsorted := pairwise_of_isAscending hup
  have hplaces : (targets.map Entry.place).Pairwise (· ≤ ·) := by
    rw [List.pairwise_map] at hsorted ⊢
    exact hsorted.imp fun hle => Int.toNat_le_toNat hle
  have hin : ∀ e ∈ targets, e.place ≤ contents.length := by
    intro e he
    have hle := le_getLastD hsorted (List.mem_map_of_mem he)
    have := h0 e he
    rw [Entry.place]
    omega
  obtain ⟨segments, hcuts, hdata⟩ := splice_interleaves h h0 hplaces (fun _ _ => Nat.zero_le _) hin
  exact ⟨segments, hcuts, hcuts.flatten, hdata⟩

/-! ## What a visit leaves -/

/-- The entries without those that a visit cannot use. -/
def withoutUnusable (entries : List Entry) : List Entry := entries.filter fun e => e.hasReference || e.isUsable

theorem pending_withoutUnusable (entries : List Entry) : pending (withoutUnusable entries) = pending entries := by
  simp only [pending, withoutUnusable, List.filter_filter]
  refine List.filter_congr fun e _ => ?_
  cases e.hasReference <;> cases e.isUsable <;> rfl

theorem unusable_withoutUnusable (entries : List Entry) : unusable (withoutUnusable entries) = [] := by
  simp only [unusable, withoutUnusable, List.filter_filter]
  refine List.filter_eq_nil_iff.mpr fun e _ => ?_
  cases e.hasReference <;> cases e.isUsable <;> simp

theorem pending_of_usable (h : unusable entries = []) : pending entries = entries.filter fun e => !e.hasReference := by
  refine List.filter_eq_self.mpr fun e he => ?_
  have hnot := List.filter_eq_nil_iff.mp h e he
  simpa using hnot

/-- Notices are of no account for what comes of an update. -/
theorem updateFile_noting (device : Device) (path : Path) (contents : Bytes) (targets : List Entry) (c : Counter)
    (s : Session) (ns : List Notice) :
    ((updateFile device path contents targets c).run (s.noting ns)).1 =
        ((updateFile device path contents targets c).run s).1 ∧
      ((updateFile device path contents targets c).run (s.noting ns)).2.disk =
        ((updateFile device path contents targets c).run s).2.disk := by
  rcases Staged.enter_cases device path s.disk s.scratchTag with ⟨why, henter⟩ | ⟨place, hopens⟩
  · unfold updateFile
    simp only [Work.run_bind, Work.run_get, Session.noting, henter]
    exact ⟨rfl, rfl⟩
  · cases hrun : (rewriting contents targets).run.run ⟨Staged.opened path
        (Staged.scratchPath s.disk s.scratchTag path) [] device, s.disk.withFile place [] 0o600, c, 0⟩ with
    | mk r p =>
      cases hleave : Staged.leave.run.run (p.staged, p.disk) with
      | mk left y =>
        rw [updateFile_run hopens hrun hleave, updateFile_run (s := s.noting ns) hopens hrun hleave]
        exact ⟨rfl, rfl⟩

theorem annotate_noting (device : Device) (path : Path) (contents : Bytes) (targets : List Entry)
    (counter : Option Counter) (s : Session) (ns : List Notice) :
    ((annotate device path contents targets counter).run (s.noting ns)).1 =
        ((annotate device path contents targets counter).run s).1 ∧
      ((annotate device path contents targets counter).run (s.noting ns)).2.disk =
        ((annotate device path contents targets counter).run s).2.disk := by
  cases counter with
  | none => exact ⟨rfl, rfl⟩
  | some c =>
    obtain ⟨hvalue, hdisk⟩ := updateFile_noting device path contents targets c s ns
    simp only [annotate]
    split
    · exact ⟨rfl, rfl⟩
    · split
      · exact ⟨rfl, rfl⟩
      · simp only [Work.run_bind, Work.run_pure, hvalue, hdisk, and_self]

/-- Without the entries it cannot use, a visit does the same and has nothing to complain about. -/
theorem visit_withoutUnusable (device : Device) (counter : Option Counter) (path : Path) (contents : Bytes)
    (entries : List Entry) (s : Session) :
    let all := (visit device counter path contents entries).run s
    let usable := (visit device counter path contents (withoutUnusable entries)).run s
    all.1 = (⟨usable.1.1.hasFailed || !(unusable entries).isEmpty, usable.1.1.inserted⟩, usable.1.2) ∧
      all.2.disk = usable.2.disk := by
  have hall := annotate_noting device path contents (pending entries) counter s (complaints path entries)
  have husable := annotate_noting device path contents (pending entries) counter s
    (complaints path (withoutUnusable entries))
  rw [visit_run, visit_run, pending_withoutUnusable, unusable_withoutUnusable]
  split
  · simp [Session.noting]
  · simp only [hall, husable, List.isEmpty_nil, Bool.not_true, Bool.or_false, and_self]

/-- The targets have their marks, with the ids from the counter on, and the file with them stands in place of the old
one. -/
def Spliced (counter : Option Counter) (path : Path) (contents : Bytes) (targets : List Entry) (s : Session)
    (after : (Insertion × Option Counter) × Session) : Prop :=
  ∃ c data, counter = some c ∧ after.1.1.inserted = targets.length ∧ after.1.2 = some ⟨c.next + targets.length⟩ ∧
    Annotated contents targets c.next data ∧
    s.disk.Swapped path (Staged.scratchPath s.disk s.scratchTag path) data after.2.disk

/-- The disk is as it was, but for a scratch file that may be left. -/
def Untouched (device : Device) (path : Path) (s : Session) (d : Disk) : Prop :=
  Staged.GivenUp device (Staged.scratchPath s.disk s.scratchTag path) s.disk d

theorem Untouched.of_same {d : Disk} (h : d = s.disk) : Untouched device path s d := by
  subst h
  exact .refl _ _ _

/-- Where every entry can be used, a visit fails and leaves the disk alone, has nothing to do, or puts in all marks. -/
theorem Ended.usable (h : Ended device path contents entries s counter result counter' s') (hd : s.disk.WellFormed)
    (hoffsets : ∀ e ∈ entries, 0 ≤ e.position.offset) (husable : unusable entries = []) :
    result.hasFailed = true ∧ Untouched device path s s'.disk ∨
      pending entries = [] ∧ result = ⟨false, 0⟩ ∧ counter' = counter ∧ s'.disk = s.disk ∨
      pending entries ≠ [] ∧ result.hasFailed = false ∧
        Spliced counter path contents (pending entries) s ((result, counter'), s') := by
  cases h with
  | idle _ hnone => exact .inr (.inl ⟨hnone, by rw [husable]; rfl, rfl, rfl⟩)
  | refused => exact .inl ⟨rfl, .of_same rfl⟩
  | @updated c c' r s' hsome hup hlast hupdated =>
    cases hupdated with
    | unopened => exact .inl ⟨rfl, .of_same rfl⟩
    | overflowed _ _ _ _ _ hleft => exact .inl ⟨rfl, hleft⟩
    | broken _ _ _ hleft => exact .inl ⟨rfl, hleft⟩
    | unlanded _ _ _ _ hleft => exact .inl ⟨rfl, hleft⟩
    | @landed place data _ d hopens hsplice _ hlanded =>
      have hpending : ∀ e ∈ pending entries, 0 ≤ e.position.offset :=
        fun e he => hoffsets e (List.mem_of_mem_filter (List.mem_of_mem_filter he))
      have hannotated := annotated_of_splice hsplice hpending hup hlast
      have hswapped := Staged.swapped_of_landed hd hopens.awaits hlanded
      refine .inr (.inr ⟨hsome, by rw [husable]; rfl, c, data, rfl, rfl, ?_, hannotated, hswapped⟩)
      rw [← (splice_counter hsplice).1]

theorem Spliced.of_same {usable after : (Insertion × Option Counter) × Session}
    (h : Spliced counter path contents targets s usable) (hinserted : after.1.1.inserted = usable.1.1.inserted)
    (hcounter : after.1.2 = usable.1.2) (hdisk : after.2.disk = usable.2.disk) :
    Spliced counter path contents targets s after := by
  obtain ⟨c, data, hc, hcount, hnext, hannotated, hswapped⟩ := h
  exact ⟨c, data, hc, hinserted.trans hcount, hcounter.trans hnext, hannotated, hdisk ▸ hswapped⟩

/-- A visit does not fail without a reason. -/
theorem Ended.works {old : Bytes} (h : Ended device path contents entries s (some c) result counter' s')
    (husable : unusable entries = []) (hup : isAscending ((pending entries).map fun e => e.position.offset) = true)
    (hlast : ((pending entries).map fun e => e.position.offset).getLastD 0 ≤ contents.length)
    (hids : c.next + (pending entries).length ≤ greatestId + 1)
    (hopens : ∃ opened, (Staged.new path device).enter s.disk s.scratchTag = .ok opened)
    (hcarries : device.carries (pending entries).length = true) (hread : s.disk.read path = .ok old) :
    result = ⟨false, (pending entries).length⟩ := by
  cases h with
  | idle _ hnone => rw [husable, hnone]; rfl
  | refused hsome hwhy =>
    cases hwhy with
    | outOfOrder _ hnot => rw [hup] at hnot; cases hnot
    | pastEnd _ _ hpast => omega
  | updated hsome _ _ hupdated =>
    rw [husable]
    obtain ⟨data, hfits⟩ := splice_fits contents 0 hids
    cases hupdated with
    | unopened henter =>
      obtain ⟨opened, hopened⟩ := hopens
      cases henter.symm.trans hopened
    | overflowed _ hsplice => cases hsplice.symm.trans hfits
    | broken _ hshort =>
      have hle : 2 * (pending entries).length + 1 ≤ 2 * (pending entries).length + 4 := by omega
      cases hshort.symm.trans (Device.lasts_of_le hle (Device.carries_iff.mp hcarries).1)
    | unlanded hopened _ _ hfails =>
      obtain ⟨q, mode, hfile⟩ := Disk.leadsToFile_of_read hread
      obtain ⟨e, hunlanded⟩ := hfails hcarries
      cases hunlanded.symm.trans (Staged.landed_of_leadsToFile hopened.awaits.leadsToFree hfile _ _)
    | landed => rfl

/-- What a visit leaves of a file. -/
structure Exact (device : Device) (counter : Option Counter) (path : Path) (contents : Bytes) (entries : List Entry)
    (s : Session) (after : (Insertion × Option Counter) × Session) : Prop where
  /-- If it does not fail and puts in any ids, every entry without a reference has its mark. -/
  succeeded : after.1.1.hasFailed = false → 0 < after.1.1.inserted →
    Spliced counter path contents (entries.filter fun e => !e.hasReference) s after
  /-- If it would not have failed but for the entries it cannot use, all others have their marks. -/
  onlyUnusable : after.1.1.hasFailed = true →
    ((visit device counter path contents (withoutUnusable entries)).run s).1.1.hasFailed = false →
    pending entries = [] ∧ after.1 = (⟨true, 0⟩, counter) ∧ after.2.disk = s.disk ∨
      Spliced counter path contents (pending entries) s after
  /-- In all other cases the file is as it was. -/
  otherwise : ¬ (after.1.1.hasFailed = false ∧ 0 < after.1.1.inserted) →
    ¬ (after.1.1.hasFailed = true ∧
      ((visit device counter path contents (withoutUnusable entries)).run s).1.1.hasFailed = false) →
    Untouched device path s after.2.disk
  /-- Without a counter, or with places out of order or past the end, the counter is as it was, too. -/
  refused : ∀ why, Refuses path contents (pending entries) counter why → pending entries ≠ [] →
    after.1 = (⟨true, 0⟩, counter) ∧ after.2.disk = s.disk
  /-- It does not fail without a reason. -/
  works : ∀ c old, counter = some c → unusable entries = [] →
    isAscending ((pending entries).map fun e => e.position.offset) = true →
    ((pending entries).map fun e => e.position.offset).getLastD 0 ≤ contents.length →
    c.next + (pending entries).length ≤ greatestId + 1 →
    (∃ opened, (Staged.new path device).enter s.disk s.scratchTag = .ok opened) →
    device.carries (pending entries).length = true → s.disk.read path = .ok old →
    after.1.1 = ⟨false, (pending entries).length⟩

/-- A visit fails and leaves the file alone, has nothing to do, or puts in all marks it can; the entries it cannot use
only make it complain. -/
theorem visit_cases (device : Device) (counter : Option Counter) (path : Path) (contents : Bytes) (entries : List Entry)
    (s : Session) (hd : s.disk.WellFormed) (hoffsets : ∀ e ∈ entries, 0 ≤ e.position.offset) :
    let after := (visit device counter path contents entries).run s
    let isFailure := ((visit device counter path contents (withoutUnusable entries)).run s).1.1.hasFailed
    isFailure = true ∧ after.1.1.hasFailed = true ∧ Untouched device path s after.2.disk ∨
      isFailure = false ∧ pending entries = [] ∧ after.1 = (⟨!(unusable entries).isEmpty, 0⟩, counter) ∧
        after.2.disk = s.disk ∨
      isFailure = false ∧ pending entries ≠ [] ∧ after.1.1.hasFailed = !(unusable entries).isEmpty ∧
        Spliced counter path contents (pending entries) s after := by
  intro after isFailure
  obtain ⟨result, counter', s', hrun, hended⟩ := visit_ended device counter path contents (withoutUnusable entries) s
  have hcases := hended.usable hd (fun e he => hoffsets e (List.mem_of_mem_filter he))
    (unusable_withoutUnusable entries)
  rw [pending_withoutUnusable] at hcases
  obtain ⟨hvalue, hdisk⟩ := visit_withoutUnusable device counter path contents entries s
  rw [hrun] at hvalue hdisk
  have hisFailure : isFailure = result.hasFailed := by simp only [isFailure, hrun]
  have hfailed : after.1.1.hasFailed = (result.hasFailed || !(unusable entries).isEmpty) := by
    simp only [after, hvalue]
  rcases hcases with ⟨hfails, hsame⟩ | ⟨hnone, rfl, rfl, hsame⟩ | ⟨hsome, hworks, hspliced⟩
  · exact .inl ⟨hisFailure.trans hfails, by rw [hfailed, hfails]; rfl, hdisk ▸ hsame⟩
  · exact .inr (.inl ⟨hisFailure, hnone, hvalue, hdisk.trans hsame⟩)
  · refine .inr (.inr ⟨hisFailure.trans hworks, hsome, by rw [hfailed, hworks]; rfl, ?_⟩)
    exact hspliced.of_same (by simp only [after, hvalue]) (by simp only [after, hvalue]) hdisk

/-- A visit is an exact splice, and all or nothing. -/
theorem visit_splices_exactly (device : Device) (counter : Option Counter) (path : Path) (contents : Bytes)
    (entries : List Entry) (s : Session) (hd : s.disk.WellFormed) (hoffsets : ∀ e ∈ entries, 0 ≤ e.position.offset) :
    Exact device counter path contents entries s ((visit device counter path contents entries).run s) := by
  have hcases := visit_cases device counter path contents entries s hd hoffsets
  obtain ⟨_, _, _, hrun, hended⟩ := visit_ended device counter path contents entries s
  constructor
  · intro hfailed hinserted
    rcases hcases with ⟨_, hfails, _⟩ | ⟨_, _, hvalue, _⟩ | ⟨_, _, hcomplains, hspliced⟩
    · rw [hfails] at hfailed
      cases hfailed
    · rw [hvalue] at hinserted
      exact absurd hinserted (Int.lt_irrefl 0)
    · have husable : unusable entries = [] := by simpa [hfailed] using hcomplains
      exact pending_of_usable husable ▸ hspliced
  · intro hfailed hnot
    rcases hcases with ⟨hfails, _⟩ | ⟨_, hnone, hvalue, hsame⟩ | ⟨_, _, _, hspliced⟩
    · rw [hfails] at hnot
      cases hnot
    · rw [hvalue] at hfailed ⊢
      exact .inl ⟨hnone, congrArg (fun failed => (Insertion.mk failed 0, counter)) hfailed, hsame⟩
    · exact .inr hspliced
  · intro hsuccess honly
    rcases hcases with ⟨_, _, hsame⟩ | ⟨_, _, _, hsame⟩ | ⟨hworks, hsome, _, _, _, _, hcount, _⟩
    · exact hsame
    · exact .of_same hsame
    · -- all marks are in, so the visit succeeded or only complained
      have hpositive := List.length_pos_iff.mpr hsome
      cases hfailed : ((visit device counter path contents entries).run s).1.1.hasFailed with
      | false => exact absurd ⟨hfailed, by omega⟩ hsuccess
      | true => exact absurd ⟨hfailed, hworks⟩ honly
  · intro why hwhy hsome
    rw [visit_run, if_neg hsome, annotate_refused hwhy]
    exact ⟨rfl, rfl⟩
  · rintro c old rfl husable hup hlast hids hopens hcarries hread
    rw [hrun]
    exact hended.works husable hup hlast hids hopens hcarries hread

/-- A file with two bytes. -/
def twoBytes : Session := ⟨⟨⟨[(["a"], .file [65, 66] 0o640)]⟩, [], []⟩, [], .never, "0"⟩

/-- Two entries at one place and one at the end, and between them one that has a reference and one that cannot be
used. -/
def mixedEntries : List Entry :=
  [⟨⟨1, 1, 2⟩, none, "info", .message, none, none⟩, ⟨⟨1, 1, 2⟩, none, "info", .message, none, none⟩,
    ⟨⟨1, 1, 2⟩, some 4, "info", .message, none, none⟩, ⟨⟨2, 1, 3⟩, none, "info", .givenArgument, none, none⟩,
    ⟨⟨2, 1, 3⟩, none, "info", .message, none, none⟩]

theorem mixedEntries_spliced : twoBytes.disk.WellFormed ∧ (∀ e ∈ mixedEntries, 0 ≤ e.position.offset) ∧
    Exact .sound (some ⟨7⟩) ⟨.none, ["a"]⟩ [65, 66] mixedEntries twoBytes
      ((visit .sound (some ⟨7⟩) ⟨.none, ["a"]⟩ [65, 66] mixedEntries).run twoBytes) ∧
    (((visit .sound (some ⟨7⟩) ⟨.none, ["a"]⟩ [65, 66] mixedEntries).run twoBytes).2.disk.read
      ⟨.none, ["a"]⟩).toOption = some (Bytes.ofString "A[ref: 7] [ref: 8] B[ref: 9] ") :=
  have hd : twoBytes.disk.WellFormed := ⟨by decide, FileTree.isDirectory_top _⟩
  have hoffsets : ∀ e ∈ mixedEntries, 0 ≤ e.position.offset := by decide
  ⟨hd, hoffsets, visit_splices_exactly .sound (some ⟨7⟩) ⟨.none, ["a"]⟩ [65, 66] mixedEntries twoBytes hd hoffsets,
    by decide +kernel⟩

end Insertion

end LogRef
