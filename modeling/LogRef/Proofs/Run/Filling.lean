import LogRef.Proofs.Run.Splice
import LogRef.Proofs.Run.Staging

/-!
# Filling a scratch file

The contents of a file are written piece by piece, and an id is taken when its place is reached. Where every write is
done this is splicing. Where one is not, the ids up to it have been taken, and they are lost.
-/
namespace LogRef

namespace Device

variable {device : Device} {k n : Nat}

/-- How many ids are asked for when there are `n` places: one comes after every other write. -/
def asked (device : Device) (n : Nat) : Nat := (List.range n).countP fun i => device.lasts (2 * i + 1)

/-- How many ids are written when there are `n` places. -/
def marked (device : Device) (n : Nat) : Nat := (List.range n).countP fun i => device.lasts (2 * i + 2)

/-- New contents with `n` ids in them come through to the place of the file, as far as it is up to the device. -/
def carries (device : Device) (n : Nat) : Bool :=
  device.lasts (2 * n + 4) && device.modeCopy.isNone && device.rename.isNone

theorem carries_iff : device.carries n = true ↔
    device.lasts (2 * n + 4) = true ∧ device.modeCopy = none ∧ device.rename = none := by
  rw [carries, Bool.and_eq_true, Bool.and_eq_true, Option.isNone_iff_eq_none, Option.isNone_iff_eq_none, and_assoc]

/-- A device that lasts for all the writes is asked for all the ids. -/
theorem asked_of_lasts (h : device.lasts (2 * n) = true) : device.asked n = n := by
  rw [asked, List.countP_eq_length.mpr, List.length_range]
  intro i hi
  exact lasts_of_le (by have := List.mem_range.mp hi; omega) h

theorem asked_le (device : Device) (n : Nat) : device.asked n ≤ n :=
  Nat.le_trans List.countP_le_length (Nat.le_of_eq List.length_range)

theorem not_carries_of_not_lasts (h : device.lasts (2 * n + 1) = false) : device.carries n = false := by
  refine Bool.eq_false_iff.mpr fun hcarries => ?_
  have hle : 2 * n + 1 ≤ 2 * n + 4 := by omega
  cases h.symm.trans (lasts_of_le hle (carries_iff.mp hcarries).1)

theorem marked_of_lasts (h : device.lasts (2 * n) = true) : device.marked n = n := by
  rw [marked, List.countP_eq_length.mpr, List.length_range]
  intro i hi
  exact lasts_of_le (by have := List.mem_range.mp hi; omega) h

/-- Where the first write is not done, no id is asked for. -/
theorem asked_of_not_lasts (h : device.lasts 1 = false) (n : Nat) : device.asked n = 0 := by
  rw [asked, List.countP_eq_zero]
  intro i _
  rw [lasts_of_not_lasts (by omega) h]
  exact Bool.false_ne_true

theorem marked_of_not_lasts (h : device.lasts 2 = false) (n : Nat) : device.marked n = 0 := by
  rw [marked, List.countP_eq_zero]
  intro i _
  rw [lasts_of_not_lasts (by omega) h]
  exact Bool.false_ne_true

theorem asked_succ (h : device.lasts 1 = true) (n : Nat) : device.asked (n + 1) =
    1 + (List.range n).countP fun i => device.lasts (2 * (i + 1) + 1) := by
  rw [asked, List.range_succ_eq_map, List.countP_cons, List.countP_map, if_pos h, Nat.add_comm]
  rfl

theorem asked_succ_of_not_lasts (h1 : device.lasts 1 = true) (h2 : device.lasts 2 = false) (n : Nat) :
    device.asked (n + 1) = 1 := by
  rw [asked_succ h1, List.countP_eq_zero.mpr]
  intro i _
  rw [lasts_of_not_lasts (by omega) h2]
  exact Bool.false_ne_true

theorem lasts_next_next (h : device.lasts 2 = true) (n : Nat) :
    device.next.2.next.2.lasts n = device.lasts (n + 2) := by
  rw [lasts_succ, lasts_succ, Bool.and_eq_true, Bool.and_eq_true] at h
  rw [lasts_succ, lasts_succ, h.1, h.2.1, Bool.true_and, Bool.true_and]

theorem asked_next_next (h : device.lasts 2 = true) (n : Nat) :
    device.asked (n + 1) = 1 + device.next.2.next.2.asked n := by
  rw [asked_succ (lasts_of_le (by omega) h), asked]
  simp only [lasts_next_next h]
  rfl

theorem marked_next_next (h : device.lasts 2 = true) (n : Nat) :
    device.marked (n + 1) = 1 + device.next.2.next.2.marked n := by
  rw [marked, List.range_succ_eq_map, List.countP_cons, List.countP_map, if_pos h, Nat.add_comm, marked]
  simp only [lasts_next_next h]
  rfl

end Device

namespace Insertion

open Run Staged

variable {contents before : Bytes} {c : Counter} {targets : List Entry} {target scratch : Path} {device : Device}
  {d : Disk} {w : Nat}

/-- How filling ends: what it answers, and how far it has come. -/
inductive Filled (contents : Bytes) (cursor : Nat) (targets : List Entry) (target scratch : Path) (before : Bytes)
    (device : Device) (d : Disk) (c : Counter) (w : Nat) : Except Setback Unit → Progress → Prop
  | whole {data : Bytes} {c' : Counter} (hsplice : splice contents cursor targets c = (.ok data, c'))
    (hlasts : device.lasts (2 * targets.length + 1) = true) :
    Filled contents cursor targets target scratch before device d c w (.ok ())
      ⟨opened target scratch (before ++ data) (device.after (2 * targets.length + 1)), d, c', w + targets.length⟩
  | overflowed {o : Overflow} {c' : Counter} {more : Bytes} {device' : Device} {w' : Nat}
    (hsplice : splice contents cursor targets c = (.error o, c'))
    (hmore : greatestId + 1 < c.next + device.asked targets.length) (hlater : device.Later device') :
    Filled contents cursor targets target scratch before device d c w (.error (.overflow o))
      ⟨opened target scratch more device', d, c', w'⟩
  | broken {fault : DeviceFault} {more : Bytes} {device' : Device}
    (hshort : device.lasts (2 * targets.length + 1) = false)
    (hids : device.asked targets.length = 0 ∨ c.next + device.asked targets.length ≤ greatestId + 1)
    (hlater : device.Later device') :
    Filled contents cursor targets target scratch before device d c w (.error (.staged (.device fault)))
      ⟨opened target scratch more device', d, ⟨c.next + device.asked targets.length⟩, w + device.marked targets.length⟩

theorem run_act_ok {step : Act Unit} {p : Progress} {s' : Staged} {d' : Disk}
    (h : step.run.run (p.staged, p.disk) = (.ok (), s', d')) :
    (act step).run.run p = (.ok (), { p with staged := s', disk := d' }) := by
  simp only [act, run_get_bind, h]
  rfl

theorem run_act_error {step : Act Unit} {p : Progress} {e : Staged.Error} {s' : Staged} {d' : Disk}
    (h : step.run.run (p.staged, p.disk) = (.error e, s', d')) :
    (act step).run.run p = (.error (.staged e), { p with staged := s', disk := d' }) := by
  simp only [act, run_get_bind, h]
  rfl

theorem run_act_write_done (h : device.next.1 = .done) (data : Bytes) :
    (act (Staged.write data)).run.run ⟨opened target scratch before device, d, c, w⟩ =
      (.ok (), ⟨opened target scratch (before ++ data) device.next.2, d, c, w⟩) :=
  run_act_ok (run_write_done h data)

theorem run_act_write_failed {fault : DeviceFault} {taken : Nat} (h : device.next.1 = .failed fault taken)
    (data : Bytes) :
    (act (Staged.write data)).run.run ⟨opened target scratch before device, d, c, w⟩ =
      (.error (.staged (.device fault)),
        ⟨opened target scratch (before ++ data.take taken) device.next.2, d, c, w⟩) :=
  run_act_error (run_write_failed h data)

theorem run_fetch_ok {id : Int} {c' : Counter} {s : Staged} (h : c.fetch = .ok (id, c')) :
    fetch.run.run ⟨s, d, c, w⟩ = (.ok id, ⟨s, d, c', w⟩) := by
  simp only [fetch, run_get_bind, h]
  rfl

theorem run_fetch_error {o : Overflow} {s : Staged} (h : c.fetch = .error o) :
    fetch.run.run ⟨s, d, c, w⟩ = (.error (.overflow o), ⟨s, d, c, w⟩) := by
  simp only [fetch, run_get_bind, h]
  rfl

theorem Filled.whole_of {cursor : Nat} {data : Bytes} {c' : Counter} {device' : Device} {w' : Nat}
    (hsplice : splice contents cursor targets c = (.ok data, c'))
    (hlasts : device.lasts (2 * targets.length + 1) = true)
    (hdevice : device' = device.after (2 * targets.length + 1)) (hw : w' = w + targets.length) :
    Filled contents cursor targets target scratch before device d c w (.ok ())
      ⟨opened target scratch (before ++ data) device', d, c', w'⟩ := by
  rw [hdevice, hw]
  exact .whole hsplice hlasts

theorem Filled.broken_of {cursor : Nat} {fault : DeviceFault} {more : Bytes} {device' : Device} {c' : Counter}
    {w' : Nat}
    (hshort : device.lasts (2 * targets.length + 1) = false) (hc : c'.next = c.next + device.asked targets.length)
    (hids : device.asked targets.length = 0 ∨ c'.next ≤ greatestId + 1)
    (hw : w' = w + device.marked targets.length) (hlater : device.Later device') :
    Filled contents cursor targets target scratch before device d c w (.error (.staged (.device fault)))
      ⟨opened target scratch more device', d, c', w'⟩ := by
  obtain ⟨next⟩ := c'
  dsimp only at hc hids
  rw [hc] at hids ⊢
  rw [hw]
  exact .broken hshort hids hlater

/-- Where the first write is not done, nothing has happened but that. -/
theorem Filled.at_once {cursor : Nat} {fault : DeviceFault} {more : Bytes} (hshort : device.lasts 1 = false) :
    Filled contents cursor targets target scratch before device d c w (.error (.staged (.device fault)))
      ⟨opened target scratch more device.next.2, d, c, w⟩ := by
  have hasked := Device.asked_of_not_lasts hshort targets.length
  have hmarked := Device.marked_of_not_lasts (Device.lasts_of_not_lasts (by omega) hshort) targets.length
  exact .broken_of (Device.lasts_of_not_lasts (by omega) hshort) (by omega) (.inl hasked) (by omega)
    (Device.Later.refl device).next

/-- A place at which both writes were done comes before what is left to fill. -/
theorem Filled.step {cursor : Nat} {e : Entry} {r : Except Setback Unit} {p : Progress}
    (hle : c.next ≤ greatestId) (h1 : device.next.1 = .done) (h2 : device.next.2.next.1 = .done)
    (h : Filled contents (clampOffset contents.length e.position.offset) targets target scratch
      (before ++ ((contents.take (clampOffset contents.length e.position.offset)).drop cursor ++
        Bytes.ofString (e.markFor c.next))) device.next.2.next.2 d ⟨c.next + 1⟩ (w + 1) r p) :
    Filled contents cursor (e :: targets) target scratch before device d c w r p := by
  have hlasts : ∀ n, device.next.2.next.2.lasts n = device.lasts (n + 2) := by
    intro n
    rw [Device.lasts_of_done h1, Device.lasts_of_done h2]
  have htwo : device.lasts 2 = true := (hlasts 0).symm
  have hasked := Device.asked_next_next htwo targets.length
  have hmarked := Device.marked_next_next htwo targets.length
  have hlater : ∀ device', device.next.2.next.2.Later device' → device.Later device' := by
    rintro _ ⟨calls, rfl⟩
    exact ⟨calls, rfl⟩
  have hcount : 2 * (e :: targets).length + 1 = 2 * targets.length + 1 + 2 := by
    rw [List.length_cons]
    omega
  have hsplit := splice_cons contents cursor e targets hle
  cases h with
  | whole hsplice hmore =>
    rw [hsplice] at hsplit
    rw [List.append_assoc]
    refine .whole_of hsplit (by rw [hcount, ← hlasts, hmore]) ?_ (by rw [List.length_cons]; omega)
    rw [hcount, Device.after_next, Device.after_next]
  | overflowed hsplice hmore hdevice =>
    rw [hsplice] at hsplit
    refine .overflowed hsplit ?_ (hlater _ hdevice)
    rw [List.length_cons, hasked]
    dsimp only at hmore
    omega
  | broken hshort hids hdevice =>
    dsimp only at hids
    refine .broken_of (by rw [hcount, ← hlasts, hshort]) ?_ ?_ ?_ (hlater _ hdevice) <;>
      simp only [List.length_cons, hasked, hmarked] <;> omega

/-- Filling ends in one of these ways. -/
theorem fill_filled (contents : Bytes) (cursor : Nat) (targets : List Entry) (target scratch : Path) (before : Bytes)
    (device : Device) (d : Disk) (c : Counter) (w : Nat) :
    ∃ r p, (fill contents cursor targets).run.run ⟨opened target scratch before device, d, c, w⟩ = (r, p) ∧
      Filled contents cursor targets target scratch before device d c w r p := by
  induction targets generalizing cursor before device c w with
  | nil =>
    cases h1 : device.next.1 with
    | failed fault taken => exact ⟨_, _, run_act_write_failed h1 _, .at_once (Device.lasts_of_failed h1 0)⟩
    | done =>
      exact ⟨_, _, run_act_write_done h1 _, .whole_of rfl (Device.lasts_of_done h1 0) device.next_eq_after rfl⟩
  | cons e targets ih =>
    rw [fill]
    cases h1 : device.next.1 with
    | failed fault taken =>
      exact ⟨_, _, run_bind_error (run_act_write_failed h1 _), .at_once (Device.lasts_of_failed h1 0)⟩
    | done =>
      have hone : device.lasts 1 = true := Device.lasts_of_done h1 0
      rw [run_bind_ok (run_act_write_done h1 _)]
      by_cases hover : (greatestId : Int) < c.next
      · have hfetch : c.fetch = .error ⟨c.next⟩ := if_pos hover
        refine ⟨_, _, run_bind_error (run_fetch_error hfetch), .overflowed ?_ ?_ (Device.Later.refl device).next⟩
        · simp only [splice, hfetch]
        · rw [List.length_cons, Device.asked_succ hone]
          omega
      · have hfetch : c.fetch = .ok (c.next, ⟨c.next + 1⟩) := if_neg hover
        rw [run_bind_ok (run_fetch_ok hfetch)]
        cases h2 : device.next.2.next.1 with
        | failed fault taken =>
          have htwo : device.lasts 2 = false := by rw [Device.lasts_of_done h1, Device.lasts_of_failed h2]
          have hasked := Device.asked_succ_of_not_lasts hone htwo targets.length
          have hmarked := Device.marked_of_not_lasts htwo (targets.length + 1)
          refine ⟨_, _, run_bind_error (run_act_write_failed h2 _), .broken_of ?_ ?_ ?_ ?_ ?_⟩
          · exact Device.lasts_of_not_lasts (by rw [List.length_cons]; omega) htwo
          · rw [List.length_cons, hasked]
            rfl
          · exact .inr (by dsimp only; omega)
          · rw [List.length_cons, hmarked]
            rfl
          · exact (Device.Later.refl device).next.next
        | done =>
          rw [run_bind_ok (run_act_write_done h2 _)]
          obtain ⟨r, p, hrun, hfilled⟩ := ih (clampOffset contents.length e.position.offset)
            (before ++ ((contents.take (clampOffset contents.length e.position.offset)).drop cursor ++
              Bytes.ofString (e.markFor c.next))) device.next.2.next.2 ⟨c.next + 1⟩ (w + 1)
          rw [← List.append_assoc] at hrun
          exact ⟨r, p, hrun, hfilled.step (Int.not_lt.mp hover) h1 h2⟩

end Insertion

end LogRef
