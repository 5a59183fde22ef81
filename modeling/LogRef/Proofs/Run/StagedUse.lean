import LogRef.Proofs.FileSystem.NewFile
import LogRef.Proofs.Run.Staging

/-!
# Staged files, however they are used

Whatever is written and committed to a staged file, and in whatever order, the disk after it is the disk before it, or
it has the new contents in place of the target and is the same in all else. On a device that takes all that is written
only the first commit counts, with what was written before it. On others a commit may work after one that did not, and a
scratch file that is given up may stay; the target is still replaced as a whole or not at all.
-/
namespace LogRef

namespace Disk

variable {d d' : Disk} {target scratch : Path} {place : Place} {data : Bytes} {mode : Nat}

/-- The permission bits that new contents take over are those of what the target leads to. There is one target that has
none and gets past: a link to the very place where the scratch file is put leads to the scratch file. -/
def Lends (d : Disk) (target scratch : Path) (mode : Nat) : Prop :=
  d.mode target = .ok mode ∨ mode = 0o600 ∧ ∃ place, d.Awaits true target place ∧ d.Awaits false scratch place

/-- New contents stand in place of the file or the link that a path names, and all else is as it was. The path leads to
them, unless that was a link to a directory, which the path may also have gone through. -/
inductive Swapped (d : Disk) (target scratch : Path) (data : Bytes) : Disk → Prop
  | mk {place : Place} {item : Item} {mode : Nat} (hfound : d.locate false target = .ok (.occupied place item))
    (hitem : ∀ m, item ≠ .directory m) (hmode : d.Lends target scratch mode)
    (hleads : (d.withFile place data mode).locate true target = .ok (.occupied place (.file data mode)) ∨
      ∃ q m, d.locate true target = .ok (.occupied q (.directory m))) :
    Swapped d target scratch data (d.withFile place data mode)

/-- Nothing is there that was not there before. -/
theorem Swapped.get? (h : d.Swapped target scratch data d') {q : Place} (hq : d.tree.get? q = none) :
    d'.tree.get? q = none := by
  cases h with
  | @mk place item mode hfound hitem _ _ =>
    have hthere := get?_of_locate hfound hitem
    have hne : q ≠ place := by
      rintro rfl
      rw [hq] at hthere
      cases hthere
    exact (FileTree.get?_put_ne hne).trans hq

/-- A scratch file that is there has no other permission bits to lend than the target has. -/
theorem lends_of_mode (hd : d.WellFormed) (hplace : d.Awaits false scratch place)
    (h : (d.withFile place data 0o600).mode target = .ok mode) : d.Lends target scratch mode := by
  unfold Lends
  rcases locate_beside hd hplace true target data 0o600 with heq | ⟨hawaits, hfile⟩ | ⟨kind, kind', _, herror⟩
  · exact .inl (by rw [← h, Disk.mode, Disk.mode, heq])
  · rw [Disk.mode, hfile] at h
    exact .inr ⟨(Except.ok.inj h).symm, place, hawaits, hplace⟩
  · rw [Disk.mode, herror] at h
    cases h

theorem Awaits.unique {follow : Bool} {q : Place} (h : d.Awaits follow target place) (h' : d.Awaits follow target q) :
    place = q := by
  obtain ⟨parent, name, hl, rfl⟩ := h
  obtain ⟨parent', name', hl', rfl⟩ := h'
  rw [hl] at hl'
  cases hl'
  rfl

/-- A path to a free place leads there too when links are followed. -/
theorem Awaits.followed (h : d.Awaits false target place) : d.Awaits true target place := by
  obtain ⟨parent, name, hl, hplace⟩ := h
  have hunlinked : d.Unlinked target := by
    intro q text hlink
    rw [hl] at hlink
    cases hlink
  exact ⟨parent, name, hunlinked.locate.trans hl, hplace⟩

/-- A target with permission bits to lend is there, but for the link to the scratch file. -/
theorem Lends.cases (h : d.Lends target scratch mode) :
    (∃ q item, d.locate true target = .ok (.occupied q item)) ∨
      ∃ place, d.Awaits true target place ∧ d.Awaits false scratch place := by
  rcases h with hmode | ⟨_, hlink⟩
  · unfold Disk.mode at hmode
    split at hmode
    · next hl => exact .inl ⟨_, _, hl⟩
    · next hl => exact .inl ⟨_, _, hl⟩
    · cases hmode
    · cases hmode
  · exact .inr hlink

/-- With permission bits to lend, a path to a free place leads to the place of the scratch file. -/
theorem Lends.awaits {q : Place} (h : d.Lends target scratch mode) (hplace : d.Awaits false scratch place)
    (hq : d.Awaits false target q) : q = place := by
  have hfollowed := hq.followed
  rcases h.cases with ⟨_, _, hl⟩ | ⟨p, htarget, hscratch⟩
  · obtain ⟨_, _, hfree, _⟩ := hfollowed
    rw [hl] at hfree
    cases hfree
  · exact (hfollowed.unique htarget).trans (hscratch.unique hplace)

theorem Lends.locate (h : d.Lends target scratch mode) : ∃ dest, d.locate true target = .ok dest := by
  rcases h.cases with ⟨q, item, hl⟩ | ⟨_, ⟨parent, name, hl, _⟩, _⟩
  · exact ⟨_, hl⟩
  · exact ⟨_, hl⟩

/-- The path leads to what takes the place of a file or a link, unless it led to a directory. -/
theorem locate_swapped (hd : d.WellFormed) {item : Item} (hfound : d.locate false target = .ok (.occupied place item))
    (hitem : ∀ m, item ≠ .directory m) (hmode : d.Lends target scratch mode) :
    (d.withFile place data mode).locate true target = .ok (.occupied place (.file data mode)) ∨
      ∃ q m, d.locate true target = .ok (.occupied q (.directory m)) := by
  obtain ⟨dest, hdest⟩ := hmode.locate
  by_cases hend : ∃ q m, dest = .occupied q (.directory m)
  · obtain ⟨q, m, rfl⟩ := hend
    exact .inr ⟨q, m, hdest⟩
  · refine .inl (locate_replaced hd hfound hitem hdest (fun q m hdir => ?_) data mode)
    exact hend ⟨q, m, hdir⟩

end Disk

namespace Staged

open Run

variable {d d' : Disk} {tag : String} {target scratch : Path} {s : Staged} {place : Place} {data : Bytes}
  {device device' : Device} {x y : Staged × Disk}

/-! ## Committing to any target -/

/-- A target never has the name of its scratch file. -/
theorem not_awaits_scratch (hplace : d.Awaits false (scratchPath d tag target) place) :
    ¬ d.Awaits false target place := by
  intro htarget
  have hlast : target.steps.getLast? = (scratchPath d tag target).steps.getLast? := htarget.last.trans hplace.last.symm
  rw [scratchPath, Path.child, List.getLast?_concat] at hlast
  have hname : target.name = "." ++ target.name ++ "." ++ tag ++ ".breadlog" := by
    conv_lhs => rw [Path.name, List.getLastD_eq_getLast?, hlast, Option.getD_some]
    rfl
  have hlength := congrArg String.length hname
  simp only [String.length_append] at hlength
  have hdot : (".").length = 1 := rfl
  omega

/-- What landed stands in place of the target. -/
theorem swapped_of_landed (hd : d.WellFormed) (hplace : d.Awaits false (scratchPath d tag target) place)
    (h : landed (d.withFile place data 0o600) (scratchPath d tag target) target = .ok d') :
    d.Swapped target (scratchPath d tag target) data d' := by
  have hfree := hplace.leadsToFree
  have hname := not_awaits_scratch hplace
  obtain ⟨mode, hmode, h⟩ := bind_ok h
  obtain ⟨d1, hset, h⟩ := bind_ok h
  obtain rfl : d.withFile place data mode = d1 := Except.ok.inj ((hfree.setMode mode).symm.trans hset)
  have hlends := Disk.lends_of_mode hd hplace hmode
  rcases Disk.locate_beside hd hplace false target data mode with heq | ⟨hawaits, _⟩ | ⟨_, _, _, herror⟩
  · cases hl : d.locate false target with
    | error kind =>
      rw [Disk.replace, hfree.found, heq, hl] at h
      cases h
    | ok dest =>
      cases dest with
      | free parent name =>
        have hawaits : d.Awaits false target (parent ++ [name]) := ⟨parent, name, hl, rfl⟩
        exact absurd (hlends.awaits hplace hawaits ▸ hawaits) hname
      | occupied q item =>
        by_cases hdir : ∃ m, item = .directory m
        · obtain ⟨m, rfl⟩ := hdir
          rw [Disk.replace, hfree.found, heq, hl] at h
          cases h
        · have hitem : ∀ m, item ≠ .directory m := fun m hm => hdir ⟨m, hm⟩
          rw [hfree.replace hl hitem] at h
          cases h
          exact .mk hl hitem hlends (Disk.locate_swapped hd hl hitem hlends)
  · exact absurd hawaits hname
  · rw [Disk.replace, hfree.found, herror] at h
    cases h

/-! ## Uses -/

/-- What can be done with a staged file. -/
inductive Action
  | write (data : Bytes)
  | commit
  deriving DecidableEq, Repr

def perform : Action → Act Unit
  | .write data => write data
  | .commit => commit

/-- The answers to actions, one after the other, and the staged file and the disk after them. -/
def performAll (x : Staged × Disk) : List Action → List (Except Error Unit) × Staged × Disk
  | [] => ([], x)
  | action :: rest =>
    let (answer, x) := (perform action).run.run x
    let (answers, x) := performAll x rest
    (answer :: answers, x)

/-- What can happen while a staged file is open: an action, or an exception that ends it. -/
inductive Step
  | action (action : Action)
  | raise
  deriving DecidableEq, Repr

/-- The actions that come before any exception. -/
def performed : List Step → List Action
  | .action action :: rest => action :: performed rest
  | .raise :: _ => []
  | [] => []

/-- A use of a staged file: what is done before it is opened, while it is open and after it is left. -/
structure Use where
  target : Path
  before : List Action
  inside : List Step
  after : List Action

/-- What came of a use: the answers, whether the file could be opened and left, and the staged file and the disk at the
end. -/
structure Used where
  before : List (Except Error Unit)
  entered : Except Error Unit
  inside : List (Except Error Unit)
  left : Except Error Unit
  after : List (Except Error Unit)
  staged : Staged
  disk : Disk

def Use.run (u : Use) (device : Device) (d : Disk) (tag : String) : Used :=
  let (before, s, d) := performAll (new u.target device, d) u.before
  match s.enter d tag with
  | .error e =>
    let (after, s, d) := performAll (s, d) u.after
    ⟨before, .error e, [], .ok (), after, s, d⟩
  | .ok x =>
    let (inside, x) := performAll x (performed u.inside)
    let (left, x) := leave.run.run x
    let (after, s, d) := performAll x u.after
    ⟨before, .ok (), inside, left, after, s, d⟩

/-- What is written before the first commit. -/
def written : List Action → Bytes
  | .write data :: rest => data ++ written rest
  | .commit :: _ => []
  | [] => []

/-- The actions up to the first commit. -/
def firstAttempt : List Action → List Action
  | .write data :: rest => .write data :: firstAttempt rest
  | .commit :: _ => [.commit]
  | [] => []

/-- The answers to actions on an open file, given that to the first commit: writes before it are taken, and all that
comes after it is refused. -/
def answersTo (outcome : Except Error Unit) : List Action → List (Except Error Unit)
  | .write _ :: rest => .ok () :: answersTo outcome rest
  | .commit :: rest => outcome :: rest.map fun _ => .error .notOpen
  | [] => []

/-- A use with what is done in its block only. -/
def Use.block (u : Use) : Use := ⟨u.target, [], u.inside, []⟩

/-- The part of a use that has an effect. -/
def Use.essential (u : Use) : Use := ⟨u.target, [], (firstAttempt (performed u.inside)).map .action, []⟩

theorem performed_map_action (actions : List Action) : performed (actions.map .action) = actions := by
  induction actions with
  | nil => rfl
  | cons action rest ih => rw [List.map_cons, performed, ih]

theorem performAll_cons (x : Staged × Disk) (action : Action) (rest : List Action) :
    performAll x (action :: rest) = (((perform action).run.run x).1 ::
      (performAll ((perform action).run.run x).2 rest).1, (performAll ((perform action).run.run x).2 rest).2) := rfl

/-! ## On any device -/

/-- A staged file that is not open refuses everything. -/
theorem perform_closed (h : x.1.stream = .absent) (action : Action) :
    (perform action).run.run x = (.error .notOpen, x) := by
  obtain ⟨⟨target, scratch, stream, device, isCommitted⟩, d⟩ := x
  obtain rfl : stream = .absent := h
  cases action with
  | write data => rfl
  | commit => cases scratch <;> rfl

theorem performAll_closed (h : x.1.stream = .absent) (actions : List Action) :
    performAll x actions = (actions.map fun _ => .error .notOpen, x) := by
  induction actions with
  | nil => rfl
  | cons action rest ih => rw [performAll_cons, perform_closed h action, ih, List.map_cons]

/-- So does one that is held for open and is not. -/
theorem perform_refused (h : ∀ contents, x.1.stream ≠ .opened contents) (hscratch : x.1.scratch = some scratch)
    (action : Action) : ∃ e, (perform action).run.run x = (.error e, x) := by
  obtain ⟨⟨target, _, stream, device, isCommitted⟩, d⟩ := x
  obtain rfl := hscratch
  cases stream with
  | opened contents => exact absurd rfl (h contents)
  | absent => exact ⟨_, perform_closed rfl action⟩
  | shut =>
    cases action with
    | write data => exact ⟨_, rfl⟩
    | commit => exact ⟨_, rfl⟩

theorem performAll_refused (h : ∀ contents, x.1.stream ≠ .opened contents) (hscratch : x.1.scratch = some scratch)
    (actions : List Action) :
    (performAll x actions).2 = x ∧ ∀ answer ∈ (performAll x actions).1, ∃ e, answer = .error e := by
  induction actions with
  | nil => exact ⟨rfl, fun _ hmem => by cases hmem⟩
  | cons action rest ih =>
    obtain ⟨e, he⟩ := perform_refused h hscratch action
    rw [performAll_cons, he]
    refine ⟨ih.1, fun answer hmem => ?_⟩
    rcases List.mem_cons.mp hmem with rfl | hmem
    · exact ⟨e, rfl⟩
    · exact ih.2 answer hmem

/-- How a staged file stands while it is in use: open, with its scratch file on the disk; given up by a commit, with
the scratch file still there; or committed. -/
inductive Standing (d : Disk) (target scratch : Path) (place : Place) (device : Device) : Staged × Disk → Prop
  | opened {contents old : Bytes} {device' : Device} (hlater : device.Later device') :
    Standing d target scratch place device (opened target scratch contents device', d.withFile place old 0o600)
  | failed {x : Staged × Disk} (hstream : ∀ contents, x.1.stream ≠ .opened contents)
    (hinUse : InUse d target scratch place device x) : Standing d target scratch place device x
  | committed {data : Bytes} {device' : Device} {d' : Disk} (hswapped : d.Swapped target scratch data d') :
    Standing d target scratch place device (⟨target, some scratch, .absent, device', true⟩, d')

section

variable (hd : d.WellFormed) (hplace : d.Awaits false (scratchPath d tag target) place)

include hd hplace

/-- A commit of an open file leaves it open or gives it up, or puts it in place. -/
theorem standing_commit {device' : Device} (hlater : device.Later device') (contents old : Bytes) :
    Standing d target (scratchPath d tag target) place device
      (commit.run.run (opened target (scratchPath d tag target) contents device', d.withFile place old 0o600)).2 := by
  have hfree := hplace.leadsToFree
  cases hlasts : device'.lasts 3 with
  | false =>
    obtain ⟨fault, stream, data, device2, hlater2, hrun⟩ :=
      @run_commit_failed _ target _ _ _ hfree hlasts contents old 0o600
    rw [hrun]
    have hinUse : InUse d target (scratchPath d tag target) place device'
        (⟨target, some (scratchPath d tag target), stream, device2, false⟩, d.withFile place data 0o600) :=
      ⟨rfl, rfl, rfl, hlater2, data, 0o600, rfl⟩
    cases stream with
    | opened contents' => exact .opened (hlater.trans hlater2)
    | absent => exact .failed (fun _ h => by cases h) (hinUse.of_later hlater)
    | shut => exact .failed (fun _ h => by cases h) (hinUse.of_later hlater)
  | true =>
    rw [run_commit_closed hfree hlasts]
    rcases land_cases hfree ⟨target, some (scratchPath d tag target), .absent, device'.after 3, false⟩ contents 0o600
      with ⟨why, mode, hfails⟩ | ⟨d', _, _, hlanded, hworks⟩
    · rw [hfails]
      have hinUse : InUse d target (scratchPath d tag target) place device'
          (⟨target, some (scratchPath d tag target), .absent, device'.after 3, false⟩,
            d.withFile place contents mode) :=
        ⟨rfl, rfl, rfl, device'.later_after 3, contents, mode, rfl⟩
      exact .failed (fun _ h => by cases h) (hinUse.of_later hlater)
    · rw [hworks]
      exact .committed (swapped_of_landed hd hplace hlanded)

/-- What an action does to a staged file in use. -/
theorem Standing.perform (h : Standing d target (scratchPath d tag target) place device x) (action : Action) :
    Standing d target (scratchPath d tag target) place device ((perform action).run.run x).2 := by
  cases h with
  | committed hswapped =>
    rw [perform_closed rfl]
    exact .committed hswapped
  | failed hstream hinUse =>
    obtain ⟨e, he⟩ := perform_refused hstream hinUse.scratch action
    rw [he]
    exact .failed hstream hinUse
  | @opened contents old device' hlater =>
    cases action with
    | commit => exact standing_commit hd hplace hlater contents old
    | write data =>
      cases hnext : device'.next.1 with
      | done =>
        rw [Staged.perform, run_write_done hnext]
        exact .opened hlater.next
      | failed fault taken =>
        rw [Staged.perform, run_write_failed hnext]
        exact .opened hlater.next

theorem Standing.performAll (h : Standing d target (scratchPath d tag target) place device x)
    (actions : List Action) :
    Standing d target (scratchPath d tag target) place device (performAll x actions).2 := by
  induction actions generalizing x with
  | nil => exact h
  | cons action rest ih => exact ih (h.perform hd hplace action)

end

/-- What leaving a staged file in use comes to. -/
theorem Standing.leave (hplace : d.Awaits false scratch place) (h : Standing d target scratch place device x) :
    ∃ left y, leave.run.run x = (left, y) ∧ (∀ contents, y.1.stream ≠ .opened contents) ∧
      y.1.scratch = some scratch ∧ (y.1.isCommitted = false ∧ GivenUp device scratch d y.2 ∨
        y.1.isCommitted = true ∧ ∃ data, d.Swapped target scratch data y.2) := by
  have hcases : InUse d target scratch place device x ∨ ∃ data device' d',
      x = (⟨target, some scratch, .absent, device', true⟩, d') ∧ d.Swapped target scratch data d' := by
    cases h with
    | opened hlater => exact .inl (inUse_opened hlater)
    | failed _ hinUse => exact .inl hinUse
    | committed hswapped => exact .inr ⟨_, _, _, rfl, hswapped⟩
  rcases hcases with hinUse | ⟨data, device', d', rfl, hswapped⟩
  · obtain ⟨left, y, hleave, huncommitted, hscratch, hstream, hgiven, _⟩ := givenUp_of_inUse hplace hinUse
    exact ⟨left, y, hleave, hstream, hscratch, .inl ⟨huncommitted, hgiven⟩⟩
  · exact ⟨_, _, leave_committed _ _ _ _, (fun _ h => by cases h), rfl, .inr ⟨rfl, data, hswapped⟩⟩

/-! ## On a device that takes all that is written -/

section

variable (hfree : d.LeadsToFree scratch place) (htakes : device.TakesAll)

include hfree htakes

/-- A commit closes the scratch file, and then it lands or not. -/
theorem commit_closes (contents old : Bytes) (mode : Nat) :
    (commit.run.run (opened target scratch contents device, d.withFile place old mode)).2.1.stream = .absent := by
  rw [run_commit_closed hfree (htakes.lasts 3)]
  rcases land_cases hfree ⟨target, some scratch, .absent, device.after 3, false⟩ contents mode with
    ⟨why, mode', hfails⟩ | ⟨d', _, _, _, hworks⟩
  · rw [hfails]
  · rw [hworks]

/-- On an open file, writes are gathered up to the first commit, which closes it. -/
theorem performAll_open (actions : List Action) (before old : Bytes) (mode : Nat) :
    ∃ device', device.Later device' ∧ device'.TakesAll ∧
      performAll (opened target scratch before device, d.withFile place old mode) actions =
        if .commit ∈ actions then
          let r := commit.run.run (opened target scratch (before ++ written actions) device', d.withFile place old mode)
          (answersTo r.1 actions, r.2)
        else (answersTo (.ok ()) actions, opened target scratch (before ++ written actions) device',
          d.withFile place old mode) := by
  induction actions generalizing before device with
  | nil => exact ⟨device, .refl _, htakes, by simp [performAll, answersTo, written]⟩
  | cons action rest ih =>
    cases action with
    | write data =>
      obtain ⟨hdone, hnext⟩ := htakes.next
      obtain ⟨device', hlater, htakes', hrest⟩ := ih hnext (before ++ data)
      refine ⟨device', (Device.Later.refl device).next.trans hlater, htakes', ?_⟩
      rw [performAll_cons, perform, run_write_done hdone, hrest]
      simp only [List.mem_cons, reduceCtorEq, false_or, written, List.append_assoc]
      split <;> rfl
    | commit =>
      refine ⟨device, .refl _, htakes, ?_⟩
      rw [written, List.append_nil, if_pos List.mem_cons_self]
      have hclosed := @commit_closes _ target _ _ _ hfree htakes before old mode
      rw [performAll_cons, perform, performAll_closed hclosed]
      rfl

/-- What comes after the first commit changes neither the staged file nor the disk. -/
theorem performAll_firstAttempt (actions : List Action) (before old : Bytes) (mode : Nat) :
    (performAll (opened target scratch before device, d.withFile place old mode) (firstAttempt actions)).2 =
      (performAll (opened target scratch before device, d.withFile place old mode) actions).2 := by
  induction actions generalizing before device with
  | nil => rfl
  | cons action rest ih =>
    cases action with
    | write data =>
      obtain ⟨hdone, hnext⟩ := htakes.next
      rw [firstAttempt, performAll_cons, performAll_cons, perform, run_write_done hdone]
      exact ih hnext (before ++ data)
    | commit =>
      have hclosed := @commit_closes _ target _ _ _ hfree htakes before old mode
      rw [firstAttempt, performAll_cons, performAll_cons, perform, performAll_closed hclosed,
        performAll_closed hclosed]

end

namespace Use

variable {u : Use}

theorem run_unentered {e : Error} (h : (new u.target device).enter d tag = .error e) :
    u.run device d tag = ⟨u.before.map fun _ => .error .notOpen, .error e, [], .ok (),
      u.after.map fun _ => .error .notOpen, new u.target device, d⟩ := by
  have hnew (actions : List Action) : performAll (new u.target device, d) actions =
      (actions.map fun _ => .error .notOpen, new u.target device, d) := performAll_closed rfl actions
  simp only [run, hnew, h]

theorem run_entered (h : Opens device u.target d tag place) {r : List (Except Error Unit) × Staged × Disk}
    (hinside : performAll (opened u.target (scratchPath d tag u.target) [] device, d.withFile place [] 0o600)
      (performed u.inside) = r) {left : Except Error Unit} (hleave : leave.run.run r.2 = (left, y)) :
    u.run device d tag = ⟨u.before.map fun _ => .error .notOpen, .ok (), r.1, left, (performAll y u.after).1,
      (performAll y u.after).2.1, (performAll y u.after).2.2⟩ := by
  have hnew (actions : List Action) : performAll (new u.target device, d) actions =
      (actions.map fun _ => .error .notOpen, new u.target device, d) := performAll_closed rfl actions
  simp only [run, hnew, h.enter, hinside, hleave]

/-- On any device a use replaces its target as a whole or not at all, and all else that it can leave is its scratch
file. Outside of the block it does nothing. -/
structure Contained (u : Use) (device : Device) (d : Disk) (tag : String) (r : Used) : Prop where
  outside : ∀ answer ∈ r.before ++ r.after, ∃ e, answer = .error e
  disk : r.staged.isCommitted = false ∧ GivenUp device (scratchPath d tag u.target) d r.disk ∨
    r.staged.isCommitted = true ∧ ∃ data, d.Swapped u.target (scratchPath d tag u.target) data r.disk
  effect : (u.block.run device d tag).staged = r.staged ∧ (u.block.run device d tag).disk = r.disk

theorem refused_outside {α : Type} (xs : List α) (answer : Except Error Unit)
    (h : answer ∈ xs.map fun _ => (.error .notOpen : Except Error Unit)) : ∃ e, answer = .error e := by
  obtain ⟨_, _, rfl⟩ := List.mem_map.mp h
  exact ⟨_, rfl⟩

/-- What the block leaves, which refuses all that comes after it. -/
theorem run_left (hd : d.WellFormed) (hopens : Opens device u.target d tag place) : ∃ left y,
    leave.run.run (performAll (opened u.target (scratchPath d tag u.target) [] device, d.withFile place [] 0o600)
      (performed u.inside)).2 = (left, y) ∧
    (∀ actions, (performAll y actions).2 = y ∧ ∀ answer ∈ (performAll y actions).1, ∃ e, answer = .error e) ∧
    (y.1.isCommitted = false ∧ GivenUp device (scratchPath d tag u.target) d y.2 ∨
      y.1.isCommitted = true ∧ ∃ data, d.Swapped u.target (scratchPath d tag u.target) data y.2) := by
  have hopened : Standing d u.target (scratchPath d tag u.target) place device
      (opened u.target (scratchPath d tag u.target) [] device, d.withFile place [] 0o600) :=
    .opened (Device.Later.refl device)
  have hstanding := hopened.performAll hd hopens.awaits (performed u.inside)
  obtain ⟨left, y, hleave, hstream, hscratch, hdisk⟩ := hstanding.leave hopens.awaits
  exact ⟨left, y, hleave, performAll_refused hstream hscratch, hdisk⟩

theorem run_contained (u : Use) (device : Device) (hd : d.WellFormed) (tag : String) :
    u.Contained device d tag (u.run device d tag) := by
  rcases enter_cases device u.target d tag with ⟨why, henter⟩ | ⟨place, hopens⟩
  · have hblock : (new u.block.target device).enter d tag = .error (.file why) := henter
    rw [run_unentered henter]
    exact ⟨fun answer h => (List.mem_append.mp h).elim (refused_outside _ _) (refused_outside _ _),
      .inl ⟨rfl, .refl _ _ _⟩, by rw [run_unentered hblock]; exact ⟨rfl, rfl⟩⟩
  · have hblock : Opens device u.block.target d tag place := hopens
    obtain ⟨left, y, hleave, hafter, hdisk⟩ := run_left hd hopens
    obtain ⟨hsame, hrefused⟩ := hafter u.after
    rw [run_entered hopens rfl hleave, hsame]
    exact ⟨fun answer h => (List.mem_append.mp h).elim (refused_outside _ _) (hrefused _), hdisk,
      by rw [run_entered hblock rfl hleave]; exact ⟨rfl, rfl⟩⟩

/-- The first commit decides: what it answers, and whether the new contents are put in place. -/
inductive Decides (actions : List Action) : Except Error Unit → Bool → Prop
  | never (outcome : Except Error Unit) (h : .commit ∉ actions) : Decides actions outcome false
  | fails (e : FileError) (h : .commit ∈ actions) : Decides actions (.error (.file e)) false
  | works (h : .commit ∈ actions) : Decides actions (.ok ()) true

/-- What comes of a use of a file that could be opened, on a device that takes all that is written and lets a scratch
file be closed and removed: the first commit decides, and nothing else of it has an effect. -/
structure Ends (u : Use) (d : Disk) (tag : String) (outcome : Except Error Unit) (y : Staged × Disk) (r : Used) :
    Prop where
  eq : r = ⟨u.before.map fun _ => .error .notOpen, .ok (), answersTo outcome (performed u.inside), .ok (),
    u.after.map fun _ => .error .notOpen, y.1, y.2⟩
  decides : Decides (performed u.inside) outcome y.1.isCommitted
  disk : y.1.isCommitted = false ∧ y.2 = d ∨ y.1.isCommitted = true ∧
    d.Swapped u.target (scratchPath d tag u.target) (written (performed u.inside)) y.2

/-- Only the first commit has an effect, with what was written before it. -/
theorem run_essential (htakes : device.TakesAll) (u : Use) (hd : d.WellFormed) (tag : String) :
    (u.essential.run device d tag).staged = (u.run device d tag).staged ∧
      (u.essential.run device d tag).disk = (u.run device d tag).disk := by
  rcases enter_cases device u.target d tag with ⟨why, henter⟩ | ⟨place, hopens⟩
  · have hessential : (new u.essential.target device).enter d tag = .error (.file why) := henter
    rw [run_unentered henter, run_unentered hessential]
    exact ⟨rfl, rfl⟩
  · have hessential : Opens device u.essential.target d tag place := hopens
    have hactions : performed u.essential.inside = firstAttempt (performed u.inside) := performed_map_action _
    have hfirst := @performAll_firstAttempt _ u.target _ _ _ hopens.awaits.leadsToFree htakes (performed u.inside) [] []
      0o600
    obtain ⟨left, y, hleave, hafter, _⟩ := run_left hd hopens
    rw [run_entered hopens rfl hleave, run_entered hessential rfl (by rw [hactions]; exact hfirst ▸ hleave),
      (hafter u.after).1, (hafter u.essential.after).1]
    exact ⟨rfl, rfl⟩

/-- How a use of a file that could be opened ends. -/
theorem run_ends (htakes : device.TakesAll) (htidy : device.Tidy) (hd : d.WellFormed)
    (h : Opens device u.target d tag place) :
    ∃ outcome y, u.Ends d tag outcome y (u.run device d tag) ∧
      (.commit ∈ performed u.inside → device.modeCopy = none → device.rename = none →
        (∃ q bits, d.LeadsToFile u.target q bits) → y.1.isCommitted = true) := by
  have hfree := h.awaits.leadsToFree
  obtain ⟨device', hlater, htakes', hperformed⟩ :=
    @performAll_open _ u.target _ _ _ hfree htakes (performed u.inside) [] [] 0o600
  rw [List.nil_append] at hperformed
  split at hperformed
  · next hcommit =>
    rw [run_commit_closed hfree (htakes'.lasts 3)] at hperformed
    rcases land_cases hfree ⟨u.target, some (scratchPath d tag u.target), .absent, device'.after 3, false⟩
      (written (performed u.inside)) 0o600 with ⟨why, mode, hfails⟩ | ⟨d', _, _, hlanded, hworks⟩
    · rw [hfails] at hperformed
      have hinUse : InUse d u.target (scratchPath d tag u.target) place device' (⟨u.target,
          some (scratchPath d tag u.target), .absent, device'.after 3, false⟩,
          d.withFile place (written (performed u.inside)) mode) :=
        ⟨rfl, rfl, rfl, device'.later_after 3, _, mode, rfl⟩
      obtain ⟨left, y, hleave, huncommitted, _, _, hgiven, hleft⟩ :=
        givenUp_of_inUse h.awaits (hinUse.of_later hlater)
      obtain ⟨rfl, hclosed⟩ := hleft htidy
      have hdecides : Decides (performed u.inside) (.error (.file why)) y.1.isCommitted :=
        huncommitted ▸ .fails why hcommit
      refine ⟨_, y, ⟨?_, hdecides, .inl ⟨huncommitted, hgiven.tidy htidy⟩⟩, ?_⟩
      · rw [run_entered h hperformed hleave, performAll_closed hclosed]
      · rintro _ hcopy hrename ⟨q, bits, htarget⟩
        have hlater3 := hlater.trans (device'.later_after 3)
        obtain ⟨calls, hcalls⟩ := hlater3
        have hlanded := landed_of_leadsToFile hfree htarget (written (performed u.inside)) 0o600
        have hworks := land_ok (s := ⟨u.target, some (scratchPath d tag u.target), .absent, device'.after 3, false⟩)
          (by rw [hcalls]; exact hcopy) (by rw [hcalls]; exact hrename) hlanded
        cases hfails.symm.trans hworks
    · rw [hworks] at hperformed
      refine ⟨.ok (), (⟨u.target, some (scratchPath d tag u.target), .absent, device'.after 3, true⟩, d'),
        ⟨?_, .works hcommit, .inr ⟨rfl, swapped_of_landed hd h.awaits hlanded⟩⟩, fun _ _ _ _ => rfl⟩
      rw [run_entered h hperformed (leave_committed _ _ _ _), performAll_closed rfl]
  · next hcommit =>
    obtain ⟨left, y, hleave, huncommitted, _, _, hgiven, hleft⟩ := givenUp_of_inUse h.awaits (inUse_opened hlater)
    obtain ⟨rfl, hclosed⟩ := hleft htidy
    refine ⟨.ok (), y, ⟨?_, huncommitted ▸ .never _ hcommit, .inl ⟨huncommitted, hgiven.tidy htidy⟩⟩,
      fun hmem => absurd hmem hcommit⟩
    rw [run_entered h hperformed hleave, performAll_closed hclosed]

/-- A use is all or nothing. -/
structure Atomic (u : Use) (device : Device) (d : Disk) (tag : String) (r : Used) : Prop where
  /-- Outside of the block every action is refused, and leaving it raises nothing. -/
  before : r.before = u.before.map fun _ => .error .notOpen
  left : r.left = .ok ()
  after : r.after = u.after.map fun _ => .error .notOpen
  /-- The disk is as it was, or the new contents stand in place of the target and all else is as it was. -/
  disk : r.staged.isCommitted = false ∧ r.disk = d ∨ r.staged.isCommitted = true ∧
    d.Swapped u.target (scratchPath d tag u.target) (written (performed u.inside)) r.disk
  /-- No scratch file is left, nor anything else that was not there. -/
  nothingNew : ∀ q, d.tree.get? q = none → r.disk.tree.get? q = none
  /-- Inside of the block the first commit decides, and all that comes after it is refused. -/
  inside : (∃ e, r.entered = .error (.file e) ∧ r.inside = [] ∧ r.staged.isCommitted = false) ∨
    r.entered = .ok () ∧ ∃ outcome, r.inside = answersTo outcome (performed u.inside) ∧
      Decides (performed u.inside) outcome r.staged.isCommitted
  /-- What comes before the block, after it or after the first commit has no effect. -/
  effect : (u.essential.run device d tag).staged = r.staged ∧ (u.essential.run device d tag).disk = r.disk
  /-- A commit to a file that is there works, unless its mode cannot be copied or the scratch file not renamed. -/
  commits : r.entered = .ok () → .commit ∈ performed u.inside → device.modeCopy = none → device.rename = none →
    (∃ q bits, d.LeadsToFile u.target q bits) → r.staged.isCommitted = true

/-- However a staged file is used, its target is replaced as a whole or not at all, and only its scratch file can stay
behind. Where the device takes all that is written, and a scratch file can be closed and removed, none stays, and only
the first commit counts; creating the scratch file, copying the mode and renaming may still fail. -/
theorem staged_use_atomic (u : Use) (device : Device) (hd : d.WellFormed) (tag : String) :
    u.Contained device d tag (u.run device d tag) ∧
      (device.TakesAll → device.Tidy → u.Atomic device d tag (u.run device d tag)) := by
  refine ⟨u.run_contained device hd tag, fun htakes htidy => ?_⟩
  have hessential := run_essential htakes u hd tag
  rcases enter_cases device u.target d tag with ⟨why, henter⟩ | ⟨place, hopens⟩
  · rw [run_unentered henter] at hessential ⊢
    exact
      { before := rfl
        left := rfl
        after := rfl
        disk := .inl ⟨rfl, rfl⟩
        nothingNew := fun q hq => hq
        inside := .inl ⟨why, rfl, rfl, rfl⟩
        effect := hessential
        commits := fun hentered => by cases hentered }
  · obtain ⟨outcome, y, ⟨hrun, hdecides, hdisk⟩, hcommits⟩ := run_ends htakes htidy hd hopens
    rw [hrun] at hessential ⊢
    exact
      { before := rfl
        left := rfl
        after := rfl
        disk := hdisk
        nothingNew := by
          intro q hq
          rcases hdisk with ⟨_, hsame⟩ | ⟨_, hswapped⟩
          · exact (congrArg (fun d => d.tree.get? q) hsame).trans hq
          · exact hswapped.get? hq
        inside := .inr ⟨rfl, outcome, rfl, hdecides⟩
        effect := hessential
        commits := fun _ => hcommits }

/-- A link to a file. -/
def linked : Disk := ⟨⟨[(["a"], .link "b"), (["b"], .file [1] 0o640)]⟩, [], []⟩

/-- Commits twice, goes on after that and is cut off by an exception. -/
def commitsTwice : Use where
  target := ⟨.none, ["a"]⟩
  before := [.commit]
  inside := [.action (.write [2]), .action (.write [3]), .action .commit, .action (.write [4]), .action .commit, .raise,
    .action (.write [5])]
  after := [.write [6]]

theorem commitsTwice_atomic : linked.WellFormed ∧ Device.sound.TakesAll ∧ Device.sound.Tidy ∧
    commitsTwice.Atomic .sound linked "0" (commitsTwice.run .sound linked "0") ∧
    (commitsTwice.run .sound linked "0").disk = linked.withFile ["a"] [2, 3] 0o640 :=
  have hd : linked.WellFormed := ⟨by decide, FileTree.isDirectory_top _⟩
  ⟨hd, Device.takesAll_sound, Device.tidy_sound,
    (staged_use_atomic commitsTwice .sound hd "0").2 Device.takesAll_sound Device.tidy_sound, by rfl⟩

/-- Writes one byte and commits. -/
def commitsOnce (target : Path) : Use := ⟨target, [], [.action (.write [2]), .action .commit], []⟩

/-- A link to a directory. -/
def directoryLink : Disk := ⟨⟨[(["l"], .link "d"), (["d"], .directory 0o755)]⟩, [], []⟩

/-- A device that does not sync at first. -/
def syncsLate : Device := { Device.sound with calls := [.done, .done, .done, .failed .broken 0] }

/-- A device that neither flushes nor closes. -/
def keepsOpen : Device := { Device.sound with calls := [.done, .failed .full 0], closing := .failed .full 0 }

/-- New contents may stand where their path does not lead any more, if it goes through the link that they replace. After
a commit that could not sync, another may work. And a scratch file that can neither be flushed nor closed stays. -/
theorem use_not_atomic :
    let through := (commitsOnce ⟨.none, ["l", "..", "l"]⟩).run .sound directoryLink "0"
    let late := commitsTwice.run syncsLate linked "0"
    let kept := (commitsOnce ⟨.none, ["a"]⟩).run keepsOpen linked "0"
    (through.staged.isCommitted = true ∧ (through.disk.mode ⟨.none, ["l", "..", "l"]⟩).toOption = none) ∧
      (late.inside.map Except.toOption = [some (), some (), none, some (), some ()] ∧
        (late.disk.read ⟨.none, ["a"]⟩).toOption = some [2, 3, 4]) ∧
      kept.staged.isCommitted = false ∧ kept.disk.tree.get? [".a.0.breadlog"] = some (.file [] 0o600) := by
  decide +kernel

end Use

end Staged

end LogRef
