import LogRef.Proofs.FileSystem.Resolution
import LogRef.Proofs.Run.LockSoundness
import LogRef.Proofs.Settings.Checks
import LogRef.Proofs.Yaml.Scalars

/-!
# Lock files written and read

An id within bounds that is written is read back, whatever was in the lock file before. What else may be in one is read
as an id within bounds or counts as none, but for a few notations that no value has: with one of these among its
nodes, a lock file ends the run.
-/
namespace LogRef

namespace Disk

variable {d : Disk} {p : Path} {data : Bytes}

/-- Whether a file can be kept at a path: one is there, or nothing is, and the device can read what is there. -/
def admits (d : Disk) (p : Path) : Bool :=
  match d.locate true p with
  | .ok (.occupied place (.file _ _)) => !d.unreadable.contains place
  | .ok (.free parent name) => !d.unreadable.contains (parent ++ [name])
  | _ => false

/-- What is written where a file can be kept is read back. -/
theorem write_of_admits (h : d.admits p = true) (data : Bytes) :
    ∃ d', d.write p data = .ok d' ∧ d'.read p = .ok data := by
  obtain ⟨d', hd'⟩ : ∃ d', d.write p data = .ok d' := by
    unfold admits at h
    split at h
    · next hl => exact ⟨_, by rw [write, hl]⟩
    · next hl => exact ⟨_, by rw [write, hl]⟩
    · cases h
  obtain ⟨hunreadable, place, mode, hl', hl⟩ := locate_of_write hd'
  have hplace : place ∉ d'.unreadable := by
    rw [hunreadable]
    rw [admits] at h
    rcases hl with ⟨old, hl⟩ | ⟨parent, name, hl, rfl⟩
    · rw [hl] at h
      simpa using h
    · rw [hl] at h
      simpa using h
  exact ⟨d', hd', by rw [read, hl']; exact if_neg hplace⟩

theorem isFile_of_read (h : d.read p = .ok data) : d.isFile p = .ok true := by
  unfold read at h
  split at h
  · rename_i hl
    rw [isFile, item?, hl]
    rfl
  all_goals cases h

end Disk

open Run (run_get_bind run_bind_ok run_bind_error)

namespace Lock

variable {directory : Path} {s : Session} {data : Bytes} {d : Disk} {id n : Nat} {f : Fault}

/-! ## Reading -/

/-- The notice about a damage, or the fault that is none. -/
def Damage.notice (path : Path) : Damage → Except Fault Notice
  | .unreadable e => .ok (.lockUnreadable path.toString e.message)
  | .undecodable e => .ok (.lockUnreadable path.toString e.message)
  | .malformed => .ok (.lockUnreadable path.toString Yaml.Problem.malformed.message)
  | .invalid issues => .ok (.lockMalformed path.toString (Issue.summary issues))
  | .fault f => if f.isBadValue then .ok (.lockMalformed path.toString f.message) else .error f

theorem reportDamage_run (p : Path) (damage : Damage) (s : Session) :
    (reportDamage p damage).run.run s = match damage.notice p with
      | .ok notice => (.ok (), s.noting [notice])
      | .error f => (.error (.fault f), s) := by
  cases damage with
  | fault f => cases hbad : f.isBadValue <;> simp only [reportDamage, Damage.notice, hbad] <;> rfl
  | _ => rfl

/-- How a lock file with these contents is read. -/
theorem read_run (h : s.disk.read (path directory) = .ok data) :
    (read directory).run.run s = match parse data with
      | .ok id => (.ok (some id), s)
      | .error damage => match damage.notice (path directory) with
        | .ok notice => (.ok none, s.noting [notice])
        | .error f => (.error (.fault f), s) := by
  have hrun : (read directory).run.run s = (match parse data with
      | .ok id => pure (some id)
      | .error damage => reportDamage (path directory) damage >>= fun _ => pure none : Run (Option Nat)).run.run s := by
    unfold read
    rw [run_get_bind]
    simp only [Disk.isFile_of_read h, h]
    rfl
  rw [hrun]
  cases parse data with
  | ok id => rfl
  | error damage =>
    have hreport := reportDamage_run (path directory) damage s
    dsimp only
    cases hnotice : damage.notice (path directory) with
    | ok notice =>
      rw [hnotice] at hreport
      exact run_bind_ok hreport
    | error f =>
      rw [hnotice] at hreport
      exact run_bind_error hreport

/-! ## Writing -/

theorem write_run (hn : n ≤ greatestId) (h : s.disk.write (path directory) (Bytes.ofString (text n)) = .ok d) :
    (write directory n).run.run s =
      (.ok true, { s with disk := d }.noting [.lockWritten (path directory).toString n]) := by
  unfold write
  rw [bounded_of_le hn]
  dsimp only
  rw [run_get_bind, h]
  rfl

theorem write_refused {id : Int} (h : id < 0 ∨ greatestId < id) (directory : Path) (s : Session) :
    ∃ notice, (write directory id).run.run s = (.ok false, s.noting [notice]) := by
  obtain ⟨issues, hissues⟩ : ∃ issues, bounded id = .error issues := by
    unfold bounded
    by_cases hneg : id < 0
    · exact ⟨_, if_pos hneg⟩
    · have hbig : (greatestId : Int) < id := h.resolve_left hneg
      exact ⟨_, by rw [if_neg hneg, if_pos hbig]; rfl⟩
  unfold write
  rw [hissues]
  exact ⟨_, rfl⟩

/-- An id within bounds that is written is read back, whatever was in the file before or if there was none. Another id
is refused, and nothing changes. -/
theorem write_then_read (h : s.disk.admits (path directory) = true) (id : Int) :
    (0 ≤ id → id ≤ greatestId → ∃ (n : Nat) (s' : Session), (n : Int) = id ∧
      (write directory id).run.run s = (.ok true, s') ∧
      s'.disk.read (path directory) = .ok (Bytes.ofString (text n)) ∧
      (read directory).run.run s' = (.ok (some n), s')) ∧
    (id < 0 ∨ greatestId < id →
      ∃ s', (write directory id).run.run s = (.ok false, s') ∧ s'.disk = s.disk) := by
  constructor
  · intro hnonneg hle
    obtain ⟨n, rfl⟩ := Int.eq_ofNat_of_zero_le hnonneg
    have hn : n ≤ greatestId := by omega
    obtain ⟨d, hd, hread⟩ := Disk.write_of_admits h (Bytes.ofString (text n))
    refine ⟨n, _, rfl, write_run hn hd, hread, ?_⟩
    rw [read_run hread, parse_text hn]
  · intro hout
    obtain ⟨notice, hrun⟩ := write_refused hout directory s
    exact ⟨_, hrun, rfl⟩

/-- A directory with a source, settings and a lock file. -/
def locked (text : String) : Session :=
  let settings := "source_dir: src\nrust:\n  log_macros:\n  - module: log\n    name: info\n"
  .small "info!(\"m\");" [([fileName], .file (Bytes.ofString text) 0o644),
    (["breadlog.yaml"], .file (Bytes.ofString settings) 0o644)] .never

theorem read_locked (text : String) : (locked text).disk.read (path ⟨.single, []⟩) = .ok (Bytes.ofString text) := rfl

theorem write_then_read_greatest : (locked "[").disk.admits (path ⟨.single, []⟩) = true ∧
    (∃ s', (write ⟨.single, []⟩ 4294967295).run.run (locked "[") = (.ok true, s') ∧
      (read ⟨.single, []⟩).run.run s' = (.ok (some 4294967295), s')) ∧
    ∃ s', (write ⟨.single, []⟩ 4294967296).run.run (locked "[") = (.ok false, s') ∧ s'.disk = (locked "[").disk := by
  have hadmits : (locked "[").disk.admits (path ⟨.single, []⟩) = true := rfl
  refine ⟨hadmits, ?_, (write_then_read hadmits 4294967296).2 (.inr (by decide))⟩
  obtain ⟨n, s', hn, hwrite, -, hread⟩ := (write_then_read hadmits 4294967295).1 (by decide) (by decide)
  obtain rfl : n = 4294967295 := by omega
  exact ⟨s', hwrite, hread⟩

/-! ## Damage -/

theorem le_of_bounded {v : Int} (h : bounded v = .ok id) : id ≤ greatestId := by
  unfold bounded at h
  split at h
  · cases h
  · split at h
    · cases h
    · cases h
      omega

theorem le_of_ofValue {v : Value} (h : ofValue v = .ok id) : id ≤ greatestId := by
  obtain ⟨pairs, -, hfound⟩ := bind_ok h
  obtain ⟨w, -, hid⟩ := Check.required_ok (Checked.orIssues_ok hfound)
  obtain ⟨number, -, hbounded⟩ := bind_ok hid
  exact le_of_bounded hbounded

theorem le_of_parse (h : parse data = .ok id) : id ≤ greatestId := by
  unfold parse at h
  split at h
  · cases h
  · split at h
    · cases h
    · cases h
    · exact le_of_ofValue (mapError_ok h)

/-- A lock file with a trap in its document. -/
def Trapped (data : Bytes) (f : Fault) : Prop :=
  ∃ text, Utf8.decode data = .ok text ∧ Yaml.Trapped (Text.unifyBreaks text) f

/-- A lock file in whose document nothing is wrong but traps. -/
def OnlyTraps (data : Bytes) : Prop :=
  ∀ text, Utf8.decode data = .ok text → ∀ p, Yaml.Flaw (Text.unifyBreaks text) p →
    ∃ f, p = .fault f ∧ f.isBadValue = false

/-- A damage that no notice is given of is a trap. -/
theorem trapped_of_parse {damage : Damage} {p : Path} (h : parse data = .error damage)
    (hnotice : damage.notice p = .error f) : Trapped data f := by
  obtain ⟨rfl, hbad⟩ : damage = .fault f ∧ f.isBadValue = false := by
    unfold Damage.notice at hnotice
    split at hnotice
    case h_5 f' =>
      split at hnotice
      · cases hnotice
      · rename_i hbad
        cases hnotice
        exact ⟨rfl, by simpa using hbad⟩
    all_goals cases hnotice
  unfold parse at h
  split at h
  · cases h
  · rename_i text htext
    split at h
    · cases h
    · rename_i f' hvalue
      cases h
      exact ⟨text, htext, Yaml.trapped_iff.mpr ⟨Yaml.flaw_of_valueOf hvalue, hbad⟩⟩
    · obtain ⟨issues, -, hissues⟩ := mapError_error h
      cases hissues

/-- Where nothing is wrong but traps, one of them is what is wrong. -/
theorem notice_of_onlyTraps (h : Trapped data f) (honly : OnlyTraps data) (p : Path) :
    ∃ damage f', parse data = .error damage ∧ damage.notice p = .error f' := by
  obtain ⟨text, htext, htrap⟩ := h
  obtain ⟨hflaw, -⟩ := Yaml.trapped_iff.mp htrap
  cases hvalue : Yaml.valueOf levels (Text.unifyBreaks text) with
  | ok v => exact absurd hflaw (Yaml.not_flaw_of_valueOf hvalue)
  | error problem =>
    obtain ⟨f', rfl, hbad⟩ := honly text htext problem (Yaml.flaw_of_valueOf hvalue)
    refine ⟨.fault f', f', ?_, ?_⟩
    · unfold parse
      simp only [htext, hvalue]
    · unfold Damage.notice
      simp only [hbad]
      rfl

end Lock

namespace Job

variable {s s' : Session} {tools : Tools} {config resolved : Path} {settings : Settings} {found : Option Nat}

/-- The job of a settings file takes its id from the lock file, if it is to have one. -/
theorem ofFile_run (hload : Settings.load s.disk config = .ok settings)
    (hresolved : s.disk.resolve config = .ok resolved)
    (hread : (Lock.read resolved.parent).run.run s = (.ok found, s')) (isCheck : Bool) :
    ∃ s'', s''.disk = (if settings.keepsLock && !isCheck then s' else s).disk ∧
      (ofFile tools config isCheck).run.run s =
        (.ok ⟨tools, settings, resolved.parent, isCheck, if settings.keepsLock && !isCheck then found else none⟩,
          s'') := by
  unfold ofFile
  rw [Run.run_get_bind]
  simp only [hload, hresolved]
  cases settings.keepsLock && !isCheck with
  | true =>
    refine ⟨s'.noting [.loadedSettings config.toString], rfl, ?_⟩
    simp only [if_true]
    rw [Run.run_bind_ok hread]
    rfl
  | false => exact ⟨s.noting [.loadedSettings config.toString], rfl, rfl⟩

theorem ofFile_error {e : Failure} (hload : Settings.load s.disk config = .ok settings)
    (hresolved : s.disk.resolve config = .ok resolved) (hkeep : settings.keepsLock = true)
    (hread : (Lock.read resolved.parent).run.run s = (.error e, s')) :
    (ofFile tools config false).run.run s = (.error e, s') := by
  unfold ofFile
  rw [run_get_bind]
  simp only [hload, hresolved, hkeep]
  exact run_bind_error hread

end Job

namespace Lock

variable {s : Session} {directory : Path} {data : Bytes}

/-- Without a trap, a lock file is read as what is in it, or as nothing. -/
theorem read_of_untrapped (hdata : s.disk.read (path directory) = .ok data) (hnone : ∀ f, ¬ Trapped data f) :
    ∃ s', (read directory).run.run s = (.ok (parse data).toOption, s') ∧ s'.disk = s.disk := by
  have hrun := read_run hdata
  cases hparse : parse data with
  | ok id =>
    rw [hparse] at hrun
    exact ⟨s, hrun, rfl⟩
  | error damage =>
    cases hnotice : damage.notice (path directory) with
    | ok notice =>
      simp only [hparse, hnotice] at hrun
      exact ⟨_, hrun, rfl⟩
    | error f => exact absurd (trapped_of_parse hparse hnotice) (hnone f)

theorem trapped_of_read {e : Failure} {s' : Session} (hdata : s.disk.read (path directory) = .ok data)
    (h : (read directory).run.run s = (.error e, s')) : ∃ f, e = .fault f ∧ Trapped data f := by
  rw [read_run hdata] at h
  cases hparse : parse data with
  | ok id =>
    rw [hparse] at h
    cases h
  | error damage =>
    cases hnotice : damage.notice (path directory) with
    | ok notice =>
      simp only [hparse, hnotice] at h
      cases h
    | error f =>
      simp only [hparse, hnotice] at h
      cases h
      exact ⟨f, rfl, trapped_of_parse hparse hnotice⟩

/-- A lock file is at most a miss, whatever is in it, as long as its document has no trap: it is read as an id within
bounds or as none, no file changes, the settings beside it make a job, and without an id the job looks for its first one
itself. Where the reading breaks off, there is a trap; and it does break off, and the job with it, where nothing is
wrong with the document but traps. Neither the interpreter's limit on recursion, which a deeply nested document can
reach, nor refused permissions are part of the model. -/
theorem damage_is_a_miss (hdata : s.disk.read (path directory) = .ok data) :
    ((∀ f, ¬ Trapped data f) → ∃ s', (read directory).run.run s = (.ok (parse data).toOption, s') ∧
      s'.disk = s.disk ∧ (∀ id ∈ (parse data).toOption, id ≤ greatestId) ∧
      ∀ tools config settings resolved, Settings.load s.disk config = .ok settings →
        s.disk.resolve config = .ok resolved → resolved.parent = directory →
        ∀ isCheck, ∃ job s'', (Job.ofFile tools config isCheck).run.run s = (.ok job, s'') ∧ s''.disk = s.disk ∧
          job.settings = settings ∧ ((parse data).toOption = none → ∀ files, job.startId files = job.scanId files)) ∧
    (∀ e s', (read directory).run.run s = (.error e, s') → ∃ f, e = .fault f ∧ Trapped data f) ∧
    (∀ f, Trapped data f → OnlyTraps data → ∃ f', Trapped data f' ∧
      (read directory).run.run s = (.error (.fault f'), s) ∧
      ∀ tools config settings resolved, Settings.load s.disk config = .ok settings →
        s.disk.resolve config = .ok resolved → resolved.parent = directory → settings.keepsLock = true →
        (Job.ofFile tools config false).run.run s = (.error (.fault f'), s)) := by
  refine ⟨fun hnone => ?_, fun e s' => trapped_of_read hdata, fun f htrap honly => ?_⟩
  · obtain ⟨s', hread, hdisk⟩ := read_of_untrapped hdata hnone
    refine ⟨s', hread, hdisk, fun id hid => ?_, ?_⟩
    · exact le_of_parse (eq_ok_of_toOption hid)
    · rintro tools config settings resolved hload hresolved rfl isCheck
      obtain ⟨s'', hdisk', hjob⟩ := Job.ofFile_run hload hresolved hread isCheck
      refine ⟨_, s'', hjob, ?_, rfl, fun hmiss files => Job.startId_scanned ?_⟩
      · rw [hdisk']
        split
        · exact hdisk
        · rfl
      · simp [Job.isCached, hmiss]
  · obtain ⟨damage, f', hparse, hnotice⟩ := notice_of_onlyTraps htrap honly (path directory)
    have hread := read_run hdata
    simp only [hparse, hnotice] at hread
    refine ⟨f', trapped_of_parse hparse hnotice, hread, ?_⟩
    rintro tools config settings resolved hload hresolved rfl hkeep
    exact Job.ofFile_error hload hresolved hkeep hread

/-- A lock file with a number that has no digits. -/
def emptyNumber : String := "next_reference_id: !!int \"\"\n"

/-- The nodes of that file. -/
def emptyNumberGraph : Yaml.Graph :=
  ⟨#[⟨none, .mapping [(1, 2)]⟩, ⟨none, .scalar ⟨key, true, false⟩⟩,
    ⟨some "tag:yaml.org,2002:int", .scalar ⟨"", false, false⟩⟩], 0⟩

theorem ofScan_emptyNumber :
    Yaml.Graph.ofScan (Yaml.tokensOf (Text.unifyBreaks emptyNumber.toList)) = .ok (some emptyNumberGraph) := by
  decide +kernel

theorem decode_emptyNumber : Utf8.decode (Bytes.ofString emptyNumber) = .ok emptyNumber.toList := Utf8.decode_encode _

theorem trapped_emptyNumber : Trapped (Bytes.ofString emptyNumber) .emptyText := by
  have hroot : emptyNumberGraph.Reached 0 := .root (by decide)
  have hkind : emptyNumberGraph.kind 2 = .int := rfl
  have hfound : emptyNumberGraph.scalarOf 4 2 = .ok ⟨"", false, false⟩ := rfl
  have htrap : emptyNumberGraph.Trap 2 .emptyText := by
    refine .text hfound (by rw [hkind]; simp) ?_
    rw [hkind]
    exact .noDigits rfl
  exact ⟨_, decode_emptyNumber, _, _, ofScan_emptyNumber, .part hroot (by decide) (by decide), htrap⟩

theorem flaw_emptyNumber {p : Yaml.Problem} (h : Yaml.Flaw (Text.unifyBreaks emptyNumber.toList) p) :
    p = .fault .emptyText := by
  have hnodes : ∀ n < 3, emptyNumberGraph.problem? n = none ∨
      emptyNumberGraph.problem? n = some (.fault .emptyText) := by decide
  rcases h with herror | ⟨hg, hn, hproblem⟩
  · rw [ofScan_emptyNumber] at herror
    cases herror
  · rw [ofScan_emptyNumber] at hg
    cases hg
    have hp := Yaml.Graph.problem?_of_hasProblem hproblem
    rcases hnodes _ hn.lt with hnone | hempty
    · rw [hnone] at hp
      cases hp
    · rw [hempty] at hp
      cases hp
      rfl

theorem onlyTraps_emptyNumber : OnlyTraps (Bytes.ofString emptyNumber) := by
  intro text htext p hflaw
  rw [decode_emptyNumber] at htext
  cases htext
  exact ⟨_, flaw_emptyNumber hflaw, rfl⟩

theorem untrapped_bracket (f : Fault) : ¬ Trapped (Bytes.ofString "[") f := by
  rintro ⟨text, htext, g, n, hg, -⟩
  have hscan : Yaml.Graph.ofScan (Yaml.tokensOf (Text.unifyBreaks "[".toList)) = .error .malformed := rfl
  rw [show Bytes.ofString "[" = Utf8.encode "[".toList from rfl, Utf8.decode_encode] at htext
  cases htext
  rw [hscan] at hg
  cases hg

/-- The settings of the directory. -/
def lockedSettings : Settings := { (Job.small none).settings with workers := 4, workers_pos := by decide }

theorem damage_is_a_miss_twice :
    (∃ s', (read ⟨.single, []⟩).run.run (locked "[") = (.ok none, s') ∧
      ∃ job s'', (Job.ofFile .standard ⟨.single, ["breadlog.yaml"]⟩ false).run.run (locked "[") = (.ok job, s'') ∧
        ∀ files, job.startId files = job.scanId files) ∧
    ∃ f, Trapped (Bytes.ofString emptyNumber) f ∧
      (read ⟨.single, []⟩).run.run (locked emptyNumber) = (.error (.fault f), locked emptyNumber) ∧
      (Job.ofFile .standard ⟨.single, ["breadlog.yaml"]⟩ false).run.run (locked emptyNumber) =
        (.error (.fault f), locked emptyNumber) := by
  constructor
  · have hnone : (parse (Bytes.ofString "[")).toOption = none := rfl
    obtain ⟨s', hread, -, -, hjobs⟩ := (damage_is_a_miss (read_locked "[")).1 untrapped_bracket
    obtain ⟨job, s'', hjob, -, -, hscan⟩ :=
      hjobs .standard ⟨.single, ["breadlog.yaml"]⟩ lockedSettings ⟨.single, ["breadlog.yaml"]⟩
        (eq_ok_of_toOption (by decide +kernel)) (by decide +kernel) rfl false
    exact ⟨s', hnone ▸ hread, job, s'', hjob, hscan hnone⟩
  · obtain ⟨f, htrap, hread, hjobs⟩ :=
      (damage_is_a_miss (read_locked emptyNumber)).2.2 .emptyText trapped_emptyNumber onlyTraps_emptyNumber
    exact ⟨f, htrap, hread, hjobs .standard ⟨.single, ["breadlog.yaml"]⟩ lockedSettings ⟨.single, ["breadlog.yaml"]⟩
      (eq_ok_of_toOption (by decide +kernel)) (by decide +kernel) rfl rfl⟩

/-- A number without digits is no miss: the reading ends in a fault. -/
theorem empty_number_is_no_miss :
    (read ⟨.single, []⟩).run.run (locked emptyNumber) = (.error (.fault .emptyText), locked emptyNumber) := by
  obtain ⟨damage, f, hparse, hnotice⟩ :=
    notice_of_onlyTraps trapped_emptyNumber onlyTraps_emptyNumber (path ⟨.single, []⟩)
  obtain ⟨text, htext, htrap⟩ := trapped_of_parse hparse hnotice
  rw [decode_emptyNumber] at htext
  cases htext
  cases flaw_emptyNumber (Yaml.trapped_iff.mp htrap).1
  rw [read_run (read_locked emptyNumber)]
  simp only [hparse, hnotice]

end Lock

end LogRef
