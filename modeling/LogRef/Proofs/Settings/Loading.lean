import LogRef.CommandLine.Program
import LogRef.Proofs.FileSystem.Removal
import LogRef.Proofs.Run.Stops
import LogRef.Proofs.Settings.Checks
import LogRef.Proofs.Yaml.Visits

/-!
# Settings files that are read

A settings file gives settings that have been checked, or an error that the program reports with an exit code of its
own. What escapes this is a path that no file can have, bytes that are no UTF-8, a value in the document that cannot be
what its notation says, and a source directory that cannot be found out.
-/
namespace LogRef

namespace Disk

variable {d : Disk} {p : Path} {e : FileError}

theorem read_of_hasNull (h : p.hasNull = true) : d.read p = .error ⟨.nullCharacter, p.toString, none⟩ := by
  have hl : d.locate true p = .error .nullCharacter := by rw [locate, if_pos h]
  rw [read, hl]
  rfl

theorem read_not_refused (hp : p.hasNull = false) (h : d.read p = .error e) : e.isRefused = false := by
  unfold read at h
  split at h
  · split at h <;> cases h
    rfl
  · cases h; rfl
  · cases h; rfl
  · next kind hl =>
    cases h
    have hkind : kind ≠ .nullCharacter := fun hk => d.locate_ne_null true hp (hk ▸ hl)
    simpa [FileError.isRefused] using hkind

theorem isAbsolute_of_resolve {q : Path} (h : d.resolve p = .ok q) : q.isAbsolute = true := by
  unfold resolve at h
  split at h
  · cases h
  · dsimp only at h
    split at h
    · cases h
    · cases h
      rfl

end Disk

namespace Settings

variable {d : Disk} {path : Path} {f : Fault} {s : Settings}

/-! ## Settings that pass -/

theorem macroName_ne {v : Value} {name : String} (h : macroName v = .ok name) : name ≠ "" := by
  have hsome {cause : Issue.Cause} (chars : List Char) (hname : (if chars.isEmpty then Checked.fail cause
      else return String.ofList chars : Checked String) = .ok name) : name ≠ "" := by
    split at hname
    · cases hname
    · rename_i hne
      cases hname
      intro hempty
      have hnil := congrArg String.toList hempty
      rw [String.toList_ofList] at hnil
      exact hne (by rw [hnil]; rfl)
  obtain ⟨t, -, hname⟩ := bind_ok h
  exact hsome _ hname

theorem loggingMacro_name {v : Value} {m : LoggingMacro} (h : loggingMacro v = .ok m) : m.name ≠ "" := by
  obtain ⟨pairs, -, hrest⟩ := bind_ok h
  obtain ⟨⟨module, name⟩, hfound, hdone⟩ := bind_ok hrest
  cases hdone
  obtain ⟨-, hname⟩ := Checked.both_ok (Checked.orIssues_ok hfound)
  obtain ⟨w, -, hw⟩ := Check.required_ok hname
  exact macroName_ne hw

theorem macros_of_rust {v : Value} {macros : List LoggingMacro} {others : List String × Bool}
    (h : rust v = .ok (macros, others)) : macros ≠ [] ∧ ∀ m ∈ macros, m.name ≠ "" := by
  obtain ⟨pairs, -, hfound⟩ := bind_ok h
  obtain ⟨hmacros, -⟩ := Checked.both_ok (Checked.orIssues_ok hfound)
  obtain ⟨w, -, hw⟩ := Check.required_ok hmacros
  obtain ⟨hne, hall⟩ := Check.someList_ok hw
  refine ⟨hne, fun m hm => ?_⟩
  obtain ⟨item, hitem⟩ := hall m hm
  exact loggingMacro_name hitem

/-- Settings that have been checked have macros, each with a name. -/
theorem macros_of_ofValue {v : Value} (h : ofValue v = .ok s) : s.macros ≠ [] ∧ ∀ m ∈ s.macros, m.name ≠ "" := by
  obtain ⟨pairs, -, hrest⟩ := bind_ok h
  obtain ⟨⟨sourceDir, ⟨macros, others⟩, more⟩, hfound, hdone⟩ := bind_ok hrest
  cases hdone
  obtain ⟨-, hmore⟩ := Checked.both_ok (Checked.orIssues_ok hfound)
  obtain ⟨hrust, -⟩ := Checked.both_ok hmore
  obtain ⟨w, -, hw⟩ := Check.required_ok hrust
  exact macros_of_rust hw

/-! ## What escapes -/

/-- The faults of a settings file that are no errors of it. -/
inductive Spoils (d : Disk) (path : Path) : Fault → Prop
  /-- No file can have the path. -/
  | path (h : path.hasNull = true) : Spoils d path (.file ⟨.nullCharacter, path.toString, none⟩)
  /-- The contents are no UTF-8. -/
  | bytes {data : Bytes} {e : Utf8.DecodeError} (hread : d.read path = .ok data)
      (h : Utf8.decodeStream data = .error e) : Spoils d path (.undecodable e)
  /-- A value in the document cannot be what its notation says. -/
  | document {data : Bytes} {text : List Char} {f : Fault} (hread : d.read path = .ok data)
      (htext : Utf8.decodeStream data = .ok text) (h : Yaml.Flaw (Text.unifyBreaks text) (.fault f)) : Spoils d path f
  /-- The source directory cannot be found out. -/
  | sourceDir {pairs : List (Value × Value)} {s : Settings} {e : FileError}
      (hvalue : fileValue d path = .ok (.map pairs)) (hs : ofValue (.map pairs) = .ok s)
      (hrelative : s.sourceDir.isAbsolute = false) (h : d.resolve (path.parent.join s.sourceDir) = .error e) :
      Spoils d path (.ofUnresolved e)

theorem spoils_of_fileValue (h : fileValue d path = .error (.fault f)) : Spoils d path f := by
  unfold fileValue at h
  split at h
  · rename_i e hread
    cases hnull : path.hasNull with
    | false =>
      have he := Disk.read_not_refused hnull hread
      rw [he] at h
      cases h
    | true =>
      rw [Disk.read_of_hasNull hnull] at hread
      cases hread
      cases h
      exact .path hnull
  · rename_i data hread
    split at h
    · rename_i e htext
      cases h
      exact .bytes hread htext
    · rename_i text htext
      split at h
      · cases h
      · cases h
      · rename_i f' hvalue
        cases h
        exact .document hread htext (Yaml.flaw_of_valueOf hvalue)

/-- A fault that settings are not read for is one of these. -/
theorem spoils_of_load (h : load d path = .error (.fault f)) : Spoils d path f := by
  unfold load at h
  rcases bind_error h with hvalue | ⟨v, hvalue, hrest⟩
  · exact spoils_of_fileValue hvalue
  · split at hrest
    · rename_i pairs
      split at hrest
      · rename_i s hs
        unfold located at hrest
        split at hrest
        · cases hrest
        · rename_i hrelative
          split at hrest
          · cases hrest
          · rename_i e hresolve
            cases hrest
            exact .sourceDir hvalue hs (by simpa using hrelative) hresolve
      · cases hrest
    · cases hrest

/-- Settings that a file gives: they are what its value has been checked for, with an absolute source directory. -/
structure Given (d : Disk) (path : Path) (s : Settings) : Prop where
  value : ∃ pairs s0, fileValue d path = .ok (.map pairs) ∧ ofValue (.map pairs) = .ok s0 ∧
    s = { s0 with sourceDir := s.sourceDir }
  isAbsolute : s.sourceDir.isAbsolute = true
  macros : s.macros ≠ [] ∧ ∀ m ∈ s.macros, m.name ≠ ""

theorem given_of_load (h : load d path = .ok s) : Given d path s := by
  obtain ⟨v, hvalue, hrest⟩ := bind_ok h
  split at hrest
  · rename_i pairs
    split at hrest
    · rename_i s0 hs
      have hmacros := macros_of_ofValue hs
      unfold located at hrest
      split at hrest
      · rename_i habsolute
        cases hrest
        exact ⟨⟨pairs, s, hvalue, hs, rfl⟩, habsolute, hmacros⟩
      · split at hrest
        · rename_i sourceDir hresolve
          cases hrest
          exact ⟨⟨pairs, s0, hvalue, hs, rfl⟩, Disk.isAbsolute_of_resolve hresolve, hmacros⟩
        · cases hrest
    · cases hrest
  · cases hrest

theorem load_of_fileValue {e : LoadError} (h : fileValue d path = .error e) : load d path = .error e := by
  unfold load
  rw [h]
  rfl

/-- What spoils settings does end their reading in a fault, if the text is a document otherwise. -/
theorem load_of_spoils (h : Spoils d path f) (hdocument : ∀ data text, d.read path = .ok data →
    Utf8.decodeStream data = .ok text → ¬ Yaml.Flaw (Text.unifyBreaks text) .malformed) :
    ∃ f', load d path = .error (.fault f') := by
  cases h with
  | path hnull =>
    refine ⟨.file ⟨.nullCharacter, path.toString, none⟩, load_of_fileValue ?_⟩
    unfold fileValue
    rw [Disk.read_of_hasNull hnull]
    rfl
  | @bytes data e hread htext =>
    refine ⟨.undecodable e, load_of_fileValue ?_⟩
    unfold fileValue
    rw [hread]
    dsimp only
    rw [htext]
  | @document data text f hread htext hflaw =>
    cases hvalue : Yaml.valueOf levels (Text.unifyBreaks text) with
    | ok v => exact absurd hflaw (Yaml.not_flaw_of_valueOf hvalue)
    | error p =>
      cases p with
      | malformed => exact absurd (Yaml.flaw_of_valueOf hvalue) (hdocument data text hread htext)
      | fault f' =>
        refine ⟨f', load_of_fileValue ?_⟩
        unfold fileValue
        simp only [hread, htext, hvalue]
  | @sourceDir pairs s e hvalue hs hrelative hresolve =>
    refine ⟨.ofUnresolved e, ?_⟩
    unfold load
    rw [hvalue]
    simp only [bind, Except.bind, hs, located, hrelative, hresolve]
    rfl

end Settings

namespace CommandLine

variable {homes : Homes} {words : List String} {o : Options} {s : Session} {path : Path} {e : LoadError}

theorem ofFile_of_load (h : Settings.load s.disk path = .error e) (tools : Tools) (isCheck : Bool) :
    (Job.ofFile tools path isCheck).run.run s = (.error (.settings e), s) := by
  unfold Job.ofFile
  rw [Run.run_get_bind]
  simp only [h]
  rfl

/-- How the program ends when there are no settings. -/
def endingOf : LoadError → Ending
  | .fault f => .fault f
  | _ => .code settingsCode

theorem perform_of_load (hpath : expandHome homes (Path.ofString o.config) = .ok path)
    (h : Settings.load s.disk path = .error e) : ((perform homes o).run s).1 = endingOf e := by
  unfold perform
  rw [hpath]
  dsimp only
  rw [Work.run_bind, Run.run_bind_error (ofFile_of_load h .standard o.isCheck)]
  cases e <;> rfl

theorem execute_of_load (hwords : read words = .ok (.run o))
    (hpath : expandHome homes (Path.ofString o.config) = .ok path) (h : Settings.load s.disk path = .error e) :
    ((execute homes words).run s).1.ending = endingOf e := by
  unfold execute
  rw [hwords]
  exact perform_of_load hpath h

end CommandLine

namespace Settings

open CommandLine (read expandHome execute)

/-- A settings file that nothing spoils gives settings that have been checked, with an absolute source directory, or an
error that the program ends with the exit code 1 for, whatever is in the file and if there is none. Only what spoils the
file ends its reading in a fault; and it does, and the program with it, where the text is a document otherwise.

The file is decoded and checked as a whole before it is scanned here. A reader that takes pieces of 4096 characters may
come to a syntax error before it comes to what is wrong with a later piece. Neither the interpreter's limit on
recursion, which a deeply nested document can reach, nor refused permissions are part of the model. -/
theorem load_or_report (d : Disk) (path : Path) :
    ((∀ f, ¬ Spoils d path f) → (∃ s, load d path = .ok s ∧ Given d path s) ∨
      ∃ e, load d path = .error e ∧ (∀ f, e ≠ .fault f) ∧
        ∀ homes words o s, s.disk = d → read words = .ok (.run o) →
          expandHome homes (Path.ofString o.config) = .ok path →
          ((execute homes words).run s).1.ending = .code 1) ∧
    (∀ f, load d path = .error (.fault f) → Spoils d path f) ∧
    ∀ f, Spoils d path f → (∀ data text, d.read path = .ok data → Utf8.decodeStream data = .ok text →
        ¬ Yaml.Flaw (Text.unifyBreaks text) .malformed) →
      ∃ f', load d path = .error (.fault f') ∧ Spoils d path f' ∧
        ∀ homes words o s, s.disk = d → read words = .ok (.run o) →
          expandHome homes (Path.ofString o.config) = .ok path →
          ((execute homes words).run s).1.ending = .fault f' := by
  refine ⟨fun hnone => ?_, fun f => spoils_of_load, fun f hspoils hdocument => ?_⟩
  · cases hload : load d path with
    | ok s => exact .inl ⟨s, rfl, given_of_load hload⟩
    | error e =>
      have hreported : ∀ f, e ≠ .fault f := by
        rintro f rfl
        exact hnone f (spoils_of_load hload)
      refine .inr ⟨e, rfl, hreported, ?_⟩
      rintro homes words o s rfl hwords hpath
      rw [CommandLine.execute_of_load hwords hpath hload]
      cases e with
      | fault f => exact absurd rfl (hreported f)
      | _ => rfl
  · obtain ⟨f', hload⟩ := load_of_spoils hspoils hdocument
    refine ⟨f', hload, spoils_of_load hload, ?_⟩
    rintro homes words o s rfl hwords hpath
    exact CommandLine.execute_of_load hwords hpath hload

/-- A directory with a settings file only. -/
def configured (text : String) : Session where
  disk := ⟨⟨[(["breadlog.yaml"], .file (Bytes.ofString text) 0o644)]⟩, [], []⟩
  notices := []
  stop := .never
  scratchTag := "t"

/-- A bracket that is not closed makes a text no document, and nothing spoils it. -/
theorem unspoiled_bracket (f : Fault) : ¬ Spoils (configured "[").disk ⟨.none, ["breadlog.yaml"]⟩ f := by
  have hbytes : (configured "[").disk.read ⟨.none, ["breadlog.yaml"]⟩ = .ok (Bytes.ofString "[") := rfl
  have hchars : Utf8.decodeStream (Bytes.ofString "[") = .ok ['['] := rfl
  have hscan : Yaml.Graph.ofScan (Yaml.tokensOf (Text.unifyBreaks ['['])) = .error .malformed := rfl
  have hvalue : (fileValue (configured "[").disk ⟨.none, ["breadlog.yaml"]⟩).isOk = false := rfl
  rintro (hnull | ⟨hread, htext⟩ | ⟨hread, htext, hflaw⟩ | ⟨hmap, -⟩)
  · exact absurd hnull (by decide)
  · rw [hbytes] at hread
    cases hread
    rw [hchars] at htext
    cases htext
  · rw [hbytes] at hread
    cases hread
    rw [hchars] at htext
    cases htext
    rcases hflaw with herror | ⟨hg, -⟩
    · rw [herror] at hscan
      cases hscan
    · rw [hg] at hscan
      cases hscan
  · rw [hmap] at hvalue
    cases hvalue

theorem load_or_report_bracket : (∀ f, ¬ Spoils (configured "[").disk ⟨.none, ["breadlog.yaml"]⟩ f) ∧
    ((execute (fun _ => none) ["--config", "breadlog.yaml"]).run (configured "[")).1.ending = .code 1 := by
  refine ⟨unspoiled_bracket, ?_⟩
  rcases (load_or_report _ _).1 unspoiled_bracket with ⟨s, hload, -⟩ | ⟨e, -, -, hending⟩
  · have hfails : (load (configured "[").disk ⟨.none, ["breadlog.yaml"]⟩).isOk = false := rfl
    rw [hload] at hfails
    cases hfails
  · exact hending _ _ ⟨"breadlog.yaml", false, false⟩ _ rfl (eq_ok_of_toOption (by decide +kernel)) rfl

/-- A month that is none ends the program in a fault. -/
theorem impossible_date_ends_in_fault :
    ((execute (fun _ => none) ["--config", "breadlog.yaml"]).run (configured "workers: 2020-13-01\n")).1.ending =
      .fault (.badValue "month must be in 1..12") := by
  decide +kernel

end Settings

end LogRef
