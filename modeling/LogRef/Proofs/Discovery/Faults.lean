import LogRef.Proofs.FileSystem.Resolution
import LogRef.Proofs.Reference.Reading

/-!
# Searches that break

A search for source files breaks for few reasons: its directory has a name that is too long to be looked up, an
ignore file cannot be read as rules, or a rule with a senseless character class is tried. Links do not break it, and
neither do paths that leave the directory.
-/
namespace LogRef

/-! ## Failing look-ups -/

namespace FileTree

variable {t : FileTree} {follow : Bool} {links : Nat} {here : Place} {steps : List String} {kind : FileError.Kind}

/-- A kind of failure that looking up a path can have. -/
def IsLookup (kind : FileError.Kind) : Prop := kind = .nameTooLong ∨ kind.isAbsence = true

theorem stretch_blocked (h : t.stretch follow here steps = .blocked kind) : IsLookup kind := by
  induction steps generalizing here with
  | nil => cases h
  | cons step rest ih =>
    rw [stretch] at h
    split at h
    · exact ih h
    split at h
    · cases h
      exact .inl rfl
    split at h
    · split at h
      · cases h
      · cases h
        exact .inr rfl
    · split at h
      · cases h
      · cases h
        exact .inr rfl
    · split at h
      · cases h
      · exact ih h
    · split at h
      · cases h
      · cases h

theorem walk_error (h : t.walk follow links here steps = .error kind) : IsLookup kind := by
  induction links generalizing here steps with
  | zero =>
    rw [walk_eq] at h
    cases hs : t.stretch follow here steps with
    | arrived dest => rw [hs] at h; cases h
    | blocked kind' => rw [hs] at h; cases h; exact stretch_blocked hs
    | link origin target rest => rw [hs] at h; cases h; exact .inr rfl
  | succ links ih =>
    rw [walk_eq] at h
    cases hs : t.stretch follow here steps with
    | arrived dest => rw [hs] at h; cases h
    | blocked kind' => rw [hs] at h; cases h; exact stretch_blocked hs
    | link origin target rest => rw [hs] at h; exact ih h

end FileTree

namespace Disk

variable {d : Disk} {follow : Bool} {p : Path} {e : FileError}

theorem locate_error {kind : FileError.Kind} (h : d.locate follow p = .error kind) : FileTree.IsLookup kind := by
  unfold locate at h
  split at h
  · cases h
    exact .inr rfl
  · split at h
    · cases h
      exact .inl rfl
    · exact FileTree.walk_error h

/-- A path that cannot be looked up because it, or a name on its way, is too long. -/
def TooLong (d : Disk) (follow : Bool) (p : Path) : Prop := d.locate follow p = .error .nameTooLong

theorem item?_error (h : d.item? follow p = .error e) : d.TooLong follow p ∧ e.kind = .nameTooLong := by
  unfold item? at h
  cases hl : d.locate follow p with
  | ok dest => rw [hl] at h; cases dest <;> cases h
  | error kind =>
    rw [hl] at h
    rcases locate_error hl with rfl | habsent
    · cases h
      exact ⟨hl, rfl⟩
    · simp only [habsent, if_true] at h
      cases h

/-- A question about what is at a path fails only if the path is too long. -/
theorem asked_error {k : Option Item → Except FileError Bool} (hk : ∀ item, ∃ b, k item = .ok b)
    (h : d.item? follow p >>= k = .error e) : d.TooLong follow p ∧ e.kind = .nameTooLong := by
  cases hi : d.item? follow p with
  | error e' =>
    rw [hi] at h
    cases h
    exact item?_error hi
  | ok item =>
    obtain ⟨b, hb⟩ := hk item
    rw [hi] at h
    exact absurd (hb.symm.trans h) (by simp)

theorem exists?_error (h : d.exists? p = .error e) : d.TooLong true p ∧ e.kind = .nameTooLong :=
  asked_error (fun _ => ⟨_, rfl⟩) h

theorem isDirectory_error (h : d.isDirectory p = .error e) : d.TooLong true p ∧ e.kind = .nameTooLong :=
  asked_error (fun item => by split <;> exact ⟨_, rfl⟩) h

theorem isFile_error (h : d.isFile p = .error e) : d.TooLong true p ∧ e.kind = .nameTooLong :=
  asked_error (fun item => by split <;> exact ⟨_, rfl⟩) h

theorem isLink_error (h : d.isLink p = .error e) : d.TooLong false p ∧ e.kind = .nameTooLong :=
  asked_error (fun item => by split <;> exact ⟨_, rfl⟩) h

theorem exists?_of_tooLong (h : d.TooLong true p) : d.exists? p = .error ⟨.nameTooLong, p.toString, none⟩ := by
  unfold TooLong at h
  unfold exists? item?
  rw [h]
  rfl

theorem locate_of_isDirectory (h : d.isDirectory p = .ok true) :
    ∃ place mode, d.locate true p = .ok (.occupied place (.directory mode)) := by
  unfold isDirectory item? at h
  cases hl : d.locate true p with
  | error kind =>
    rw [hl] at h
    simp only at h
    cases hk : kind.isAbsence <;> rw [hk] at h <;> cases h
  | ok dest =>
    cases dest with
    | free parent name => rw [hl] at h; cases h
    | occupied place item =>
      cases item with
      | directory mode => exact ⟨place, mode, rfl⟩
      | file data mode => rw [hl] at h; cases h
      | link target => rw [hl] at h; cases h

theorem isDirectory_of_locate {place : Place} {mode : Nat}
    (h : d.locate true p = .ok (.occupied place (.directory mode))) :
    d.exists? p = .ok true ∧ d.isDirectory p = .ok true := by
  unfold exists? isDirectory item?
  rw [h]
  exact ⟨rfl, rfl⟩

end Disk

/-- Work whose faults are all of one kind. -/
def Fault.Only (P : Fault → Prop) {α : Type} (x : Except Fault α) : Prop := ∀ f, x = .error f → P f

namespace Fault.Only

variable {P : Fault → Prop} {α β : Type} {x : Except Fault α} {k : α → Except Fault β}

theorem ok (a : α) : Only P (.ok a) := fun _ h => by cases h

theorem error {f : Fault} (h : P f) : Only P (.error f : Except Fault α) := fun _ hf => Except.error.inj hf ▸ h

theorem bind (hx : Only P x) (hk : ∀ a, Only P (k a)) : Only P (x >>= k) := by
  intro f h
  cases hx' : x with
  | error g =>
    rw [hx'] at h
    cases h
    exact hx _ hx'
  | ok a =>
    rw [hx'] at h
    exact hk a f h

end Fault.Only

/-! ## Ignore files -/

namespace Ignore

theorem firstOf_only (pattern : List Char) : Fault.Only (· = .emptyText) (firstOf pattern) := by
  unfold firstOf
  split
  · exact .ok _
  · exact .error rfl

theorem lastOf_only (pattern : List Char) : Fault.Only (· = .emptyText) (lastOf pattern) := by
  unfold lastOf
  split
  · exact .ok _
  · exact .error rfl

theorem dropGuard_only (pattern : List Char) : Fault.Only (· = .emptyText) (dropGuard pattern) := by
  unfold dropGuard
  split
  · exact .error rfl
  · exact .error rfl
  · exact .ok _
  · exact .ok _

theorem setText_only (members : List Char) : Fault.Only (· = .emptyText) (setText members) := by
  unfold setText
  dsimp only
  split
  · exact .error rfl
  · exact .ok _

theorem bodyText_only (skip : Nat) (pattern : List Char) : Fault.Only (· = .emptyText) (bodyText skip pattern) := by
  induction pattern generalizing skip with
  | nil => cases skip <;> exact .ok _
  | cons c rest ih =>
    cases skip with
    | succ skip => exact ih skip
    | zero =>
      have hput (piece : List Char) (skip : Nat) :
          Fault.Only (· = .emptyText) (do return piece ++ (← bodyText skip rest)) :=
        .bind (ih skip) fun _ => .ok _
      rw [bodyText]
      split
      · split
        · exact hput _ 2
        split
        · exact hput _ 1
        · exact hput _ 0
      split
      · exact hput _ 0
      split
      · exact hput _ 0
      split
      · split
        · exact hput _ 0
        · next n _ => exact .bind (setText_only _) fun _ => hput _ (n + 1)
      · exact hput _ 0

theorem ruleOfLine_only (line : List Char) : Fault.Only (· = .emptyText) (ruleOfLine line) := by
  unfold ruleOfLine
  refine iteInduction (fun _ => .ok _) fun _ => ?_
  extract_lets isNegated pattern
  refine iteInduction (fun _ => .ok _) fun _ => ?_
  refine .bind (lastOf_only _) fun _ => ?_
  refine .bind (firstOf_only _) fun _ => ?_
  refine .bind (firstOf_only _) fun _ => ?_
  refine .bind (firstOf_only _) fun _ => ?_
  refine .bind (lastOf_only _) fun _ => ?_
  refine .bind (dropGuard_only _) fun _ => ?_
  exact .bind (.bind (bodyText_only 0 _) fun _ => .ok _) fun _ => .ok _

/-- An ignore file that is read as rules: it is UTF-8, and something is left of the pattern of every rule. -/
def Legible (data : Bytes) : Prop :=
  ∃ text, Utf8.decode data = .ok text ∧ ∀ line ∈ Text.lines text, ∃ rule, ruleOfLine line = .ok rule

theorem rulesOfLines_error {lines : List (List Char)} {f : Fault} (h : rulesOfLines lines = .error f) :
    ∃ line ∈ lines, ruleOfLine line = .error f := by
  unfold rulesOfLines at h
  cases hall : lines.mapM ruleOfLine with
  | ok rules => rw [hall] at h; cases h
  | error g =>
    rw [hall] at h
    cases h
    exact mapM_error hall

/-- What a file that cannot be read as rules is, and which faults it leads to. -/
theorem rulesOfFile_error {data : Bytes} {f : Fault} (h : rulesOfFile data = .error f) :
    ¬Legible data ∧ (f = .emptyText ∨ ∃ e, f = .undecodable e) := by
  unfold rulesOfFile at h
  cases hcode : Utf8.decode data with
  | ok text =>
    rw [hcode] at h
    obtain ⟨line, hline, hrule⟩ := rulesOfLines_error h
    refine ⟨fun ⟨text', hcode', hall⟩ => ?_, .inl (ruleOfLine_only line f hrule)⟩
    cases hcode.symm.trans hcode'
    obtain ⟨rule, hok⟩ := hall line hline
    rw [hrule] at hok
    cases hok
  | error e =>
    refine ⟨fun ⟨_, hcode', _⟩ => (nomatch hcode.symm.trans hcode'), ?_⟩
    rw [hcode] at h
    dsimp only at h
    split at h
    · cases hlines : rulesOfLines (Text.lines (Utf8.decodeLossy (data.take e.position))).dropLast with
      | error g =>
        obtain ⟨line, _, hrule⟩ := rulesOfLines_error hlines
        rw [hlines] at h
        cases h
        exact .inl (ruleOfLine_only line _ hrule)
      | ok rules =>
        rw [hlines] at h
        cases h
        exact .inr ⟨_, rfl⟩
    · cases h
      exact .inr ⟨_, rfl⟩

theorem legible_of_rulesOfFile {data : Bytes} {rules : List Rule} (h : rulesOfFile data = .ok rules) :
    Legible data := by
  unfold rulesOfFile at h
  cases hcode : Utf8.decode data with
  | ok text =>
    rw [hcode] at h
    refine ⟨text, hcode, ?_⟩
    dsimp only [rulesOfLines] at h
    cases hall : (Text.lines text).mapM ruleOfLine with
    | error f => rw [hall] at h; cases h
    | ok found => exact (mapM_ok hall).1
  | error e =>
    rw [hcode] at h
    dsimp only at h
    split at h
    · cases hlines : rulesOfLines (Text.lines (Utf8.decodeLossy (data.take e.position))).dropLast with
      | error g => rw [hlines] at h; cases h
      | ok rules => rw [hlines] at h; cases h
    · cases h

/-- The fault of a character class that makes no sense. -/
def IsBadPattern (f : Fault) : Prop := ∃ why, f = .badPattern why

theorem matchesPath_only (r : Rule) (path : List Char) : Fault.Only IsBadPattern (r.matchesPath path) := by
  unfold Rule.matchesPath
  split
  · next why _ => exact .error ⟨why, rfl⟩
  · exact .ok _

theorem anyMatches_only (path : List Char) (rules : List Rule) :
    Fault.Only IsBadPattern (anyMatches path rules) := by
  induction rules with
  | nil => exact .ok _
  | cons r rest ih => exact .bind (matchesPath_only r path) fun b => by cases b; exacts [ih, .ok _]

theorem firstVerdict_only (path : List Char) (rules : List Rule) :
    Fault.Only IsBadPattern (firstVerdict path rules) := by
  induction rules with
  | nil => exact .ok _
  | cons r rest ih => exact .bind (matchesPath_only r path) fun b => by cases b; exacts [ih, .ok _]

/-- A rule file asked about a path below its directory. -/
theorem ignores_only {file : RuleFile} {path : Path} {steps : List String}
    (h : path.relativeTo? file.directory = some steps) : Fault.Only IsBadPattern (file.ignores path) := by
  unfold RuleFile.ignores
  rw [h]
  dsimp only
  split
  · exact firstVerdict_only _ _
  · exact anyMatches_only _ _

theorem reader_ok {directory : Path} {data : Bytes} {ignores : Verdict} (h : reader directory data = .ok ignores) :
    ∃ rules, rulesOfFile data = .ok rules ∧ ignores = RuleFile.ignores ⟨directory, rules⟩ := by
  obtain ⟨rules, hrules, h⟩ := bind_ok h
  exact ⟨rules, hrules, (Except.ok.inj h).symm⟩

theorem reader_error {directory : Path} {data : Bytes} {f : Fault} (h : reader directory data = .error f) :
    rulesOfFile data = .error f := by
  rcases bind_error h with hrules | ⟨rules, _, h⟩
  · exact hrules
  · cases h

/-- A rule file asked about any path: outside of its directory the path is a bad value. -/
theorem ignores_fails {file : RuleFile} {path : Path} {f : Fault} (h : file.ignores path = .error f) :
    IsBadPattern f ∨ (path.relativeTo? file.directory).isSome = false ∧ f.isBadValue = true := by
  cases hsteps : path.relativeTo? file.directory with
  | some steps => exact .inl (ignores_only hsteps f h)
  | none =>
    right
    unfold RuleFile.ignores at h
    rw [hsteps] at h
    dsimp only at h
    split at h
    · cases h
    · cases h
      exact ⟨rfl, rfl⟩

end Ignore

/-! ## What a search looks at -/

/-- Steps behind which nothing goes up stay as they are. -/
theorem Path.collapse_append {a b : List String} (h : ".." ∉ b) :
    Path.collapse (a ++ b) = Path.collapse a ++ b := by
  unfold collapse
  rw [List.foldl_append]
  generalize List.foldl _ [] a = done
  induction b generalizing done with
  | nil => exact (List.append_nil _).symm
  | cons step rest ih =>
    have hstep : step ≠ ".." := fun heq => h (heq ▸ List.mem_cons_self)
    rw [List.foldl_cons, if_neg hstep, ih (fun hmem => h (List.mem_cons_of_mem _ hmem)), List.append_assoc]
    rfl

theorem Path.relativeTo?_append (root : Path.Root) (base rel : List String) :
    (⟨root, base ++ rel⟩ : Path).relativeTo? ⟨root, base⟩ = some rel := by
  unfold relativeTo?
  rw [if_pos ⟨rfl, List.isPrefixOf_iff_prefix.mpr (List.prefix_append _ _)⟩]
  exact congrArg some List.drop_left

namespace Search

variable {d : Disk} {s : Search} {p directory : Path} {place : Place} {mode : Nat} {f : Fault}

/-- The fault of a path that is too long to be looked up. -/
def IsTooLong (f : Fault) : Prop := ∃ e, f = .file e ∧ e.kind = .nameTooLong

/-- The fault of what cannot be looked up or read. -/
def IsOutOfReach (f : Fault) : Prop := ∃ e, f = .file e ∧ (e.kind = .nameTooLong ∨ e.kind = .deviceFailed)

theorem IsTooLong.isOutOfReach (h : IsTooLong f) : IsOutOfReach f := by
  obtain ⟨e, hf, hkind⟩ := h
  exact ⟨e, hf, .inl hkind⟩

theorem isPlainFile_error (h : isPlainFile d p = .error f) : IsTooLong f ∧ ∃ follow, d.TooLong follow p := by
  unfold isPlainFile at h
  cases hfile : d.isFile p with
  | error e =>
    rw [hfile] at h
    cases h
    obtain ⟨hlong, hkind⟩ := Disk.isFile_error hfile
    exact ⟨⟨e, rfl, hkind⟩, true, hlong⟩
  | ok b =>
    rw [hfile] at h
    cases b with
    | false => cases h
    | true =>
      cases hlink : d.isLink p with
      | error e =>
        rw [hlink] at h
        cases h
        obtain ⟨hlong, hkind⟩ := Disk.isLink_error hlink
        exact ⟨⟨e, rfl, hkind⟩, false, hlong⟩
      | ok b => rw [hlink] at h; cases h

/-- Where two paths lead somewhere, links do not keep them from being compared. -/
theorem staysWithin_ok (hd : d.WellFormed) (hdir : d.locate true directory = .ok (.occupied place (.directory mode)))
    {q : Place} {item : Item} (hp : d.locate true p = .ok (.occupied q item)) :
    ∃ within, staysWithin d p directory = .ok within := by
  unfold staysWithin resolved
  rw [Disk.resolve_of_locate hd hdir, Disk.resolve_of_locate hd hp]
  exact ⟨_, rfl⟩

/-- A path below a directory, seen from there. -/
theorem absolute_below (hw : d.tree.WellFormed)
    (hdir : d.locate true directory = .ok (.occupied place (.directory mode))) (hmem : p ∈ below d directory) :
    ∃ rel, p.relativeTo? directory = some rel ∧ (d.absolute p).relativeTo? (d.absolute directory) = some rel := by
  obtain ⟨rel, item, he, _, rfl⟩ := mem_below hdir hmem
  have hup : ".." ∉ rel := fun h => (hw.named _ he).2 (List.mem_append_right _ h)
  refine ⟨rel, Path.relativeTo?_append _ _ _, ?_⟩
  have habsolute : d.absolute ⟨directory.root, directory.steps ++ rel⟩ =
      ⟨.single, (d.absolute directory).steps ++ rel⟩ := by
    unfold Disk.absolute
    rw [← List.append_assoc, Path.collapse_append hup]
    rfl
  rw [habsolute]
  exact Path.relativeTo?_append _ _ _

section

variable {α ε : Type} {test : α → Except ε Bool} {l acc : List α} {e : ε}

theorem filterAuxM_error (h : l.filterAuxM test acc = .error e) : ∃ a ∈ l, test a = .error e := by
  induction l generalizing acc with
  | nil => cases h
  | cons a l ih =>
    rw [List.filterAuxM] at h
    cases ha : test a with
    | error e' =>
      rw [ha] at h
      cases h
      exact ⟨a, List.mem_cons_self, ha⟩
    | ok b =>
      rw [ha] at h
      obtain ⟨x, hx, hfail⟩ := ih h
      exact ⟨x, List.mem_cons_of_mem _ hx, hfail⟩

theorem filterM_error (h : l.filterM test = .error e) : ∃ a ∈ l, test a = .error e := by
  rw [List.filterM] at h
  cases haux : l.filterAuxM test [] with
  | error e' =>
    rw [haux] at h
    cases h
    exact filterAuxM_error haux
  | ok kept => rw [haux] at h; cases h

end

/-! ## What breaks a search -/

/-- The files that are put to the rules. -/
structure Tried (s : Search) (d : Disk) (p : Path) : Prop where
  below : p ∈ Search.below d s.directory
  extension : (withoutDots s.extensions).contains (extension p) = true
  plain : isPlainFile d p = .ok true
  within : staysWithin d p s.directory = .ok true

/-- What breaks a search. -/
inductive Breaks (s : Search) (d : Disk) : Prop
  /-- The directory cannot be looked up. -/
  | directory (h : d.TooLong true s.directory)
  /-- An ignore file that counts cannot be read as rules. -/
  | ignoreFile {files : List Path} {file : Path} {data : Bytes} (here : d.isDirectory s.directory = .ok true)
    (counted : ignoreFiles d s.directory s.isNested = .ok files) (mem : file ∈ files) (read : d.read file = .ok data)
    (illegible : ¬Ignore.Legible data)
  /-- A rule that makes no sense is tried on a file. -/
  | rule {verdicts : List Ignore.Verdict} {p : Path} {why : String} (here : d.isDirectory s.directory = .ok true)
    (counted : verdictsFor s.reader d s.directory s.isNested = .ok verdicts) (tried : s.Tried d p)
    (bad : isIgnored s.isNested (d.absolute p) verdicts = .error (.badPattern why))

/-- Nothing that a search asks for is too long to be looked up, and every ignore file that counts can be read. -/
structure InReach (s : Search) (d : Disk) : Prop where
  below : ∀ p ∈ Search.below d s.directory, ∀ follow, ¬d.TooLong follow p
  ignoreFile : ¬d.TooLong true (s.directory.child ignoreName)
  readable : ∀ files, ignoreFiles d s.directory s.isNested = .ok files → ∀ file ∈ files, ∃ data, d.read file = .ok data

theorem ignoreFiles_error (hd : d.WellFormed)
    (hdir : d.locate true directory = .ok (.occupied place (.directory mode))) {isNested : Bool}
    (h : ignoreFiles d directory isNested = .error f) :
    IsTooLong f ∧ ((∃ p ∈ below d directory, ∃ follow, d.TooLong follow p) ∨
      d.TooLong true (directory.child ignoreName)) := by
  unfold ignoreFiles at h
  cases isNested with
  | false =>
    cases hfile : d.isFile (directory.child ignoreName) with
    | error e =>
      obtain ⟨hlong, hkind⟩ := Disk.isFile_error hfile
      simp only [hfile] at h
      cases h
      exact ⟨⟨e, rfl, hkind⟩, .inr hlong⟩
    | ok there =>
      simp only [hfile] at h
      cases h
  | true =>
    simp only [if_true] at h
    cases hplain : ((below d directory).filter fun p => p.name = ignoreName).filterM (isPlainFile d) with
    | error g =>
      simp only [hplain] at h
      cases h
      obtain ⟨p, hp, hfail⟩ := filterM_error hplain
      obtain ⟨hkind, hlong⟩ := isPlainFile_error hfail
      exact ⟨hkind, .inl ⟨p, List.mem_of_mem_filter hp, hlong⟩⟩
    | ok plain =>
      simp only [hplain] at h
      cases hinside : plain.filterM fun p => staysWithin d p directory with
      | ok inside => simp only [hinside, bind, Except.bind] at h; cases h
      | error g =>
        obtain ⟨p, hp, hfail⟩ := filterM_error hinside
        obtain ⟨q, data, mode', htrue, _⟩ := locate_of_isPlainFile ((filterM_ok hplain).2 p hp)
        obtain ⟨within, hwithin⟩ := staysWithin_ok hd hdir htrue
        exact absurd (hwithin.symm.trans hfail) (by simp)

/-- A file that is there is read, or its device fails. -/
theorem read_of_locate {q : Place} {data : Bytes} (hl : d.locate true p = .ok (.occupied q (.file data mode))) :
    d.read p = .ok data ∨ ∃ e, d.read p = .error e ∧ e.kind = .deviceFailed := by
  rw [Disk.read, hl]
  by_cases hq : q ∈ d.unreadable
  · exact .inr ⟨_, if_pos hq, rfl⟩
  · exact .inl (if_neg hq)

/-- With those of subdirectories, the ignore files that count are all that are files, no links and inside of the
directory. -/
theorem mem_ignoreFiles_nested {files : List Path} (h : ignoreFiles d directory true = .ok files) :
    p ∈ files ↔ (p ∈ below d directory ∧ p.name = ignoreName) ∧ isPlainFile d p = .ok true ∧
      staysWithin d p directory = .ok true := by
  unfold ignoreFiles at h
  simp only [if_true] at h
  cases hplain : ((below d directory).filter fun p => p.name = ignoreName).filterM (isPlainFile d) with
  | error f => simp only [hplain] at h; cases h
  | ok plain =>
    simp only [hplain] at h
    cases hinside : plain.filterM fun p => staysWithin d p directory with
    | error f => simp only [hinside, bind, Except.bind] at h; cases h
    | ok inside =>
      simp only [hinside, bind, Except.bind] at h
      cases h
      rw [mem_sortBelow, mem_filterM_iff hinside, mem_filterM_iff hplain, List.mem_filter, decide_eq_true_eq, and_assoc]

/-- Without those of subdirectories, the only ignore file that counts is the directory's own, if it is a file. -/
theorem mem_ignoreFiles_own {files : List Path} (h : ignoreFiles d directory false = .ok files) :
    p ∈ files ↔ p = directory.child ignoreName ∧ d.isFile p = .ok true := by
  unfold ignoreFiles at h
  cases hfile : d.isFile (directory.child ignoreName) with
  | error e => simp only [hfile] at h; cases h
  | ok there =>
    simp only [hfile] at h
    cases h
    cases there with
    | true =>
      exact List.mem_singleton.trans ⟨fun heq => ⟨heq, heq ▸ hfile⟩, And.left⟩
    | false =>
      refine iff_of_false List.not_mem_nil ?_
      rintro ⟨heq, hthere⟩
      rw [heq, hfile] at hthere
      cases hthere

/-- Every ignore file that counts is a file; the only one, if those of subdirectories do not count, is that of the
directory itself. -/
theorem ignoreFiles_ok {isNested : Bool} {files : List Path} (h : ignoreFiles d directory isNested = .ok files) :
    (∀ file ∈ files, ∃ q data mode, d.locate true file = .ok (.occupied q (.file data mode))) ∧
      (isNested = false → ∀ file ∈ files, file = directory.child ignoreName) := by
  cases isNested with
  | false =>
    exact ⟨fun file hfile => Disk.locate_of_isFile ((mem_ignoreFiles_own h).mp hfile).2,
      fun _ file hfile => ((mem_ignoreFiles_own h).mp hfile).1⟩
  | true =>
    refine ⟨fun file hfile => ?_, fun h => absurd h (by decide)⟩
    obtain ⟨_, hplain, _⟩ := (mem_ignoreFiles_nested h).mp hfile
    obtain ⟨q, data, mode, hl, _⟩ := locate_of_isPlainFile hplain
    exact ⟨q, data, mode, hl⟩

variable {reader : Ignore.Reader} {verdicts : List Ignore.Verdict} {ignores : Ignore.Verdict} {file : Path}

theorem verdictsFor_error {isNested : Bool} (h : verdictsFor reader d directory isNested = .error f) :
    ignoreFiles d directory isNested = .error f ∨
      ∃ files, ignoreFiles d directory isNested = .ok files ∧ ∃ file ∈ files, verdictOf reader d file = .error f := by
  unfold verdictsFor at h
  cases hfiles : ignoreFiles d directory isNested with
  | error g =>
    rw [hfiles] at h
    cases h
    exact .inl rfl
  | ok files =>
    rw [hfiles] at h
    exact .inr ⟨files, rfl, mapM_error h⟩

theorem verdictsFor_ok {isNested : Bool} (h : verdictsFor reader d directory isNested = .ok verdicts) :
    ∃ files, ignoreFiles d directory isNested = .ok files ∧
      (∀ file ∈ files, ∃ ignores, verdictOf reader d file = .ok ignores) ∧
      ∀ ignores, ignores ∈ verdicts ↔ ∃ file ∈ files, verdictOf reader d file = .ok ignores := by
  unfold verdictsFor at h
  cases hfiles : ignoreFiles d directory isNested with
  | error g => rw [hfiles] at h; cases h
  | ok files =>
    rw [hfiles] at h
    obtain ⟨hall, rfl⟩ := mapM_ok h
    refine ⟨files, rfl, hall, fun ignores => List.mem_filterMap.trans ?_⟩
    refine exists_congr fun file => and_congr_right fun _ => ⟨eq_ok_of_toOption, fun hok => ?_⟩
    rw [hok]
    rfl

theorem verdictOf_read {data : Bytes} (h : d.read file = .ok data) :
    verdictOf reader d file = reader (d.absolute file.parent) data := by
  unfold verdictOf
  rw [h]
  rfl

theorem verdictOf_ok (h : verdictOf reader d file = .ok ignores) :
    ∃ data, d.read file = .ok data ∧ reader (d.absolute file.parent) data = .ok ignores := by
  cases hread : d.read file with
  | error e =>
    unfold verdictOf at h
    rw [hread] at h
    cases h
  | ok data => exact ⟨data, rfl, (verdictOf_read hread).symm.trans h⟩

/-- What is below a directory is inside of what the directory's own ignore file is about. -/
theorem inside_own_directory (hw : d.tree.WellFormed)
    (hdir : d.locate true directory = .ok (.occupied place (.directory mode))) (hmem : p ∈ below d directory) :
    ((d.absolute p).relativeTo? (d.absolute (directory.child ignoreName).parent)).isSome = true := by
  obtain ⟨rel, _, habsolute⟩ := absolute_below hw hdir hmem
  have hparent : (directory.child ignoreName).parent = directory := by
    simp [Path.child, Path.parent]
  rw [hparent, habsolute]
  rfl

/-- Where the ignore files that count are asked about a path, only a senseless rule is a fault. -/
theorem isIgnored_only {isNested : Bool} {path : Path}
    (h : ∀ ignores ∈ verdicts, Fault.Only (fun f => Ignore.IsBadPattern f ∨ isNested = true ∧ f.isBadValue = true)
      (ignores path)) : Fault.Only Ignore.IsBadPattern (isIgnored isNested path verdicts) := by
  induction verdicts with
  | nil => exact .ok _
  | cons ignores rest ih =>
    have hrest := ih fun other hother => h other (List.mem_cons_of_mem _ hother)
    rw [isIgnored]
    split
    · exact .ok _
    · exact hrest
    · next f hf =>
      split
      · exact hrest
      · next hkept =>
        rcases h ignores List.mem_cons_self f hf with hbad | ⟨hnested, hvalue⟩
        · exact .error hbad
        · rw [hnested, hvalue] at hkept
          exact absurd rfl hkept

/-- A file that is tried on the rules fails where the rules do. -/
theorem Tried.includes_error {rel : List String} (h : s.Tried d p) (hrel : p.relativeTo? s.directory = some rel) :
    s.wanted.includes d verdicts p = .error f ↔ isIgnored s.isNested (d.absolute p) verdicts = .error f := by
  unfold includes wanted
  simp only [h.extension, h.plain, h.within, hrel, bind, Except.bind, Bool.not_true, Bool.false_eq_true, if_false]
  cases isIgnored s.isNested (d.absolute p) verdicts with
  | error g => exact Iff.rfl
  | ok ignored =>
    cases ignored <;>
    · constructor
      all_goals
        intro h
        cases h

/-! ## Searching by rules -/

section

variable (hreader : s.reader = Ignore.reader)
include hreader

/-- Asking whether a path belongs to the files that are looked for fails because the path is too long, or because it
is tried on a senseless rule. -/
theorem includes_error (hd : d.WellFormed)
    (hdir : d.locate true s.directory = .ok (.occupied place (.directory mode)))
    (hverdicts : verdictsFor s.reader d s.directory s.isNested = .ok verdicts) (hmem : p ∈ below d s.directory)
    (h : s.wanted.includes d verdicts p = .error f) :
    (IsTooLong f ∧ ∃ follow, d.TooLong follow p) ∨
      (s.Tried d p ∧ isIgnored s.isNested (d.absolute p) verdicts = .error f ∧ Ignore.IsBadPattern f) := by
  obtain ⟨rel, hrel, _⟩ := absolute_below hd.tree hdir hmem
  have honly : ∀ ignores ∈ verdicts, Fault.Only
      (fun f => Ignore.IsBadPattern f ∨ s.isNested = true ∧ f.isBadValue = true) (ignores (d.absolute p)) := by
    intro ignores hignores f hf
    obtain ⟨files, hfiles, _, hmemv⟩ := verdictsFor_ok hverdicts
    obtain ⟨file, hfile, hok⟩ := (hmemv ignores).mp hignores
    rw [hreader] at hok
    obtain ⟨data, _, hread⟩ := verdictOf_ok hok
    obtain ⟨rules, _, rfl⟩ := Ignore.reader_ok hread
    rcases Ignore.ignores_fails hf with hbad | ⟨houtside, hvalue⟩
    · exact .inl hbad
    · cases hnested : s.isNested with
      | true => exact .inr ⟨rfl, hvalue⟩
      | false =>
        -- a path below the directory of its only rule file is never outside of it
        obtain rfl := (ignoreFiles_ok hfiles).2 hnested file hfile
        rw [inside_own_directory hd.tree hdir hmem] at houtside
        cases houtside
  have hcontains : (withoutDots s.extensions).contains (extension p) = true := by
    refine Decidable.byContradiction fun hnot => ?_
    simp only [includes, wanted, hnot] at h
    cases h
  cases hplain : isPlainFile d p with
  | error g =>
    simp only [includes, wanted, hcontains, hplain, bind, Except.bind, Bool.not_true] at h
    cases h
    exact .inl (isPlainFile_error hplain)
  | ok plain =>
    cases plain with
    | false =>
      simp only [includes, wanted, hcontains, hplain, bind, Except.bind, Bool.not_true] at h
      cases h
    | true =>
      obtain ⟨q, data, mode', hp, _⟩ := locate_of_isPlainFile hplain
      obtain ⟨within, hwithin⟩ := staysWithin_ok hd hdir hp
      cases within with
      | false =>
        simp only [includes, wanted, hcontains, hplain, hwithin, bind, Except.bind, Bool.not_true] at h
        cases h
      | true =>
        have htried : s.Tried d p := ⟨hmem, hcontains, hplain, hwithin⟩
        have hbad := (htried.includes_error hrel).mp h
        exact .inr ⟨htried, hbad, isIgnored_only honly f hbad⟩

/-- A search that does not end has met what is out of reach, or it breaks. -/
theorem filesBelow_error (hd : d.WellFormed) (here : d.isDirectory s.directory = .ok true)
    (h : s.filesBelow d = .error f) : (IsOutOfReach f ∧ ¬s.InReach d) ∨ (s.Breaks d ∧ ∀ e, f ≠ .file e) := by
  obtain ⟨place, mode, hdir⟩ := Disk.locate_of_isDirectory here
  unfold filesBelow at h
  cases hverdicts : verdictsFor s.reader d s.directory s.isNested with
  | error g =>
    rw [hverdicts] at h
    cases h
    rcases verdictsFor_error hverdicts with hfiles | ⟨files, hfiles, file, hmem, hfile⟩
    · obtain ⟨hkind, ⟨p, hp, follow, hlong⟩ | hlong⟩ := ignoreFiles_error hd hdir hfiles
      · exact .inl ⟨hkind.isOutOfReach, fun hreach => hreach.below p hp follow hlong⟩
      · exact .inl ⟨hkind.isOutOfReach, fun hreach => hreach.ignoreFile hlong⟩
    · obtain ⟨q, data, mode', hl⟩ := (ignoreFiles_ok hfiles).1 file hmem
      rcases read_of_locate hl with hread | ⟨e, hread, hkind⟩
      · rw [verdictOf_read hread, hreader] at hfile
        obtain ⟨hillegible, hkind⟩ := Ignore.rulesOfFile_error (Ignore.reader_error hfile)
        refine .inr ⟨.ignoreFile here hfiles hmem hread hillegible, fun e he => ?_⟩
        rcases hkind with hkind | ⟨_, hkind⟩
        · rw [hkind] at he; cases he
        · rw [hkind] at he; cases he
      · have herror : verdictOf s.reader d file = .error (.file e) := by
          unfold verdictOf
          rw [hread]
          rfl
        cases herror.symm.trans hfile
        refine .inl ⟨⟨e, rfl, .inr hkind⟩, fun hreach => ?_⟩
        obtain ⟨data, hok⟩ := hreach.readable files hfiles file hmem
        cases hread.symm.trans hok
  | ok verdicts =>
    cases hkept : (below d s.directory).filterM (s.wanted.includes d verdicts) with
    | ok kept =>
      rw [wanted] at hkept
      simp only [hverdicts, hkept, bind, Except.bind] at h
      cases h
    | error g =>
      obtain ⟨p, hmem, hfail⟩ := filterM_error hkept
      rw [wanted] at hkept
      simp only [hverdicts, hkept, bind, Except.bind] at h
      cases h
      rcases includes_error hreader hd hdir hverdicts hmem hfail with ⟨hkind, follow, hlong⟩ | ⟨htried, hbad, why, rfl⟩
      · exact .inl ⟨hkind.isOutOfReach, fun hreach => hreach.below p hmem follow hlong⟩
      · exact .inr ⟨.rule here hverdicts htried hbad, fun e he => by cases he⟩

theorem not_breaks_of_filesBelow (hd : d.WellFormed) (here : d.isDirectory s.directory = .ok true) {files : List Path}
    (h : s.filesBelow d = .ok files) : ¬s.Breaks d := by
  obtain ⟨place, mode, hdir⟩ := Disk.locate_of_isDirectory here
  obtain ⟨verdicts, kept, hverdicts, hkept, _⟩ := filesBelow_ok h
  intro hbreaks
  cases hbreaks with
  | directory hlong => rw [Disk.TooLong, hdir] at hlong; cases hlong
  | @ignoreFile files file data _ hfiles hmem hread hillegible =>
    obtain ⟨_, hfiles', hall, _⟩ := verdictsFor_ok hverdicts
    cases hfiles.symm.trans hfiles'
    obtain ⟨ignores, hignores⟩ := hall file hmem
    rw [verdictOf_read hread, hreader] at hignores
    obtain ⟨rules, hrules, _⟩ := Ignore.reader_ok hignores
    exact hillegible (Ignore.legible_of_rulesOfFile hrules)
  | @rule verdicts' p why _ hverdicts' htried hbad =>
    cases hverdicts.symm.trans hverdicts'
    obtain ⟨rel, hrel, _⟩ := absolute_below hd.tree hdir htried.below
    obtain ⟨b, hb⟩ := (filterM_eq hkept).1 p htried.below
    rw [(htried.includes_error hrel).mpr hbad] at hb
    cases hb

/-- A search ends in a fault only if something breaks it. -/
theorem breaks_of_files (hd : d.WellFormed) (h : s.files d = .error (.fault f)) : s.Breaks d := by
  unfold files at h
  cases hexists : d.exists? s.directory with
  | error e => exact .directory (Disk.exists?_error hexists).1
  | ok there =>
    cases hdir : d.isDirectory s.directory with
    | error e => exact .directory (Disk.isDirectory_error hdir).1
    | ok isDirectory =>
      rw [hexists, hdir] at h
      cases there with
      | false => cases h
      | true =>
        cases isDirectory with
        | false => cases h
        | true =>
          cases hbelow : s.filesBelow d with
          | ok found => rw [hbelow] at h; cases h
          | error g =>
            rcases filesBelow_error hreader hd hdir hbelow with ⟨⟨e, rfl, hkind⟩, _⟩ | ⟨hbreaks, _⟩
            · -- what is out of reach is reported as such
              rw [hbelow] at h
              have hrefused : e.isRefused = false := by
                rcases hkind with hkind | hkind <;> simp [FileError.isRefused, hkind]
              have herror : s.errorOf (.file e) = .unsearchable s.directory e := by
                rw [errorOf, hrefused, if_neg Bool.false_ne_true]
              have h' : Except.error (s.errorOf (.file e)) = (.error (.fault f) : Except SearchError (List Path)) := h
              rw [herror] at h'
              cases h'
            · exact hbreaks

/-- What breaks a search ends it in a fault, unless it meets what is out of reach. -/
theorem files_of_breaks (hd : d.WellFormed) (hreach : s.InReach d) (h : s.Breaks d) :
    ∃ f, s.files d = .error (.fault f) := by
  by_cases hlong : d.TooLong true s.directory
  · unfold files
    rw [Disk.exists?_of_tooLong hlong]
    exact ⟨_, rfl⟩
  · have here : d.isDirectory s.directory = .ok true := by
      cases h with
      | directory hdir => exact absurd hdir hlong
      | ignoreFile here => exact here
      | rule here => exact here
    obtain ⟨place, mode, hdir⟩ := Disk.locate_of_isDirectory here
    cases hbelow : s.filesBelow d with
    | ok found => exact absurd h (not_breaks_of_filesBelow hreader hd here hbelow)
    | error f =>
      rcases filesBelow_error hreader hd here hbelow with ⟨_, hno⟩ | ⟨_, hkind⟩
      · exact absurd hreach hno
      · refine ⟨f, ?_⟩
        have herror : s.errorOf f = .fault f := by
          cases f with
          | file e => exact absurd rfl (hkind e)
          | _ => rfl
        unfold files
        rw [(Disk.isDirectory_of_locate hdir).1, here, hbelow, ← herror]
        rfl

end

end Search

end LogRef
