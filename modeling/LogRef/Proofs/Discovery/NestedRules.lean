import LogRef.Proofs.Discovery.Exact

/-!
# Ignore files of subdirectories

Ignore files that count in addition leave out more files and never fewer, because a file is left out as soon as one
ignore file says so. The directory's own ignore file has to be among those that count: if it is a link, it counts only
where those of subdirectories do not.
-/
namespace LogRef

namespace Ignore

/-- What is read of an ignore file makes something of every path below its directory: none of them is a bad value. -/
def Reader.KnowsBelow (reader : Reader) : Prop :=
  ∀ {directory data ignores path}, reader directory data = .ok ignores → (path.relativeTo? directory).isSome = true →
    ∀ f, ignores path = .error f → f.isBadValue = false

theorem knowsBelow_reader : reader.KnowsBelow := by
  intro directory data ignores path h hinside f hf
  obtain ⟨rules, _, rfl⟩ := reader_ok h
  obtain ⟨steps, hsteps⟩ := Option.isSome_iff_exists.mp hinside
  obtain ⟨why, rfl⟩ := ignores_only hsteps f hf
  rfl

end Ignore

namespace Search

variable {d : Disk} {s : Search} {directory p path : Path} {place : Place} {mode : Nat} {reader : Ignore.Reader}
  {verdicts : List Ignore.Verdict}

/-- The ignore file of a directory is a link to a file. -/
def HasLinkedIgnoreFile (d : Disk) (directory : Path) : Prop :=
  d.isFile (directory.child ignoreName) = .ok true ∧ d.isLink (directory.child ignoreName) = .ok true

/-! ## The ignore files that count -/

/-- The directory's own ignore file counts with those of subdirectories, unless it is a link. -/
theorem own_mem_nested (hd : d.WellFormed)
    (hdir : d.locate true directory = .ok (.occupied place (.directory mode))) {files : List Path}
    (h : ignoreFiles d directory true = .ok files) (hfile : d.isFile (directory.child ignoreName) = .ok true)
    (hlink : d.isLink (directory.child ignoreName) ≠ .ok true) : directory.child ignoreName ∈ files := by
  obtain ⟨q, data, mode', hfollowed⟩ := Disk.locate_of_isFile hfile
  have hfound := (Disk.unlinked_of_isLink hlink).locate.symm.trans hfollowed
  have hreaches := Disk.reaches_of_locate hdir (by decide) hfound
  have hbelow : directory.child ignoreName ∈ below d directory :=
    (mem_below_iff hd.tree hdir).mpr ⟨_, _, hreaches, rfl⟩
  have hplain := isPlainFile_of_locate hfound
  obtain ⟨rel, _, _, _, _, hlocate⟩ := reaches_of_isPlainFile hd hdir hbelow hplain
  have hname : (directory.child ignoreName).name = ignoreName := by simp [Path.child, Path.name]
  exact (mem_ignoreFiles_nested h).mpr ⟨⟨hbelow, hname⟩, hplain, (resolve_of_reached hd hdir hlocate).2⟩

/-- Every ignore file that counts without the ignore files of subdirectories counts with them. -/
theorem own_verdicts_nested (hd : d.WellFormed)
    (hdir : d.locate true directory = .ok (.occupied place (.directory mode)))
    (hlink : ¬ HasLinkedIgnoreFile d directory) {own nested : List Ignore.Verdict}
    (hown : verdictsFor reader d directory false = .ok own) (hnested : verdictsFor reader d directory true = .ok nested)
    {ignores : Ignore.Verdict} (h : ignores ∈ own) :
    ignores ∈ nested ∧ verdictOf reader d (directory.child ignoreName) = .ok ignores := by
  obtain ⟨ownFiles, hownFiles, _, hmemOwn⟩ := verdictsFor_ok hown
  obtain ⟨nestedFiles, hnestedFiles, _, hmemNested⟩ := verdictsFor_ok hnested
  obtain ⟨file, hfile, hread⟩ := (hmemOwn ignores).mp h
  obtain ⟨rfl, hthere⟩ := (mem_ignoreFiles_own hownFiles).mp hfile
  have hcounts := own_mem_nested hd hdir hnestedFiles hthere fun hlinked => hlink ⟨hthere, hlinked⟩
  exact ⟨(hmemNested ignores).mpr ⟨_, hcounts, hread⟩, hread⟩

/-- Whatever reads the ignore files, as long as it makes something of every path below them: what is found when the
ignore files of subdirectories count is found when they do not, unless the directory's own ignore file is a link. -/
theorem nested_finds_fewer (hd : d.WellFormed) (hreader : s.reader.KnowsBelow)
    (hlink : ¬ HasLinkedIgnoreFile d s.directory) {fewer more : List Path}
    (hfewer : { s with isNested := true }.files d = .ok fewer)
    (hmore : { s with isNested := false }.files d = .ok more) : fewer ⊆ more := by
  obtain ⟨place, mode, nested, keptNested, hdir, hnested, hkeptNested, rfl⟩ := files_ok_iff.mp hfewer
  obtain ⟨_, _, own, keptOwn, _, hown, hkeptOwn, rfl⟩ := files_ok_iff.mp hmore
  intro p hp
  obtain ⟨hbelow, hincluded⟩ := (mem_filterM_iff hkeptNested).mp (mem_sortBelow.mp hp)
  obtain ⟨hext, hplain, hwithin, steps, hsteps, hignored, hexcluded⟩ := includes_iff.mp hincluded
  -- all the tests but the one for ignore files are the same
  have hunignored : isIgnored false (d.absolute p) own = .ok false := by
    refine isIgnored_eq_false_iff.mpr fun ignores hignores => ?_
    obtain ⟨hmem, hown'⟩ := own_verdicts_nested hd hdir hlink hown hnested hignores
    obtain ⟨data, _, hread⟩ := verdictOf_ok hown'
    refine (isIgnored_eq_false_iff.mp hignored ignores hmem).imp_right ?_
    rintro ⟨_, f, hf, hbad⟩
    rw [hreader hread (inside_own_directory hd.tree hdir hbelow) f hf] at hbad
    cases hbad
  have hincludes := (includes_iff (s := { s with isNested := false }.wanted)).mpr
    ⟨hext, hplain, hwithin, steps, hsteps, hunignored, hexcluded⟩
  exact mem_sortBelow.mpr ((mem_filterM_iff hkeptOwn).mpr ⟨hbelow, hincludes⟩)

/-! ## Small directories -/

/-- A search below `src`. -/
def sourceSearch (isNested : Bool) : Search := ⟨⟨.single, ["src"]⟩, ["rs"], [], isNested, Ignore.reader⟩

/-- Sources with an ignore file, and with another one in a subdirectory. -/
def nestedDisk : Disk where
  current := []
  unreadable := []
  tree := ⟨[
    (["src"], .directory 0o755),
    (["src", ".gitignore"], .file (Bytes.ofString "skip.rs\n") 0o644),
    (["src", "a.rs"], .file [] 0o644),
    (["src", "b"], .directory 0o755),
    (["src", "b", ".gitignore"], .file (Bytes.ofString "gen.rs\n") 0o644),
    (["src", "b", "gen.rs"], .file [] 0o644),
    (["src", "skip.rs"], .file [] 0o644)]⟩

def nestedIgnoreFiles : List Path := [⟨.single, ["src", ".gitignore"]⟩, ⟨.single, ["src", "b", ".gitignore"]⟩]

/-- Both ignore files count, in the order of their paths. -/
theorem verdictsFor_nestedDisk : verdictsFor Ignore.reader nestedDisk (sourceSearch true).directory true =
    nestedIgnoreFiles.mapM (verdictOf Ignore.reader nestedDisk) := by
  have hplain : ((below nestedDisk (sourceSearch true).directory).filter fun p => p.name = ignoreName).filterM
      (isPlainFile nestedDisk) = .ok nestedIgnoreFiles := eq_ok_of_toOption (by decide +kernel)
  have hinside : nestedIgnoreFiles.filterM (fun p => staysWithin nestedDisk p (sourceSearch true).directory) =
      .ok nestedIgnoreFiles := eq_ok_of_toOption (by decide +kernel)
  have hsorted : sortBelow (sourceSearch true).directory nestedIgnoreFiles = nestedIgnoreFiles :=
    List.mergeSort_of_pairwise (by decide +kernel)
  simp only [verdictsFor, ignoreFiles, if_true, hplain, hinside, hsorted, bind, Except.bind, pure, Except.pure]

/-- The ignore file of the subdirectory leaves out one file more than the directory's own does. -/
theorem nestedDisk_finds_fewer :
    nestedDisk.WellFormed ∧ (sourceSearch true).reader.KnowsBelow ∧
      ¬ HasLinkedIgnoreFile nestedDisk (sourceSearch true).directory ∧
    (sourceSearch true).files nestedDisk = .ok [⟨.single, ["src", "a.rs"]⟩] ∧
    (sourceSearch false).files nestedDisk = .ok [⟨.single, ["src", "a.rs"]⟩, ⟨.single, ["src", "b", "gen.rs"]⟩] ∧
    [(⟨.single, ["src", "a.rs"]⟩ : Path)] ⊆ [⟨.single, ["src", "a.rs"]⟩, ⟨.single, ["src", "b", "gen.rs"]⟩] := by
  have hd : nestedDisk.WellFormed := ⟨by decide +kernel, FileTree.isDirectory_top _⟩
  have hdir : nestedDisk.locate true ⟨.single, ["src"]⟩ = .ok (.occupied ["src"] (.directory 0o755)) :=
    eq_ok_of_toOption (by decide +kernel)
  have hlink : ¬ HasLinkedIgnoreFile nestedDisk (sourceSearch true).directory := by
    have hunlinked : nestedDisk.isLink ((sourceSearch true).directory.child ignoreName) = .ok false :=
      eq_ok_of_toOption (by decide +kernel)
    intro h
    cases hunlinked.symm.trans h.2
  have hfewer : (sourceSearch true).files nestedDisk = .ok [⟨.single, ["src", "a.rs"]⟩] := by
    refine files_of_ordered hdir ?_ (by decide +kernel)
    have hverdicts : verdictsFor (sourceSearch true).reader nestedDisk (sourceSearch true).directory
      (sourceSearch true).isNested = _ := verdictsFor_nestedDisk
    rw [hverdicts]
    decide +kernel
  have hmore : (sourceSearch false).files nestedDisk =
      .ok [⟨.single, ["src", "a.rs"]⟩, ⟨.single, ["src", "b", "gen.rs"]⟩] :=
    files_of_ordered hdir (by decide +kernel) (by decide +kernel)
  exact ⟨hd, Ignore.knowsBelow_reader, hlink, hfewer, hmore,
    nested_finds_fewer (s := sourceSearch true) hd Ignore.knowsBelow_reader hlink hfewer hmore⟩

/-- Sources with an ignore file that is a link. -/
def linkedIgnoreDisk : Disk where
  current := []
  unreadable := []
  tree := ⟨[
    (["ignored"], .file (Bytes.ofString "a.rs\n") 0o644),
    (["src"], .directory 0o755),
    (["src", ".gitignore"], .link "../ignored"),
    (["src", "a.rs"], .file [] 0o644)]⟩

/-- An ignore file that is a link leaves a file out, and does not leave it out where those of subdirectories count. -/
theorem linked_ignore_file_finds_more : linkedIgnoreDisk.tree.WellFormed ∧
    ((sourceSearch true).files linkedIgnoreDisk).toOption = some [⟨.single, ["src", "a.rs"]⟩] ∧
    ((sourceSearch false).files linkedIgnoreDisk).toOption = some [] ∧
    ¬ ∀ fewer more, (sourceSearch true).files linkedIgnoreDisk = .ok fewer →
      (sourceSearch false).files linkedIgnoreDisk = .ok more → fewer ⊆ more := by
  have hfewer : ((sourceSearch true).files linkedIgnoreDisk).toOption = some [⟨.single, ["src", "a.rs"]⟩] := by
    decide +kernel
  have hmore : ((sourceSearch false).files linkedIgnoreDisk).toOption = some [] := by decide +kernel
  refine ⟨by decide +kernel, hfewer, hmore, fun h => ?_⟩
  have hsubset := h _ _ (eq_ok_of_toOption hfewer) (eq_ok_of_toOption hmore)
  exact List.not_mem_nil (hsubset List.mem_cons_self)

end Search

end LogRef
