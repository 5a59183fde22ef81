import LogRef.Proofs.Discovery.Reach

/-!
# What a search finds

A search that ends finds every file it looks for and nothing else: the files that are reached from its directory without
entering a link, that have a wanted extension, and that neither a rule nor a glob leaves out. They come in the order of
their relative paths, no two of which are written alike, and each of them is inside of the directory.
-/
namespace LogRef

/-! ## Relative paths as texts -/

theorem toList_joinSteps {rel : List String} (h : rel ≠ []) :
    (joinSteps rel).toList = ['/'].intercalate (rel.map String.toList) := by
  rw [joinSteps, Path.toString, if_neg (by simp [h]), String.toList_append, String.toList_intercalate]
  rfl

/-- Steps that have no slash in them are told apart by their text. -/
theorem joinSteps_injective {a b : List String} (ha : a ≠ []) (hb : b ≠ []) (hna : ∀ name ∈ a, '/' ∉ name.toList)
    (hnb : ∀ name ∈ b, '/' ∉ name.toList) (h : joinSteps a = joinSteps b) : a = b := by
  have htext := congrArg String.toList h
  rw [toList_joinSteps ha, toList_joinSteps hb] at htext
  have hsplit := congrArg (List.splitOn '/') htext
  rw [List.splitOn_intercalate '/' (by simpa using hna) (by simpa using ha),
    List.splitOn_intercalate '/' (by simpa using hnb) (by simpa using hb)] at hsplit
  exact List.map_injective_iff.mpr (fun _ _ => String.toList_inj.mp) hsplit

namespace Search

variable {d : Disk} {s : Search} {files : List Path} {directory : Path} {place : Place} {mode : Nat}
  {verdicts : List Ignore.Verdict}

/-- The text by which a path below a directory is sorted. -/
def sortKey (directory p : Path) : String := joinSteps (p.steps.drop directory.steps.length)

theorem sortKey_descend (directory : Path) (rel : List String) : sortKey directory (directory.descend rel) =
    joinSteps rel := by
  rw [sortKey, Path.descend, List.drop_left]

theorem sortBelow_ascends (directory : Path) (paths : List Path) :
    (sortBelow directory paths).Pairwise fun a b => sortKey directory a ≤ sortKey directory b := by
  refine (List.pairwise_mergeSort (fun a b c hab hbc => ?_) (fun a b => ?_) paths).imp of_decide_eq_true
  · rw [decide_eq_true_eq] at hab hbc ⊢
    exact String.le_trans hab hbc
  · rw [Bool.or_eq_true, decide_eq_true_eq, decide_eq_true_eq]
    exact String.le_total (sortKey directory a) (sortKey directory b)

/-- A file that is looked for, by the steps that lead to it from the place of the directory. -/
structure Sought (s : Search) (d : Disk) (place : Place) (verdicts : List Ignore.Verdict) (rel : List String) :
    Prop where
  /-- A file and no link, with directories and no links on the way. -/
  reached : ∃ data mode, d.tree.Reaches place rel (.file data mode)
  extension : extension (s.directory.descend rel) ∈ withoutDots s.extensions
  unignored : isIgnored s.isNested (d.absolute (s.directory.descend rel)) verdicts = .ok false
  unexcluded : ∀ pattern ∈ s.exclude, Glob.matchesText pattern (joinSteps rel) = false

theorem sought_of_kept (hd : d.WellFormed) (hdir : d.locate true s.directory = .ok (.occupied place (.directory mode)))
    {kept : List Path} (h : (below d s.directory).filterM (s.wanted.includes d verdicts) = .ok kept) {p : Path}
    (hp : p ∈ kept) : ∃ rel, s.Sought d place verdicts rel ∧ p = s.directory.descend rel := by
  obtain ⟨hbelow, hincluded⟩ := (mem_filterM_iff h).mp hp
  obtain ⟨hext, hplain, _, steps, hsteps, hignored, hexcluded⟩ := includes_iff.mp hincluded
  obtain ⟨rel, data, mode', hreaches, rfl, _⟩ := reaches_of_isPlainFile hd hdir hbelow hplain
  obtain rfl : rel = steps := Option.some.inj ((Path.relativeTo?_append _ _ rel).symm.trans hsteps)
  exact ⟨rel, ⟨⟨data, mode', hreaches⟩, hext, hignored, hexcluded⟩, rfl⟩

/-- What is kept of the paths below a directory is what is looked for. -/
theorem mem_kept_iff (hd : d.WellFormed) (hn : d.tree.Named)
    (hdir : d.locate true s.directory = .ok (.occupied place (.directory mode))) {kept : List Path}
    (h : (below d s.directory).filterM (s.wanted.includes d verdicts) = .ok kept) {p : Path} :
    p ∈ kept ↔ ∃ rel, s.Sought d place verdicts rel ∧ p = s.directory.descend rel := by
  constructor
  · exact sought_of_kept hd hdir h
  · rintro ⟨rel, ⟨⟨data, mode', hreaches⟩, hext, hignored, hexcluded⟩, rfl⟩
    rw [mem_filterM_iff h, includes_iff]
    have hbelow : s.directory.descend rel ∈ below d s.directory :=
      (mem_below_iff hd.tree hdir).mpr ⟨rel, _, hreaches, rfl⟩
    -- the search has ended, so the path is not too long to be looked up
    have hplain : isPlainFile d (s.directory.descend rel) = .ok true := by
      obtain ⟨b, hb⟩ := (filterM_eq h).1 _ hbelow
      cases hplain : isPlainFile d (s.directory.descend rel) with
      | error f =>
        have hcontains : s.wanted.extensions.contains (Search.extension (s.directory.descend rel)) = true :=
          List.contains_iff_mem.mpr hext
        simp only [includes, hcontains, hplain, bind, Except.bind, Bool.not_true] at hb
        cases hb
      | ok plain => rw [isPlainFile_of_reaches hd hn hdir hreaches hplain]
    obtain ⟨rel', _, _, _, _, hlocate⟩ := reaches_of_isPlainFile hd hdir hbelow hplain
    exact ⟨hbelow, hext, hplain, (resolve_of_reached hd hdir hlocate).2, rel, Path.relativeTo?_append _ _ rel, hignored,
      hexcluded⟩

/-- A path is not ignored if no verdict ignores it. With `isNested`, verdicts may make nothing of it. -/
theorem isIgnored_eq_false_iff {isNested : Bool} {path : Path} : isIgnored isNested path verdicts = .ok false ↔
    ∀ ignores ∈ verdicts, ignores path = .ok false ∨
      isNested = true ∧ ∃ f, ignores path = .error f ∧ f.isBadValue = true := by
  induction verdicts with
  | nil => exact iff_of_true rfl fun _ h => nomatch h
  | cons first rest ih =>
    rw [isIgnored, List.forall_mem_cons]
    cases hfirst : first path with
    | ok b =>
      cases b with
      | true => simp
      | false => simpa using ih
    | error f =>
      simp only
      by_cases hpassed : (isNested && f.isBadValue) = true
      · rw [if_pos hpassed, ih]
        rw [Bool.and_eq_true] at hpassed
        simp [hpassed]
      · rw [if_neg hpassed]
        rw [Bool.and_eq_true, not_and] at hpassed
        simp +contextual [hpassed]

/-- A search ends if its directory is one, its ignore files can be read and every path below it can be tested; what is
kept is then sorted. -/
theorem files_ok_iff : s.files d = .ok files ↔ ∃ place mode verdicts kept,
    d.locate true s.directory = .ok (.occupied place (.directory mode)) ∧
    verdictsFor s.reader d s.directory s.isNested = .ok verdicts ∧
    (below d s.directory).filterM (s.wanted.includes d verdicts) = .ok kept ∧ files = sortBelow s.directory kept := by
  constructor
  · intro h
    obtain ⟨here, hbelow⟩ := searched_of_files h
    obtain ⟨place, mode, hdir⟩ := Disk.locate_of_isDirectory here
    obtain ⟨verdicts, kept, hverdicts, hkept, hfiles⟩ := filesBelow_ok hbelow
    exact ⟨place, mode, verdicts, kept, hdir, hverdicts, hkept, hfiles⟩
  · rintro ⟨place, mode, verdicts, kept, hdir, hverdicts, hkept, rfl⟩
    obtain ⟨hexists, here⟩ := Disk.isDirectory_of_locate hdir
    have hbelow : s.filesBelow d = .ok (sortBelow s.directory kept) := by
      rw [wanted] at hkept
      simp only [filesBelow, hverdicts, hkept, bind, Except.bind]
      rfl
    unfold files
    rw [hexists, here, hbelow]
    rfl

/-- What a search finds where it comes upon the files in their order. -/
theorem files_of_ordered (hdir : d.locate true s.directory = .ok (.occupied place (.directory mode)))
    (h : ((verdictsFor s.reader d s.directory s.isNested).toOption.bind fun verdicts =>
      ((below d s.directory).filterM (s.wanted.includes d verdicts)).toOption) = some files)
    (hordered : files.Pairwise fun a b => decide (¬ sortKey s.directory b < sortKey s.directory a) = true) :
    s.files d = .ok files := by
  obtain ⟨verdicts, hverdicts, hkept⟩ := Option.bind_eq_some_iff.mp h
  refine files_ok_iff.mpr ⟨place, mode, verdicts, files, hdir, eq_ok_of_toOption hverdicts, eq_ok_of_toOption hkept, ?_⟩
  exact (List.mergeSort_of_pairwise hordered).symm

/-- The files that are found, by their steps from the directory: sorted, and all of them different. -/
theorem exists_rels (hd : d.WellFormed) (hn : d.tree.Named)
    (hdir : d.locate true s.directory = .ok (.occupied place (.directory mode))) {kept : List Path}
    (h : (below d s.directory).filterM (s.wanted.includes d verdicts) = .ok kept) :
    ∃ rels : List (List String), sortBelow s.directory kept = rels.map s.directory.descend ∧
      rels.Pairwise (fun a b => joinSteps a < joinSteps b) ∧ ∀ rel, rel ∈ rels ↔ s.Sought d place verdicts rel := by
  let relOf (p : Path) : List String := p.steps.drop s.directory.steps.length
  have hrelOf (rel : List String) : relOf (s.directory.descend rel) = rel := List.drop_left
  have hmem {p : Path} : p ∈ sortBelow s.directory kept ↔
      ∃ rel, s.Sought d place verdicts rel ∧ p = s.directory.descend rel := by
    rw [mem_sortBelow, mem_kept_iff hd hn hdir h]
  refine ⟨(sortBelow s.directory kept).map relOf, ?_, ?_, fun rel => ?_⟩
  · rw [List.map_map]
    refine ((List.map_congr_left fun p hp => ?_).trans (List.map_id _)).symm
    obtain ⟨rel, _, rfl⟩ := hmem.mp hp
    exact congrArg s.directory.descend (hrelOf rel)
  · -- paths at different places have different texts, so the order is strict
    have hplaces : ((sortBelow s.directory kept).map fun p => place ++ relOf p).Nodup := by
      refine ((List.mergeSort_perm _ _).map _).nodup_iff.mpr ?_
      exact (distinct_below hd.tree hdir).sublist ((filterM_ok h).1.map _)
    rw [List.nodup_iff_pairwise_ne, List.pairwise_map] at hplaces
    rw [List.pairwise_map]
    refine ((sortBelow_ascends s.directory kept).and hplaces).imp_of_mem fun {a b} ha hb hab => ?_
    obtain ⟨x, ⟨⟨_, _, hx⟩, _⟩, rfl⟩ := hmem.mp ha
    obtain ⟨y, ⟨⟨_, _, hy⟩, _⟩, rfl⟩ := hmem.mp hb
    rw [sortKey_descend, sortKey_descend] at hab
    rw [hrelOf, hrelOf] at hab ⊢
    refine Std.lt_of_le_of_ne hab.1 fun htext => hab.2 (congrArg (place ++ ·) ?_)
    exact joinSteps_injective hx.ne_nil hy.ne_nil (fun name hname => (hn.of_reaches hx name hname).1)
      (fun name hname => (hn.of_reaches hy name hname).1) htext
  · rw [List.mem_map]
    constructor
    · rintro ⟨p, hp, rfl⟩
      obtain ⟨rel, hsought, rfl⟩ := hmem.mp hp
      rwa [hrelOf]
    · exact fun hsought => ⟨_, hmem.mpr ⟨rel, hsought, rfl⟩, hrelOf rel⟩

/-- A search that ends finds exactly the files that are looked for. They are in the strict order of their relative paths
and so all different, and each of them resolves to a place inside of what the directory resolves to. -/
theorem finds_exactly_sought (hd : d.WellFormed) (hn : d.tree.Named) (h : s.files d = .ok files) :
    ∃ place verdicts, d.resolve s.directory = .ok ⟨.single, place⟩ ∧ d.tree.IsDirectory place ∧
      verdictsFor s.reader d s.directory s.isNested = .ok verdicts ∧ ∃ rels : List (List String),
        files = rels.map s.directory.descend ∧ rels.Pairwise (fun a b => joinSteps a < joinSteps b) ∧ files.Nodup ∧
        (∀ rel, rel ∈ rels ↔ s.Sought d place verdicts rel) ∧
        ∀ rel ∈ rels, d.resolve (s.directory.descend rel) = .ok ⟨.single, place ++ rel⟩ := by
  obtain ⟨place, mode, verdicts, kept, hdir, hverdicts, hkept, rfl⟩ := files_ok_iff.mp h
  obtain ⟨rels, hfiles, hascend, hmem⟩ := exists_rels hd hn hdir hkept
  have hget := (FileTree.get?_of_walk hd.tree (FileTree.isDirectory_originOf hd.current _) (Disk.walk_of_locate hdir)).1
  refine ⟨place, verdicts, Disk.resolve_of_locate hd hdir, ⟨mode, hget⟩, hverdicts, rels, hfiles, hascend, ?_, hmem,
    fun rel hrel => ?_⟩
  · rw [hfiles, List.nodup_iff_pairwise_ne, List.pairwise_map]
    refine hascend.imp fun {a b} hlt => ?_
    intro heq
    rw [Path.descend_injective heq] at hlt
    exact String.lt_irrefl _ hlt
  · have hfound : s.directory.descend rel ∈ sortBelow s.directory kept := hfiles ▸ List.mem_map_of_mem hrel
    have htest := (mem_filterM_iff hkept).mp (mem_sortBelow.mp hfound)
    obtain ⟨rel', _, _, _, hsame, hlocate⟩ :=
      reaches_of_isPlainFile hd hdir htest.1 (isPlainFile_of_includes htest.2)
    obtain rfl := Path.descend_injective hsame
    exact (resolve_of_reached hd hdir hlocate).1

/-- A directory that is reached through a link, with a link that leads out of it, one that leads to itself, one that
leads nowhere, and an ignore file. -/
def linkedDisk : Disk where
  current := ["home"]
  unreadable := []
  tree := ⟨[
    (["home"], .directory 0o755),
    (["home", "src"], .link "../real"),
    (["out"], .directory 0o755),
    (["out", "x.rs"], .file [] 0o644),
    (["real"], .directory 0o755),
    (["real", ".gitignore"], .file (Bytes.ofString "gen.rs\n") 0o644),
    (["real", "b.rs"], .file [] 0o644),
    (["real", "b"], .directory 0o755),
    (["real", "b", "gen.rs"], .file [] 0o644),
    (["real", "b", "c.rs"], .file [] 0o644),
    (["real", "lib.rs"], .link "lib.rs"),
    (["real", "none.rs"], .link "gone.rs"),
    (["real", "out"], .link "../out"),
    (["real", "skip.rs"], .file [] 0o644),
    (["real", "a.md"], .file [] 0o644)]⟩

/-- The search of a directory through its link. -/
def linkedSearch : Search where
  directory := ⟨.none, ["src"]⟩
  extensions := [".rs"]
  exclude := ["sk*"]
  isNested := false
  reader := Ignore.reader

def linkedFiles : List Path := [⟨.none, ["src", "b.rs"]⟩, ⟨.none, ["src", "b", "c.rs"]⟩]

theorem files_linkedSearch : linkedSearch.files linkedDisk = .ok linkedFiles :=
  files_of_ordered (eq_ok_of_toOption (by decide +kernel) : linkedDisk.locate true _ =
    .ok (.occupied ["real"] (.directory 0o755))) (by decide +kernel) (by decide +kernel)

/-- Of all that is there, two files are found, and they are what is looked for behind the link. -/
theorem linkedSearch_finds_sought : linkedDisk.WellFormed ∧ linkedDisk.tree.Named ∧
    linkedSearch.files linkedDisk = .ok linkedFiles ∧
    ∃ place verdicts, linkedDisk.resolve linkedSearch.directory = .ok ⟨.single, place⟩ ∧
      ∃ rels : List (List String), linkedFiles = rels.map linkedSearch.directory.descend ∧
        ∀ rel, rel ∈ rels ↔ linkedSearch.Sought linkedDisk place verdicts rel := by
  have hd : linkedDisk.WellFormed := ⟨by decide +kernel, 0o755, by decide +kernel⟩
  have hn : linkedDisk.tree.Named := by decide +kernel
  obtain ⟨place, verdicts, hplace, _, _, rels, hrels, _, _, hmem, _⟩ := finds_exactly_sought hd hn files_linkedSearch
  exact ⟨hd, hn, files_linkedSearch, place, verdicts, hplace, rels, hrels, hmem⟩

end Search

end LogRef
