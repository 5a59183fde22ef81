import LogRef.Discovery.Search
import LogRef.Proofs.FileSystem.Shape
import LogRef.Proofs.Results

/-!
# Files that a search finds

The files that a search finds are plain files at places of their own: no two of them are the same file, and none
is reached through a link at its end. So what is written to one of them is not seen in another.
-/
namespace LogRef

namespace Item

def isDirectory : Item → Bool
  | .directory _ => true
  | _ => false

theorem exists_of_isDirectory {item : Item} (h : item.isDirectory = true) : ∃ mode, item = .directory mode := by
  cases item with
  | directory mode => exact ⟨mode, rfl⟩
  | file data mode => cases h
  | link target => cases h

end Item

namespace FileTree

/-- A tree in which every item has a name of its own in a directory. -/
structure WellFormed (t : FileTree) : Prop where
  distinct : (t.items.map Prod.fst).Nodup
  named : ∀ e ∈ t.items, e.1 ≠ [] ∧ ".." ∉ e.1
  rooted : ∀ e ∈ t.items, (t.get? e.1.dropLast).any Item.isDirectory = true

instance (t : FileTree) : Decidable t.WellFormed :=
  decidable_of_iff ((t.items.map Prod.fst).Nodup ∧ (∀ e ∈ t.items, e.1 ≠ [] ∧ ".." ∉ e.1) ∧
      ∀ e ∈ t.items, (t.get? e.1.dropLast).any Item.isDirectory = true)
    ⟨fun ⟨h1, h2, h3⟩ => ⟨h1, h2, h3⟩, fun ⟨h1, h2, h3⟩ => ⟨h1, h2, h3⟩⟩

variable {t : FileTree} {place q : Place} {item : Item} {follow : Bool} {links : Nat} {here : Place}
  {steps rel : List String} {mode : Nat}

theorem get?_of_mem (h : t.WellFormed) {e : Place × Item} (he : e ∈ t.items) : t.get? e.1 = some e.2 := by
  rw [get?, if_neg (h.named e he).1]
  have hdistinct := h.distinct
  revert he hdistinct
  generalize t.items = items
  intro he hdistinct
  induction items with
  | nil => cases he
  | cons f items ih =>
    rw [List.map_cons, List.nodup_cons] at hdistinct
    rcases List.mem_cons.mp he with rfl | he
    · rw [List.lookup_cons_self]
    · have hne : (e.1 == f.1) = false :=
        beq_eq_false_iff_ne.mpr fun heq => hdistinct.1 (heq ▸ List.mem_map_of_mem he)
      rw [List.lookup_cons, hne]
      exact ih he hdistinct.2

theorem mem_of_get? (hq : q ≠ []) (h : t.get? q = some item) : (q, item) ∈ t.items := by
  rw [get?, if_neg hq] at h
  revert h
  generalize t.items = items
  intro h
  induction items with
  | nil => cases h
  | cons e items ih =>
    rw [List.lookup_cons] at h
    split at h
    · next heq =>
      obtain rfl := Option.some.inj h
      rw [beq_iff_eq.mp heq]
      exact List.mem_cons_self
    · exact List.mem_cons_of_mem e (ih h)

/-- What is above an item is a directory. -/
theorem WellFormed.directory_above (h : t.WellFormed) {above below : List String} (hbelow : below ≠ [])
    (hget : t.get? (above ++ below) = some item) : ∃ mode, t.get? above = some (.directory mode) := by
  induction hn : below.length generalizing below item with
  | zero => exact absurd (List.eq_nil_of_length_eq_zero hn) hbelow
  | succ n ih =>
    have hne : above ++ below ≠ [] := by simp [hbelow]
    have hparent := h.rooted _ (mem_of_get? hne hget)
    rw [List.dropLast_append_of_ne_nil hbelow] at hparent
    cases hget' : t.get? (above ++ below.dropLast) with
    | none => rw [hget'] at hparent; cases hparent
    | some parent =>
      rw [hget'] at hparent
      obtain ⟨mode, rfl⟩ := Item.exists_of_isDirectory hparent
      by_cases hnil : below.dropLast = []
      · rw [hnil, List.append_nil] at hget'
        exact ⟨mode, hget'⟩
      · exact ih hnil hget' (by rw [List.length_dropLast, hn]; rfl)

/-- Steps to a directory and beyond. -/
theorem stretch_append_directory (h : t.stretch true here steps = .arrived (.occupied place (.directory mode)))
    (hrel : rel ≠ []) : t.stretch follow here (steps ++ rel) = t.stretch follow place rel := by
  induction steps generalizing here with
  | nil =>
    rw [stretch, Stretch.arrived.injEq, Destination.occupied.injEq] at h
    rw [h.1]
    rfl
  | cons step rest ih =>
    rw [List.cons_append]
    by_cases h1 : step = ".."
    · subst h1
      rw [stretch_up] at h ⊢
      exact ih h
    · by_cases h2 : nameLimit < step.utf8ByteSize
      · rw [stretch_long h1 h2] at h
        cases h
      · cases hi : t.get? (here ++ [step]) with
        | none =>
          rw [stretch_none h1 h2 hi] at h
          split at h <;> cases h
        | some item =>
          cases item with
          | file data mode =>
            rw [stretch_file h1 h2 hi] at h
            split at h <;> cases h
          | link target =>
            rw [stretch_link h1 h2 hi] at h
            split at h <;> cases h
          | directory mode =>
            rw [stretch_directory h1 h2 hi] at h ⊢
            rw [if_neg (by simp [hrel])]
            split at h
            · next hrest =>
              cases h
              rw [hrest, List.nil_append]
            · exact ih h

/-- Steps to a link and beyond. -/
theorem stretch_append_link {origin : Place} {target : Path} {more : List String}
    (h : t.stretch true here steps = .link origin target more) (hrel : rel ≠ []) :
    t.stretch follow here (steps ++ rel) = .link origin target (more ++ rel) := by
  induction steps generalizing here with
  | nil => cases h
  | cons step rest ih =>
    rw [List.cons_append]
    by_cases h1 : step = ".."
    · subst h1
      rw [stretch_up] at h ⊢
      exact ih h
    · by_cases h2 : nameLimit < step.utf8ByteSize
      · rw [stretch_long h1 h2] at h
        cases h
      · cases hi : t.get? (here ++ [step]) with
        | none =>
          rw [stretch_none h1 h2 hi] at h
          split at h <;> cases h
        | some item =>
          cases item with
          | file data mode =>
            rw [stretch_file h1 h2 hi] at h
            split at h <;> cases h
          | link target =>
            rw [stretch_link h1 h2 hi] at h ⊢
            rw [if_neg (by simp [hrel])]
            split at h
            · cases h
            · cases h
              rfl
          | directory mode =>
            rw [stretch_directory h1 h2 hi] at h ⊢
            rw [if_neg (by simp [hrel])]
            split at h
            · cases h
            · exact ih h

/-- A path to a directory and beyond goes on from the directory. -/
theorem walk_append (h : t.walk true links here steps = .ok (.occupied place (.directory mode)))
    (hrel : rel ≠ []) :
    ∃ more, t.walk follow links here (steps ++ rel) = t.walk follow more place rel := by
  induction links generalizing here steps with
  | zero =>
    rw [walk_eq] at h
    cases hs : t.stretch true here steps with
    | blocked kind => rw [hs] at h; cases h
    | link origin target rest => rw [hs] at h; cases h
    | arrived d =>
      rw [hs] at h
      cases h
      exact ⟨0, by rw [walk_eq, walk_eq, stretch_append_directory hs hrel]⟩
  | succ links ih =>
    rw [walk_eq] at h
    cases hs : t.stretch true here steps with
    | blocked kind => rw [hs] at h; cases h
    | arrived d =>
      rw [hs] at h
      cases h
      exact ⟨links + 1, by rw [walk_eq, walk_eq, stretch_append_directory hs hrel]⟩
    | link origin target rest =>
      rw [hs] at h
      obtain ⟨more, hmore⟩ := ih h
      refine ⟨more, ?_⟩
      rw [walk_eq, stretch_append_link hs hrel]
      simp only
      rw [← List.append_assoc, hmore]

/-- The steps below a directory lead to the item there. -/
theorem WellFormed.stretch_below (h : t.WellFormed) (hrel : rel ≠ [])
    (hget : t.get? (place ++ rel) = some item) :
    t.stretch false place rel = .arrived (.occupied (place ++ rel) item) ∨
      t.stretch false place rel = .blocked .nameTooLong := by
  have hup : ".." ∉ rel := by
    have := (h.named _ (mem_of_get? (by simp [hrel]) hget)).2
    exact fun hmem => this (List.mem_append_right _ hmem)
  induction rel generalizing place with
  | nil => exact absurd rfl hrel
  | cons step rest ih =>
    have h1 : step ≠ ".." := fun heq => hup (heq ▸ List.mem_cons_self)
    by_cases h2 : nameLimit < step.utf8ByteSize
    · exact Or.inr (stretch_long h1 h2)
    · have happend : place ++ step :: rest = place ++ [step] ++ rest := by simp
      by_cases hrest : rest = []
      · subst hrest
        refine Or.inl ?_
        cases item with
        | file data mode => rw [stretch_file h1 h2 hget, if_pos rfl]
        | directory mode => rw [stretch_directory h1 h2 hget, if_pos rfl]
        | link target => rw [stretch_link h1 h2 hget]; rfl
      · rw [happend] at hget
        obtain ⟨mode, hdir⟩ := h.directory_above hrest hget
        rw [stretch_directory h1 h2 hdir, if_neg hrest, happend]
        exact ih hrest hget fun hmem => hup (List.mem_cons_of_mem step hmem)

end FileTree

/-- Paths that lead to plain files at places of their own. -/
structure Disk.Finds (d : Disk) (files : List Path) (placeOf : Path → Place) : Prop where
  plain : ∀ p ∈ files, d.Plain p (placeOf p)
  distinct : (files.map placeOf).Nodup

namespace Search

variable {d : Disk} {s : Search} {files : List Path} {directory p : Path} {place : Place} {mode : Nat}

section

variable {α ε : Type} {test : α → Except ε Bool} {l acc r : List α}

theorem filterAuxM_eq (h : l.filterAuxM test acc = .ok r) : (∀ a ∈ l, ∃ b, test a = .ok b) ∧
    r = (l.filter fun a => (test a).toOption = some true).reverse ++ acc := by
  induction l generalizing acc with
  | nil => exact ⟨List.forall_mem_nil _, (Except.ok.inj h).symm⟩
  | cons a l ih =>
    rw [List.filterAuxM] at h
    cases ha : test a with
    | error e => rw [ha] at h; cases h
    | ok b =>
      rw [ha] at h
      obtain ⟨hanswers, rfl⟩ := ih h
      refine ⟨List.forall_mem_cons.mpr ⟨⟨b, ha⟩, hanswers⟩, ?_⟩
      cases b <;> simp [ha, Except.toOption]

/-- A filter that ends has an answer for everything, and keeps what passes the test. -/
theorem filterM_eq (h : l.filterM test = .ok r) : (∀ a ∈ l, ∃ b, test a = .ok b) ∧
    r = l.filter fun a => (test a).toOption = some true := by
  rw [List.filterM] at h
  cases haux : l.filterAuxM test [] with
  | error e => rw [haux] at h; cases h
  | ok kept =>
    rw [haux] at h
    obtain ⟨hanswers, rfl⟩ := filterAuxM_eq haux
    refine ⟨hanswers, (Except.ok.inj h).symm.trans ?_⟩
    rw [List.append_nil, List.reverse_reverse]

theorem mem_filterM_iff (h : l.filterM test = .ok r) {a : α} : a ∈ r ↔ a ∈ l ∧ test a = .ok true := by
  rw [(filterM_eq h).2, List.mem_filter, decide_eq_true_eq]
  refine and_congr_right fun _ => ⟨eq_ok_of_toOption, fun ha => ?_⟩
  rw [ha]
  rfl

theorem filterM_ok (h : l.filterM test = .ok r) : r.Sublist l ∧ ∀ a ∈ r, test a = .ok true :=
  ⟨(filterM_eq h).2 ▸ List.filter_sublist, fun _ ha => ((mem_filterM_iff h).mp ha).2⟩

end

/-- What is kept of a path passed the test for plain files. -/
theorem isPlainFile_of_includes {verdicts : List Ignore.Verdict} (h : s.includes d verdicts p = .ok true) :
    isPlainFile d p = .ok true := by
  unfold includes at h
  simp only [bind, Except.bind, pure, Except.pure] at h
  split at h
  · cases h
  · cases hplain : isPlainFile d p with
    | error f => rw [hplain] at h; cases h
    | ok b =>
      rw [hplain] at h
      cases b with
      | true => rfl
      | false => cases h

theorem locate_of_isPlainFile (h : isPlainFile d p = .ok true) :
    ∃ q data mode, d.locate true p = .ok (.occupied q (.file data mode)) ∧
      ∀ q' target, d.locate false p ≠ .ok (.occupied q' (.link target)) := by
  unfold isPlainFile Disk.isFile Disk.isLink Disk.item? at h
  cases htrue : d.locate true p with
  | error kind =>
    rw [htrue] at h
    simp only at h
    cases hk : kind.isAbsence <;> rw [hk] at h <;> cases h
  | ok dest =>
    cases dest with
    | free parent name => rw [htrue] at h; cases h
    | occupied q item =>
      cases item with
      | directory mode => rw [htrue] at h; cases h
      | link target => rw [htrue] at h; cases h
      | file data mode =>
        refine ⟨q, data, mode, rfl, fun q' target hfalse => ?_⟩
        rw [htrue, hfalse] at h
        cases h

theorem mem_below (hdir : d.locate true directory = .ok (.occupied place (.directory mode)))
    (h : p ∈ below d directory) : ∃ rel item, (place ++ rel, item) ∈ d.tree.items ∧ rel ≠ [] ∧
      p = ⟨directory.root, directory.steps ++ rel⟩ := by
  rw [below, hdir] at h
  obtain ⟨e, he, hp⟩ := List.mem_filterMap.mp h
  split at hp
  · next hbelow =>
    obtain ⟨hahead, hne⟩ := hbelow
    obtain ⟨rel, hrel⟩ := List.isPrefixOf_iff_prefix.mp hahead
    refine ⟨rel, e.2, hrel ▸ he, ?_, ?_⟩
    · rintro rfl
      exact hne (by rw [← hrel, List.append_nil])
    · rw [← Option.some.inj hp, ← hrel, List.drop_left']
      rfl
  · cases hp

/-- A path below a directory that passes the test for plain files leads to the item it was made of. -/
theorem plain_of_below (hw : d.tree.WellFormed)
    (hdir : d.locate true directory = .ok (.occupied place (.directory mode))) (hmem : p ∈ below d directory)
    (hplain : isPlainFile d p = .ok true) :
    d.Plain p (place ++ p.steps.drop directory.steps.length) := by
  obtain ⟨rel, item, he, hrel, rfl⟩ := mem_below hdir hmem
  obtain ⟨q, data, mode', htrue, hlink⟩ := locate_of_isPlainFile hplain
  obtain ⟨q', item', hfalse, hitem⟩ := Disk.locate_unfollowed htrue
  have hget : d.tree.get? (place ++ rel) = some item := FileTree.get?_of_mem hw he
  have hwalk := Disk.walk_of_locate hfalse
  obtain ⟨more, happend⟩ := @FileTree.walk_append _ _ false _ _ _ rel _ (Disk.walk_of_locate hdir) hrel
  have hsame : d.origin ⟨directory.root, directory.steps ++ rel⟩ = d.origin directory := rfl
  rw [hsame, happend, FileTree.walk_eq] at hwalk
  rw [List.drop_left' rfl]
  rcases hw.stretch_below hrel hget with hs | hs
  · rw [hs] at hwalk
    obtain ⟨rfl, rfl⟩ := Destination.occupied.inj (Except.ok.inj hwalk)
    have hnolink : ∀ target, item ≠ .link target := fun target heq => hlink _ target (heq ▸ hfalse)
    have hfollowed := Disk.locate_followed hfalse hnolink
    obtain ⟨rfl, rfl⟩ := Destination.occupied.inj (Except.ok.inj (hfollowed.symm.trans htrue))
    exact ⟨data, mode', fun follow => by cases follow <;> assumption⟩
  · rw [hs] at hwalk
    cases hwalk

theorem below_eq_nil (h : ∀ place mode, d.locate true directory ≠ .ok (.occupied place (.directory mode))) :
    below d directory = [] := by
  unfold below
  split
  · next hl => exact absurd hl (h _ _)
  · rfl

/-- The places of what is below a directory are all different. -/
theorem distinct_below (hw : d.tree.WellFormed)
    (hdir : d.locate true directory = .ok (.occupied place (.directory mode))) :
    ((below d directory).map fun p => place ++ p.steps.drop directory.steps.length).Nodup := by
  rw [below, hdir]
  simp only
  rw [List.map_filterMap, List.nodup_iff_pairwise_ne]
  have hitems := hw.distinct
  rw [List.nodup_iff_pairwise_ne, List.pairwise_map] at hitems
  refine hitems.filterMap _ fun a b hab p hp q hq => ?_
  have hplace {e : Place × Item} {r : Place} (h : Option.map (fun p : Path => place ++ p.steps.drop
      directory.steps.length) (if place.isPrefixOf e.1 = true ∧ e.1 ≠ place then
        some ⟨directory.root, directory.steps ++ e.1.drop place.length⟩ else none) = some r) : r = e.1 := by
    split at h
    · next hbelow =>
      obtain ⟨rel, hrel⟩ := List.isPrefixOf_iff_prefix.mp hbelow.1
      rw [← Option.some.inj h, ← hrel, List.drop_left' rfl]
      simp only
      rw [List.drop_left' rfl]
    · cases h
  rw [hplace hp, hplace hq]
  exact hab

/-- What a search ends with is what it finds below its directory, which is one. -/
theorem searched_of_files (h : s.files d = .ok files) :
    d.isDirectory s.directory = .ok true ∧ s.filesBelow d = .ok files := by
  unfold Search.files at h
  cases hexists : d.exists? s.directory with
  | error e => rw [hexists] at h; cases h
  | ok there =>
    cases hdir : d.isDirectory s.directory with
    | error e => rw [hexists, hdir] at h; cases there <;> cases h
    | ok isDir =>
      rw [hexists, hdir] at h
      cases there with
      | false => cases h
      | true =>
        cases isDir with
        | false => cases h
        | true =>
          cases hbelow : s.filesBelow d with
          | error f => rw [hbelow] at h; cases h
          | ok paths => rw [hbelow] at h; exact ⟨rfl, congrArg Except.ok (Except.ok.inj h)⟩

theorem filesBelow_of_files (h : s.files d = .ok files) : s.filesBelow d = .ok files := (searched_of_files h).2

/-- The test that a path below the directory is put to. -/
def wanted (s : Search) : Search := { s with extensions := withoutDots s.extensions }

theorem mem_sortBelow {paths : List Path} : p ∈ sortBelow directory paths ↔ p ∈ paths :=
  (List.mergeSort_perm _ _).mem_iff

theorem filesBelow_ok (h : s.filesBelow d = .ok files) :
    ∃ verdicts kept, verdictsFor s.reader d s.directory s.isNested = .ok verdicts ∧
      (below d s.directory).filterM (s.wanted.includes d verdicts) = .ok kept ∧ files = sortBelow s.directory kept := by
  unfold filesBelow at h
  cases hverdicts : verdictsFor s.reader d s.directory s.isNested with
  | error f => rw [hverdicts] at h; cases h
  | ok verdicts =>
    cases hkept : (below d s.directory).filterM (s.wanted.includes d verdicts) with
    | error f =>
      rw [wanted] at hkept
      simp only [hverdicts, hkept, bind, Except.bind] at h
      cases h
    | ok kept =>
      rw [wanted] at hkept
      simp only [hverdicts, hkept, bind, Except.bind] at h
      exact ⟨verdicts, kept, rfl, hkept, (Except.ok.inj h).symm⟩

/-- What is found is below the directory and passed the test for plain files. -/
theorem kept_of_files (h : s.files d = .ok files) : ∃ kept : List Path, files.Perm kept ∧
    kept.Sublist (below d s.directory) ∧ ∀ p ∈ kept, isPlainFile d p = .ok true := by
  obtain ⟨verdicts, kept, _, hkept, rfl⟩ := filesBelow_ok (filesBelow_of_files h)
  obtain ⟨hsub, hall⟩ := filterM_ok hkept
  exact ⟨kept, List.mergeSort_perm _ _, hsub, fun p hp => isPlainFile_of_includes (hall p hp)⟩

/-- The files that are found are plain files at places of their own. -/
theorem finds_of_files (hw : d.tree.WellFormed) (h : s.files d = .ok files) :
    ∃ placeOf, d.Finds files placeOf := by
  obtain ⟨kept, hperm, hsub, hplain⟩ := kept_of_files h
  by_cases hdir : ∃ place mode, d.locate true s.directory = .ok (.occupied place (.directory mode))
  · obtain ⟨place, mode, hdir⟩ := hdir
    refine ⟨fun p => place ++ p.steps.drop s.directory.steps.length, fun p hp => ?_, ?_⟩
    · have hp' := hperm.mem_iff.mp hp
      exact plain_of_below hw hdir (hsub.subset hp') (hplain p hp')
    · exact (hperm.map _).nodup_iff.mpr ((distinct_below hw hdir).sublist (hsub.map _))
  · rw [below_eq_nil fun place mode hl => hdir ⟨place, mode, hl⟩] at hsub
    obtain rfl := List.eq_nil_of_sublist_nil hsub
    obtain rfl := List.Perm.eq_nil hperm
    exact ⟨fun _ => [], fun p hp => (List.not_mem_nil hp).elim, List.nodup_nil⟩

end Search

end LogRef
