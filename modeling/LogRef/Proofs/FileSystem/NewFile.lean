import LogRef.Proofs.FileSystem.Ways

/-!
# Where paths lead beside a new file

A file at a place that was free changes where a path leads only if the path led to that place. A file that stands in
place of another, or of a link, is what the path leads to that named it. The one exception is a path that goes through
the link it ends at: it leads nowhere once the link is gone, and only a link to a directory can be gone through.
-/
namespace LogRef

namespace FileTree

variable {t t' : FileTree} {place parent here : Place} {name : String} {item : Item} {follow : Bool} {links : Nat}
  {steps rest : List String} {data : Bytes} {mode : Nat}

/-! ## A place that was free -/

/-- A link that is left alone at the end of a path is met with steps behind it only. -/
theorem last_of_stretch_link {origin : Place} {target : Path}
    (h : t.stretch false here steps = .link origin target rest) : rest ≠ [] ∧ rest.getLast? = steps.getLast? := by
  fun_induction stretch t false here steps with
  | case2 _ more ih =>
    obtain ⟨hrest, hlast⟩ := ih h
    have hmore : more ≠ [] := by
      rintro rfl
      cases h
    exact ⟨hrest, by rw [hlast, List.getLast?_cons_of_ne_nil hmore]⟩
  | case9 _ _ more _ _ _ _ hmore ih =>
    obtain ⟨hrest, hlast⟩ := ih h
    exact ⟨hrest, by rw [hlast, List.getLast?_cons_of_ne_nil hmore]⟩
  | case11 _ _ more _ _ _ _ hnot =>
    cases h
    have hrest : rest ≠ [] := by simpa using hnot
    exact ⟨hrest, by rw [List.getLast?_cons_of_ne_nil hrest]⟩
  | _ => cases h

theorem last_of_stretch_free (h : t.stretch follow here steps = .arrived (.free parent name)) :
    steps.getLast? = some name := by
  fun_induction stretch t follow here steps with
  | case2 _ more ih =>
    have hmore : more ≠ [] := by
      rintro rfl
      cases h
    rw [List.getLast?_cons_of_ne_nil hmore, ih h]
  | case4 => cases h; rfl
  | case9 _ _ more _ _ _ _ hmore ih => rw [List.getLast?_cons_of_ne_nil hmore, ih h]
  | _ => cases h

/-- A path to a free place, a last link left alone, ends with the name that is free. -/
theorem last_of_walk_free (h : t.walk false links here steps = .ok (.free parent name)) :
    steps.getLast? = some name := by
  induction links generalizing here steps with
  | zero =>
    rw [walk_eq] at h
    cases hs : t.stretch false here steps with
    | arrived dest => rw [hs] at h; cases h; exact last_of_stretch_free hs
    | blocked kind => rw [hs] at h; cases h
    | link origin target rest => rw [hs] at h; cases h
  | succ links ih =>
    rw [walk_eq] at h
    cases hs : t.stretch false here steps with
    | arrived dest => rw [hs] at h; cases h; exact last_of_stretch_free hs
    | blocked kind => rw [hs] at h; cases h
    | link origin target rest =>
      rw [hs] at h
      obtain ⟨hrest, hlast⟩ := last_of_stretch_link hs
      rw [← hlast, ← ih h, List.getLast?_append_of_ne_nil _ hrest]

/-- A path to a free place leads to a name in a directory. -/
theorem isDirectory_of_stretch_free (hw : t.WellFormed) (hhere : t.IsDirectory here)
    (h : t.stretch follow here steps = .arrived (.free parent name)) : t.IsDirectory parent ∧ name ≠ ".." := by
  fun_induction stretch t follow here steps with
  | case2 _ _ ih => exact ih (hhere.dropLast hw) h
  | case4 _ _ hup =>
    cases h
    exact ⟨hhere, hup⟩
  | case9 _ _ _ _ _ mode hget _ ih => exact ih ⟨mode, hget⟩ h
  | _ => cases h

theorem isDirectory_of_walk_free (hw : t.WellFormed) (hhere : t.IsDirectory here)
    (h : t.walk follow links here steps = .ok (.free parent name)) : t.IsDirectory parent ∧ name ≠ ".." := by
  induction links generalizing here steps with
  | zero =>
    rw [walk_eq] at h
    cases hs : t.stretch follow here steps with
    | arrived dest => rw [hs] at h; cases h; exact isDirectory_of_stretch_free hw hhere hs
    | blocked kind => rw [hs] at h; cases h
    | link origin target rest => rw [hs] at h; cases h
  | succ links ih =>
    rw [walk_eq] at h
    cases hs : t.stretch follow here steps with
    | arrived dest => rw [hs] at h; cases h; exact isDirectory_of_stretch_free hw hhere hs
    | blocked kind => rw [hs] at h; cases h
    | link origin target rest =>
      rw [hs] at h
      exact ih (isDirectory_beyond_link hw hhere hs) h

theorem mem_put {e : Place × Item} (h : e ∈ (t.put place item).items) : e = (place, item) ∨ e ∈ t.items := by
  unfold put at h
  split at h
  · obtain ⟨old, hold, rfl⟩ := List.mem_map.mp h
    split
    · exact .inl rfl
    · exact .inr hold
  · rcases List.mem_append.mp h with hold | hnew
    · exact .inr hold
    · exact .inl (List.mem_singleton.mp hnew)

theorem distinct_put (h : (t.items.map Prod.fst).Nodup) : ((t.put place item).items.map Prod.fst).Nodup := by
  unfold put
  split
  · have hsame : (t.items.map fun e => if e.1 = place then (place, item) else e).map Prod.fst =
        t.items.map Prod.fst := by
      rw [List.map_map]
      refine List.map_congr_left fun e _ => ?_
      by_cases he : e.1 = place
      · simp [he]
      · simp [he]
    rwa [hsame]
  · next hnone =>
    simp only [Bool.not_eq_true, List.any_eq_false, beq_iff_eq] at hnone
    rw [List.map_append, List.nodup_append]
    refine ⟨h, List.nodup_cons.mpr ⟨List.not_mem_nil, List.nodup_nil⟩, fun q hq r hr => ?_⟩
    obtain ⟨e, he, rfl⟩ := List.mem_map.mp hq
    rw [List.mem_singleton.mp hr]
    exact hnone e he

/-- A file may be put under any name in a directory that is not that of a directory. -/
theorem WellFormed.put (hw : t.WellFormed) (hparent : t.IsDirectory parent) (hname : name ≠ "..")
    (hitem : ∀ mode, t.get? (parent ++ [name]) ≠ some (.directory mode)) (data : Bytes) (mode : Nat) :
    (t.put (parent ++ [name]) (.file data mode)).WellFormed := by
  have hplace : ".." ∉ parent ++ [name] := by
    rw [List.mem_append, List.mem_singleton]
    rintro (hmem | heq)
    · obtain ⟨_, hget⟩ := hparent
      have hne : parent ≠ [] := List.ne_nil_of_mem hmem
      exact (hw.named _ (mem_of_get? hne hget)).2 hmem
    · exact hname heq.symm
  -- what is above an item is a directory, and so it is elsewhere
  have hdirectory {q : Place} (h : t.IsDirectory q) :
      ((t.put (parent ++ [name]) (.file data mode)).get? q).any Item.isDirectory = true := by
    obtain ⟨mode', hget⟩ := h
    have hne : q ≠ parent ++ [name] := by
      rintro rfl
      exact hitem _ hget
    rw [get?_put_ne hne, hget]
    rfl
  refine ⟨distinct_put hw.distinct, fun e he => ?_, fun e he => ?_⟩
  · rcases mem_put he with rfl | hold
    · exact ⟨by simp, hplace⟩
    · exact hw.named e hold
  · rcases mem_put he with rfl | hold
    · rw [List.dropLast_concat]
      exact hdirectory hparent
    · refine hdirectory ?_
      have habove := hw.rooted e hold
      cases hget : t.get? e.1.dropLast with
      | none => rw [hget] at habove; cases habove
      | some above =>
        rw [hget] at habove
        obtain ⟨mode', rfl⟩ := Item.exists_of_isDirectory habove
        exact ⟨mode', hget⟩

/-! ## A place that something stood at -/

theorem walk_ok_unique {m n : Nat} {dest dest' : Destination} (h : t.walk follow m here steps = .ok dest)
    (h' : t.walk follow n here steps = .ok dest') : dest = dest' := by
  induction m generalizing n here steps with
  | zero =>
    rw [walk_eq] at h h'
    cases hs : t.stretch follow here steps with
    | arrived d => rw [hs] at h h'; cases h; cases h'; rfl
    | blocked kind => rw [hs] at h; cases h
    | link origin target rest => rw [hs] at h; cases h
  | succ m ih =>
    rw [walk_eq] at h h'
    cases hs : t.stretch follow here steps with
    | arrived d => rw [hs] at h h'; cases h; cases h'; rfl
    | blocked kind => rw [hs] at h; cases h
    | link origin target rest =>
      rw [hs] at h h'
      cases n with
      | zero => cases h'
      | succ n => exact ih h h'

/-- What is neither a directory nor a link cannot be gone through. -/
theorem stretch_through (hw : t.WellFormed) (hhere : t.IsDirectory here) (hrest : rest ≠ []) :
    (∃ mid mode, t.stretch true here steps = .arrived (.occupied mid (.directory mode))) ∨
      (∃ origin target more, t.stretch true here steps = .link origin target more) ∨
      ∃ kind, t.stretch follow here (steps ++ rest) = .blocked kind := by
  induction steps generalizing here with
  | nil =>
    obtain ⟨mode, hdir⟩ := hhere
    exact .inl ⟨here, mode, by rw [stretch, hdir]; rfl⟩
  | cons step more ih =>
    have hbehind : more ++ rest ≠ [] := List.append_ne_nil_of_right_ne_nil _ hrest
    rw [List.cons_append]
    by_cases h1 : step = ".."
    · subst h1
      rw [stretch_up, stretch_up]
      exact ih (hhere.dropLast hw)
    by_cases h2 : nameLimit < step.utf8ByteSize
    · exact .inr (.inr ⟨_, stretch_long h1 h2⟩)
    cases hi : t.get? (here ++ [step]) with
    | none => exact .inr (.inr ⟨_, by rw [stretch_none h1 h2 hi, if_neg hbehind]⟩)
    | some found =>
      cases found with
      | file data mode => exact .inr (.inr ⟨_, by rw [stretch_file h1 h2 hi, if_neg hbehind]⟩)
      | link target =>
        exact .inr (.inl ⟨here, Path.ofString target, more, by rw [stretch_link h1 h2 hi]; simp⟩)
      | directory mode =>
        rw [stretch_directory h1 h2 hi, stretch_directory h1 h2 hi, if_neg hbehind]
        split
        · exact .inl ⟨_, mode, rfl⟩
        · exact ih ⟨mode, hi⟩

/-- The front part of a path that leads somewhere leads to a directory. -/
theorem walk_front (hw : t.WellFormed) (hhere : t.IsDirectory here) (hrest : rest ≠ []) {dest : Destination}
    (h : t.walk follow links here (steps ++ rest) = .ok dest) :
    ∃ mid mode, t.walk true links here steps = .ok (.occupied mid (.directory mode)) := by
  induction links generalizing here steps with
  | zero =>
    rw [walk_eq] at h
    rcases stretch_through hw hhere hrest with ⟨mid, mode, hs⟩ | ⟨origin, target, more, hs⟩ | ⟨kind, hs⟩
    · exact ⟨mid, mode, by rw [walk_eq, hs]⟩
    · rw [stretch_append_link hs hrest] at h
      cases h
    · rw [hs] at h
      cases h
  | succ links ih =>
    rw [walk_eq] at h
    rcases stretch_through hw hhere hrest with ⟨mid, mode, hs⟩ | ⟨origin, target, more, hs⟩ | ⟨kind, hs⟩
    · exact ⟨mid, mode, by rw [walk_eq, hs]⟩
    · rw [stretch_append_link hs hrest] at h
      obtain ⟨mid, mode, hmid⟩ := ih (isDirectory_beyond_link hw hhere hs) (by rw [List.append_assoc]; exact h)
      exact ⟨mid, mode, by rw [walk_eq, hs]; exact hmid⟩
    · rw [hs] at h
      cases h

/-- A stretch that ends at a link goes on from it when links are followed. -/
theorem stretch_last_link (hw : t.WellFormed) (hhere : t.IsDirectory here) {target : String}
    (h : t.stretch false here steps = .arrived (.occupied (parent ++ [name]) (.link target))) :
    t.stretch true here steps = .link parent (Path.ofString target) [] := by
  rcases stretch_follow t here steps with heq | ⟨parent', name', target', hfalse, htrue⟩
  · exact absurd rfl ((get?_of_stretch_directory hw hhere (heq.trans h)).2 target)
  · rw [h, Stretch.arrived.injEq, Destination.occupied.injEq, Item.link.injEq] at hfalse
    obtain ⟨hplace, rfl⟩ := hfalse
    obtain ⟨rfl, _⟩ := List.append_inj' hplace rfl
    exact htrue

/-- A path that ends at a link leads where the link does. -/
theorem walk_last_link (hw : t.WellFormed) (hhere : t.IsDirectory here) {target : String} {dest : Destination}
    (h : t.walk false links here steps = .ok (.occupied (parent ++ [name]) (.link target)))
    (hdest : t.walk true links here steps = .ok dest) :
    ∃ more, t.walk true more (originOf parent (Path.ofString target)) (Path.ofString target).steps = .ok dest := by
  induction links generalizing here steps with
  | zero =>
    rw [walk_eq] at h hdest
    cases hs : t.stretch false here steps with
    | arrived d =>
      rw [hs] at h
      cases h
      rw [stretch_last_link hw hhere hs] at hdest
      cases hdest
    | blocked kind => rw [hs] at h; cases h
    | link origin target rest => rw [hs] at h; cases h
  | succ links ih =>
    rw [walk_eq] at h hdest
    cases hs : t.stretch false here steps with
    | arrived d =>
      rw [hs] at h
      cases h
      rw [stretch_last_link hw hhere hs] at hdest
      exact ⟨links, by simpa using hdest⟩
    | blocked kind => rw [hs] at h; cases h
    | link origin target' rest =>
      rw [hs] at h
      rw [stretch_link_followed hs] at hdest
      exact ih (isDirectory_beyond_link hw hhere hs) h hdest

theorem ne_of_directory {q : Place} {m : Nat} (hget : t.get? place = some item) (hitem : ∀ mode, item ≠ .directory mode)
    (hq : t.get? q = some (.directory m)) : q ≠ place := by
  rintro rfl
  exact hitem m (Option.some.inj (hget.symm.trans hq))

section

variable (hsame : SameBut place t t') (hput : t'.get? place = some (.file data mode)) (hget : t.get? place = some item)
  (hitem : ∀ mode, item ≠ .directory mode)
include hsame hput hget hitem

/-- What led to a file or a link leads to the file that stands in its place. -/
theorem stretch_replaced (hw : t.WellFormed) (hhere : t.IsDirectory here)
    (h : t.stretch false here steps = .arrived (.occupied place item)) :
    t'.stretch true here steps = .arrived (.occupied place (.file data mode)) := by
  fun_induction stretch t false here steps with
  | case1 here =>
    obtain ⟨m, hdir⟩ := hhere
    cases h
    exact absurd rfl (ne_of_directory hget hitem hdir)
  | case2 here rest ih =>
    rw [stretch_up]
    exact ih (hhere.dropLast hw) h
  | case6 here step h1 h2 old m hi =>
    cases h
    rw [stretch_file h1 h2 hput, if_pos rfl]
  | case8 here step h1 h2 m hi =>
    cases h
    exact absurd rfl (ne_of_directory hget hitem hi)
  | case9 here step rest h1 h2 m hi hrest ih =>
    rw [stretch_directory h1 h2 ((hsame _ (ne_of_directory hget hitem hi)).trans hi), if_neg hrest]
    exact ih ⟨m, hi⟩ h
  | case10 here step rest h1 h2 target hi hlast =>
    cases h
    rw [stretch_file h1 h2 hput, if_pos (by simpa using hlast)]
  | _ => cases h

omit hput in
/-- A link with steps behind it is the one that is replaced, or it is met as before. -/
theorem stretch_past_link {origin : Place} {target : Path}
    (h : t.stretch false here steps = .link origin target rest) :
    (∃ name text, origin ++ [name] = place ∧ t.get? place = some (.link text) ∧ target = Path.ofString text) ∨
      t'.stretch true here steps = .link origin target rest := by
  fun_induction stretch t false here steps with
  | case2 here rest ih =>
    rw [stretch_up]
    exact ih h
  | case9 here step rest h1 h2 m hi hrest ih =>
    rw [stretch_directory h1 h2 ((hsame _ (ne_of_directory hget hitem hi)).trans hi), if_neg hrest]
    exact ih h
  | case11 here step rest h1 h2 text hi hlast =>
    cases h
    by_cases hmeet : origin ++ [step] = place
    · exact .inl ⟨step, text, hmeet, hmeet ▸ hi, rfl⟩
    · refine .inr ?_
      rw [stretch_link h1 h2 ((hsame _ hmeet).trans hi)]
      simp
  | _ => cases h

/-- A path that ended at a file or a link leads to the file that stands in its place, if it did not lead to a
directory. -/
theorem walk_replaced (hw : t.WellFormed) (hhere : t.IsDirectory here) {dest : Destination}
    (h : t.walk false links here steps = .ok (.occupied place item))
    (hdest : t.walk true links here steps = .ok dest) (hend : ∀ q mode, dest ≠ .occupied q (.directory mode)) :
    t'.walk true links here steps = .ok (.occupied place (.file data mode)) := by
  induction links generalizing here steps with
  | zero =>
    rw [walk_eq] at h
    cases hs : t.stretch false here steps with
    | arrived d =>
      rw [hs] at h
      cases h
      rw [walk_eq, stretch_replaced hsame hput hget hitem hw hhere hs]
    | blocked kind => rw [hs] at h; cases h
    | link origin target rest => rw [hs] at h; cases h
  | succ links ih =>
    rw [walk_eq] at h hdest
    cases hs : t.stretch false here steps with
    | arrived d =>
      rw [hs] at h
      cases h
      rw [walk_eq, stretch_replaced hsame hput hget hitem hw hhere hs]
    | blocked kind => rw [hs] at h; cases h
    | link origin target rest =>
      rw [hs] at h
      rw [stretch_link_followed hs] at hdest
      have hbeyond := isDirectory_beyond_link hw hhere hs
      rcases stretch_past_link hsame hget hitem hs with ⟨name, text, rfl, hlink, rfl⟩ | hs'
      · -- the link is gone through, so it leads to a directory, and it ends the path, so that leads there, too
        obtain ⟨mid, m, hmid⟩ := walk_front hw hbeyond (last_of_stretch_link hs).1 h
        obtain rfl := Option.some.inj (hget.symm.trans hlink)
        obtain ⟨more, hmore⟩ := walk_last_link hw hbeyond h hdest
        exact absurd (walk_ok_unique hmore hmid) (hend mid m)
      · rw [walk_eq, hs']
        exact ih hbeyond h hdest

end

end FileTree

namespace Disk

variable {d : Disk} {p : Path} {place : Place} {item : Item} {follow : Bool} {data : Bytes} {mode : Nat}

/-- A path that leads to a free place, a last link left alone, ends with its name. -/
theorem Awaits.last (h : d.Awaits false p place) : p.steps.getLast? = place.getLast? := by
  obtain ⟨parent, name, hl, rfl⟩ := h
  rw [FileTree.last_of_walk_free (walk_of_locate hl), List.getLast?_concat]

/-- A new file changes where the paths lead that awaited it; others lead where they led, or nowhere still. -/
theorem locate_beside (hd : d.WellFormed) {scratch : Path} {last : Bool} (hplace : d.Awaits last scratch place)
    (follow : Bool) (p : Path) (data : Bytes) (mode : Nat) :
    (d.withFile place data mode).locate follow p = d.locate follow p ∨
      d.Awaits follow p place ∧
        (d.withFile place data mode).locate follow p = .ok (.occupied place (.file data mode)) ∨
      ∃ kind kind', d.locate follow p = .error kind ∧ (d.withFile place data mode).locate follow p = .error kind' := by
  obtain ⟨_, _, hfree, hplace⟩ := hplace
  have hnone : d.tree.get? place = none := hplace ▸ get?_of_locate_free hfree
  have hput : (d.withFile place data mode).tree.get? place = some (.file data mode) :=
    FileTree.get?_put_self (by simp [← hplace])
  have hsame := SameWays.locate (.withFile (by rw [hnone]; rfl) data mode) hd follow p
  cases hl : d.locate follow p with
  | error kind =>
    cases hl' : (d.withFile place data mode).locate follow p with
    | error kind' => exact .inr (.inr ⟨kind, kind', rfl, rfl⟩)
    | ok dest =>
      rw [hl, hl'] at hsame
      cases hsame
  | ok dest =>
    obtain ⟨dest', hl', hcleared⟩ := exists_cleared hsame.symm hl
    rw [hl']
    cases hend : dest.cleared with
    | occupied q item =>
      rw [Destination.eq_of_cleared hend, Destination.eq_of_cleared (hcleared.trans hend)]
      exact .inl rfl
    | free parent name =>
      have hdest := dest_of_cleared hl hend
      rw [dest_of_cleared hl' (hcleared.trans hend)]
      by_cases hat : parent ++ [name] = place
      · rw [hat, hnone] at hdest
        rw [hat, hput]
        exact .inr (.inl ⟨⟨parent, name, hl.trans (congrArg Except.ok hdest), hat⟩, rfl⟩)
      · rw [hdest, d.withFile_sameBut place data mode _ hat]
        exact .inl rfl

theorem WellFormed.withFile_put {parent : Place} {name : String} (hd : d.WellFormed)
    (hparent : d.tree.IsDirectory parent)
    (hname : name ≠ "..") (hitem : ∀ mode, d.tree.get? (parent ++ [name]) ≠ some (.directory mode)) (data : Bytes)
    (mode : Nat) : (d.withFile (parent ++ [name]) data mode).WellFormed := by
  refine ⟨hd.tree.put hparent hname hitem data mode, ?_⟩
  obtain ⟨mode', hget⟩ := hd.current
  have hne : d.current ≠ parent ++ [name] := by
    intro heq
    exact hitem mode' (heq ▸ hget)
  exact ⟨mode', (FileTree.get?_put_ne hne).trans hget⟩

/-- A disk stays well-formed when a file is put where there was none. -/
theorem WellFormed.withFile_new (hd : d.WellFormed) (hplace : d.Awaits follow p place) (data : Bytes) (mode : Nat) :
    (d.withFile place data mode).WellFormed := by
  obtain ⟨parent, name, hl, rfl⟩ := hplace
  obtain ⟨hparent, hname⟩ := FileTree.isDirectory_of_walk_free hd.tree (FileTree.isDirectory_originOf hd.current p)
    (walk_of_locate hl)
  refine hd.withFile_put hparent hname (fun mode' hget => ?_) data mode
  rw [get?_of_locate_free hl] at hget
  cases hget

/-- A disk stays well-formed when the contents of a file change. -/
theorem WellFormed.withFile {old : Bytes} {mode' : Nat} (hd : d.WellFormed)
    (hget : d.tree.get? place = some (.file old mode')) (data : Bytes) (mode : Nat) :
    (d.withFile place data mode).WellFormed := by
  have hne : place ≠ [] := by
    rintro rfl
    cases hget
  obtain ⟨parent, name, rfl⟩ : ∃ parent name, place = parent ++ [name] :=
    ⟨_, _, (List.dropLast_append_getLast hne).symm⟩
  have hup := (hd.tree.named _ (FileTree.mem_of_get? hne hget)).2
  refine hd.withFile_put (hd.tree.directory_above (List.cons_ne_nil _ _) hget) (fun heq => hup (by simp [heq])) ?_ data
    mode
  intro mode'' hdirectory
  rw [hget] at hdirectory
  cases hdirectory

theorem WellFormed.write {d' : Disk} (hd : d.WellFormed) (h : d.write p data = .ok d') : d'.WellFormed := by
  unfold Disk.write at h
  split at h
  · next hl =>
    obtain rfl := Except.ok.inj h
    exact hd.withFile (get?_of_locate hl (by simp)) data _
  · cases h
  · next hl =>
    obtain rfl := Except.ok.inj h
    exact hd.withFile_new ⟨_, _, hl, rfl⟩ data _
  · cases h

/-- New contents in place of a file or a link are found at its path, if the path did not lead to a directory. -/
theorem locate_replaced (hd : d.WellFormed) (h : d.locate false p = .ok (.occupied place item))
    (hitem : ∀ mode, item ≠ .directory mode) {dest : Destination} (hdest : d.locate true p = .ok dest)
    (hend : ∀ q mode, dest ≠ .occupied q (.directory mode)) (data : Bytes) (mode : Nat) :
    (d.withFile place data mode).locate true p = .ok (.occupied place (.file data mode)) := by
  have hget := get?_of_locate h hitem
  have hplace : place ≠ [] := by
    rintro rfl
    exact hitem _ (Option.some.inj hget).symm
  have hwalk := FileTree.walk_replaced (d.withFile_sameBut place data mode) (FileTree.get?_put_self hplace) hget hitem
    hd.tree (FileTree.isDirectory_originOf hd.current p) (walk_of_locate h) (walk_of_locate hdest) hend
  unfold locate at h ⊢
  split at h
  · cases h
  · next hnull =>
    rw [if_neg hnull]
    split at h
    · cases h
    · next hlong =>
      rw [if_neg hlong]
      exact hwalk

end Disk

end LogRef
