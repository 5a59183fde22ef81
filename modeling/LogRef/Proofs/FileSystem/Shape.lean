import LogRef.Proofs.Run.Staging

/-!
# Trees that differ in contents only

New contents for a file change nothing of where paths lead: two trees with the same items, the contents of files
aside, are walked in the same way. Nor does it matter for other places what is written at one or taken away.
-/
namespace LogRef

/-- An item without the contents of a file. -/
def Item.bare : Item → Item
  | .file _ mode => .file [] mode
  | item => item

def Destination.bare : Destination → Destination
  | .occupied place item => .occupied place item.bare
  | .free parent name => .free parent name

def Stretch.bare : Stretch → Stretch
  | .arrived d => .arrived d.bare
  | stretch => stretch

namespace FileTree

variable {t t' : FileTree} {place q : Place} {item : Item} {follow : Bool} {links : Nat} {here : Place}
  {steps : List String}

/-- The two trees differ in the contents of files only. -/
def Like (t t' : FileTree) : Prop := ∀ q, (t.get? q).map Item.bare = (t'.get? q).map Item.bare

theorem Like.refl (t : FileTree) : t.Like t := fun _ => rfl

theorem Like.trans {t'' : FileTree} (h : t.Like t') (h' : t'.Like t'') : t.Like t'' :=
  fun q => (h q).trans (h' q)

theorem Item.bare_eq_file {mode : Nat} {data : Bytes} (h : item.bare = (Item.file data mode).bare) :
    ∃ data', item = .file data' mode := by
  cases item with
  | file data' mode' =>
    simp only [Item.bare, Item.file.injEq, true_and] at h
    exact ⟨data', by rw [h]⟩
  | directory mode' => cases h
  | link target => cases h

/-- New contents for a file. -/
theorem like_put {old new : Bytes} {mode : Nat} (h : t.get? place = some (.file old mode)) :
    t.Like (t.put place (.file new mode)) := by
  intro q
  by_cases hq : q = place
  · subst hq
    have hne : q ≠ [] := by
      rintro rfl
      cases h
    rw [h, get?_put_self hne]
    rfl
  · rw [get?_put_ne hq]

theorem stretch_like (h : t.Like t') (follow : Bool) (here : Place) (steps : List String) :
    (t'.stretch follow here steps).bare = (t.stretch follow here steps).bare := by
  induction steps generalizing here with
  | nil =>
    have hrel := h here
    rw [stretch, stretch]
    cases hi : t.get? here with
    | none =>
      rw [hi, Option.map_none, eq_comm, Option.map_eq_none_iff] at hrel
      rw [hrel]
    | some item =>
      rw [hi, Option.map_some] at hrel
      obtain ⟨item', hi', hbare⟩ := Option.map_eq_some_iff.mp hrel.symm
      rw [hi']
      simp only [Option.getD_some, Stretch.bare, Destination.bare, hbare]
  | cons step rest ih =>
    by_cases h1 : step = ".."
    · subst h1
      rw [stretch_up, stretch_up]
      exact ih _
    · by_cases h2 : nameLimit < step.utf8ByteSize
      · rw [stretch_long h1 h2, stretch_long h1 h2]
      · have hrel := h (here ++ [step])
        cases hi : t.get? (here ++ [step]) with
        | none =>
          rw [hi, Option.map_none, eq_comm, Option.map_eq_none_iff] at hrel
          rw [stretch_none h1 h2 hi, stretch_none h1 h2 hrel]
        | some item =>
          rw [hi, Option.map_some] at hrel
          obtain ⟨item', hi', hbare⟩ := Option.map_eq_some_iff.mp hrel.symm
          cases item with
          | file data mode =>
            obtain ⟨data', rfl⟩ := Item.bare_eq_file hbare
            rw [stretch_file h1 h2 hi, stretch_file h1 h2 hi']
            split <;> rfl
          | directory mode =>
            obtain rfl : item' = .directory mode := by
              cases item' with
              | directory mode' => exact hbare
              | file data mode' => cases hbare
              | link target => cases hbare
            rw [stretch_directory h1 h2 hi, stretch_directory h1 h2 hi']
            split
            · rfl
            · exact ih _
          | link target =>
            obtain rfl : item' = .link target := by
              cases item' with
              | directory mode' => cases hbare
              | file data mode' => cases hbare
              | link target' => exact hbare
            rw [stretch_link h1 h2 hi, stretch_link h1 h2 hi']

theorem walk_like (h : t.Like t') (follow : Bool) (links : Nat) (here : Place) (steps : List String) :
    (t'.walk follow links here steps).map Destination.bare =
      (t.walk follow links here steps).map Destination.bare := by
  induction links generalizing here steps with
  | zero =>
    have hs := stretch_like h follow here steps
    rw [walk_eq, walk_eq]
    cases ht : t.stretch follow here steps <;> cases ht' : t'.stretch follow here steps <;>
      rw [ht, ht'] at hs <;> simp only [Stretch.bare, reduceCtorEq, Stretch.arrived.injEq] at hs
    · exact congrArg Except.ok hs
    · rw [Stretch.blocked.injEq] at hs
      rw [hs]
  | succ links ih =>
    have hs := stretch_like h follow here steps
    rw [walk_eq, walk_eq]
    cases ht : t.stretch follow here steps <;> cases ht' : t'.stretch follow here steps <;>
      rw [ht, ht'] at hs <;> simp only [Stretch.bare, reduceCtorEq, Stretch.arrived.injEq] at hs
    · exact congrArg Except.ok hs
    · rw [Stretch.blocked.injEq] at hs
      rw [hs]
    · rw [Stretch.link.injEq] at hs
      obtain ⟨rfl, rfl, rfl⟩ := hs
      exact ih _ _

/-- A path that leads to a file or a link leads to what is at the place. -/
theorem get?_of_stretch (h : t.stretch follow here steps = .arrived (.occupied q item))
    (hitem : ∀ mode, item ≠ .directory mode) : t.get? q = some item := by
  induction steps generalizing here with
  | nil =>
    rw [stretch, Stretch.arrived.injEq, Destination.occupied.injEq] at h
    obtain ⟨rfl, h⟩ := h
    cases hi : t.get? here with
    | none => rw [hi] at h; exact absurd h.symm (hitem _)
    | some other => rw [hi] at h; rw [← h]; rfl
  | cons step rest ih =>
    by_cases h1 : step = ".."
    · subst h1
      rw [stretch_up] at h
      exact ih h
    · by_cases h2 : nameLimit < step.utf8ByteSize
      · rw [stretch_long h1 h2] at h
        cases h
      · cases hi : t.get? (here ++ [step]) with
        | none =>
          rw [stretch_none h1 h2 hi] at h
          split at h <;> cases h
        | some other =>
          cases other with
          | file data mode =>
            rw [stretch_file h1 h2 hi] at h
            split at h
            · cases h; exact hi
            · cases h
          | directory mode =>
            rw [stretch_directory h1 h2 hi] at h
            split at h
            · cases h; exact hi
            · exact ih h
          | link target =>
            rw [stretch_link h1 h2 hi] at h
            split at h
            · cases h; exact hi
            · cases h

/-- A free place has nothing at it. -/
theorem get?_of_stretch_free {parent : Place} {name : String}
    (h : t.stretch follow here steps = .arrived (.free parent name)) : t.get? (parent ++ [name]) = none := by
  induction steps generalizing here with
  | nil => cases h
  | cons step rest ih =>
    by_cases h1 : step = ".."
    · subst h1
      rw [stretch_up] at h
      exact ih h
    · by_cases h2 : nameLimit < step.utf8ByteSize
      · rw [stretch_long h1 h2] at h
        cases h
      · cases hi : t.get? (here ++ [step]) with
        | none =>
          rw [stretch_none h1 h2 hi] at h
          split at h
          · cases h; exact hi
          · cases h
        | some other =>
          cases other with
          | file data mode =>
            rw [stretch_file h1 h2 hi] at h
            split at h <;> cases h
          | directory mode =>
            rw [stretch_directory h1 h2 hi] at h
            split at h
            · cases h
            · exact ih h
          | link target =>
            rw [stretch_link h1 h2 hi] at h
            split at h <;> cases h

/-- The last stretch of a walk arrives where the walk does. -/
theorem arrived_of_walk {d : Destination} (h : t.walk follow links here steps = .ok d) :
    ∃ here' steps', t.stretch follow here' steps' = .arrived d := by
  induction links generalizing here steps with
  | zero =>
    rw [walk_eq] at h
    cases hs : t.stretch follow here steps with
    | arrived d => rw [hs] at h; cases h; exact ⟨here, steps, hs⟩
    | blocked kind => rw [hs] at h; cases h
    | link origin target rest => rw [hs] at h; cases h
  | succ links ih =>
    rw [walk_eq] at h
    cases hs : t.stretch follow here steps with
    | arrived d => rw [hs] at h; cases h; exact ⟨here, steps, hs⟩
    | blocked kind => rw [hs] at h; cases h
    | link origin target rest => rw [hs] at h; exact ih h

theorem get?_erase_ne (h : q ≠ place) : (t.erase place).get? q = t.get? q := by
  rw [get?, get?]
  by_cases hq : q = []
  · rw [if_pos hq, if_pos hq]
  · rw [if_neg hq, if_neg hq, erase]
    generalize t.items = items
    induction items with
    | nil => rfl
    | cons e items ih =>
      rw [List.filter_cons, List.lookup_cons]
      by_cases he : e.1 = place
      · have hqe : (q == e.1) = false := beq_eq_false_iff_ne.mpr (he.symm ▸ h)
        have hkeep : (e.1 != place) = false := by simpa using he
        rw [hkeep, hqe]
        exact ih
      · have hkeep : (e.1 != place) = true := by simpa using he
        rw [if_pos hkeep, List.lookup_cons, ih]

theorem get?_erase_self (h : place ≠ []) : (t.erase place).get? place = none := by
  rw [get?, if_neg h, erase, List.lookup_eq_none_iff]
  intro e he
  have hne := (List.mem_filter.mp he).2
  rw [bne_iff_ne] at hne ⊢
  exact Ne.symm hne

end FileTree

namespace Disk

variable {d d' : Disk} {p : Path} {place q : Place} {item : Item} {follow : Bool} {dest : Destination}

/-- The two disks differ in the contents of files only. -/
structure Like (d d' : Disk) : Prop where
  current : d'.current = d.current
  unreadable : d'.unreadable = d.unreadable
  tree : d.tree.Like d'.tree

theorem Like.refl (d : Disk) : d.Like d := ⟨rfl, rfl, .refl _⟩

theorem Like.trans {d'' : Disk} (h : d.Like d') (h' : d'.Like d'') : d.Like d'' :=
  ⟨h'.current.trans h.current, h'.unreadable.trans h.unreadable, h.tree.trans h'.tree⟩

theorem get?_of_locate (h : d.locate follow p = .ok (.occupied q item))
    (hitem : ∀ mode, item ≠ .directory mode) : d.tree.get? q = some item := by
  obtain ⟨_, _, hs⟩ := FileTree.arrived_of_walk (walk_of_locate h)
  exact FileTree.get?_of_stretch hs hitem

theorem get?_of_locate_free {parent : Place} {name : String}
    (h : d.locate follow p = .ok (.free parent name)) : d.tree.get? (parent ++ [name]) = none := by
  obtain ⟨_, _, hs⟩ := FileTree.arrived_of_walk (walk_of_locate h)
  exact FileTree.get?_of_stretch_free hs

theorem locate_like (h : d.Like d') (follow : Bool) (p : Path) :
    (d'.locate follow p).map Destination.bare = (d.locate follow p).map Destination.bare := by
  unfold locate origin
  split
  · rfl
  · split
    · rfl
    · rw [h.current]
      exact FileTree.walk_like h.tree _ _ _ _

/-- A path leads where it led before contents changed; if that is a file, its contents may be others. -/
theorem locate_alike (h : d.Like d') (follow : Bool) (p : Path) :
    d'.locate follow p = d.locate follow p ∨ ∃ place data data' mode,
      d.locate follow p = .ok (.occupied place (.file data mode)) ∧
        d'.locate follow p = .ok (.occupied place (.file data' mode)) := by
  have hrel := locate_like h follow p
  cases hd : d.locate follow p with
  | error kind =>
    cases hd' : d'.locate follow p with
    | error kind' => rw [hd, hd'] at hrel; cases hrel; exact .inl rfl
    | ok dest' => rw [hd, hd'] at hrel; cases hrel
  | ok dest =>
    cases hd' : d'.locate follow p with
    | error kind' => rw [hd, hd'] at hrel; cases hrel
    | ok dest' =>
      rw [hd, hd'] at hrel
      have hbare : dest'.bare = dest.bare := Except.ok.inj hrel
      cases dest with
      | free parent name =>
        cases dest' with
        | free parent' name' => cases hbare; exact .inl rfl
        | occupied place' item' => cases hbare
      | occupied place item =>
        cases dest' with
        | free parent' name' => cases hbare
        | occupied place' item' =>
          obtain ⟨rfl, hitem⟩ := Destination.occupied.inj hbare
          cases item with
          | file data mode =>
            obtain ⟨data', rfl⟩ := FileTree.Item.bare_eq_file hitem
            exact .inr ⟨place', data, data', mode, rfl, rfl⟩
          | directory mode => cases item' <;> cases hitem; exact .inl rfl
          | link target => cases item' <;> cases hitem; exact .inl rfl

theorem locate_file_like (h : d.Like d') {data : Bytes} {mode : Nat}
    (hl : d.locate follow p = .ok (.occupied place (.file data mode))) :
    ∃ data', d'.locate follow p = .ok (.occupied place (.file data' mode)) := by
  rcases locate_alike h follow p with heq | ⟨place', old, new, mode', hold, hnew⟩
  · exact ⟨data, heq.trans hl⟩
  · rw [hold] at hl
    cases hl
    exact ⟨new, hnew⟩

/-- The path leads to the file at a place, and there is no link at its end. -/
def Plain (d : Disk) (p : Path) (place : Place) : Prop :=
  ∃ data mode, ∀ follow, d.locate follow p = .ok (.occupied place (.file data mode))

namespace Plain

theorem get? (h : d.Plain p place) : ∃ data mode, d.tree.get? place = some (.file data mode) ∧
    d.read p = if place ∈ d.unreadable then failure .deviceFailed p else .ok data := by
  obtain ⟨data, mode, hall⟩ := h
  refine ⟨data, mode, get?_of_locate (hall true) fun _ => by simp, ?_⟩
  rw [read, hall]

theorem of_read {data : Bytes} (h : d.Plain p place) (hread : d.read p = .ok data) :
    place ∉ d.unreadable ∧ ∃ mode, d.tree.get? place = some (.file data mode) := by
  obtain ⟨old, mode, hget, hold⟩ := h.get?
  rw [hread] at hold
  split at hold
  · cases hold
  · next hreadable =>
    cases hold
    exact ⟨hreadable, mode, hget⟩

theorem like (h : d.Plain p place) (hd : d.Like d') : d'.Plain p place := by
  obtain ⟨data, mode, hall⟩ := h
  obtain ⟨data', htrue⟩ := locate_file_like hd (hall true)
  obtain ⟨data'', hfalse⟩ := locate_file_like hd (hall false)
  have hget := get?_of_locate htrue fun _ => by simp
  have hget' := get?_of_locate hfalse fun _ => by simp
  obtain ⟨rfl, _⟩ := Item.file.inj (Option.some.inj (hget.symm.trans hget'))
  exact ⟨data', mode, fun follow => by cases follow <;> assumption⟩

/-- What a plain path leads to is what a staged file takes the place of. -/
theorem leadsToFile (h : d.Plain p place) :
    ∃ mode data, d.tree.get? place = some (.file data mode) ∧ d.LeadsToFile p place mode := by
  obtain ⟨data, mode, hall⟩ := h
  exact ⟨mode, data, get?_of_locate (hall true) fun _ => by simp, ⟨place, data, hall true⟩, _, hall false,
    fun _ => by simp⟩

end Plain

/-- New contents in place of a plain file. -/
theorem like_withFile {old new : Bytes} {mode : Nat} (h : d.tree.get? place = some (.file old mode)) :
    d.Like (d.withFile place new mode) := ⟨rfl, rfl, FileTree.like_put h⟩

theorem locate_of_isFile (h : d.isFile p = .ok true) :
    ∃ place data mode, d.locate true p = .ok (.occupied place (.file data mode)) := by
  unfold isFile item? at h
  cases hd : d.locate true p with
  | error kind =>
    rw [hd] at h
    cases hk : kind.isAbsence <;> simp only [hk] at h <;> cases h
  | ok dest =>
    rw [hd] at h
    cases dest with
    | free parent name => cases h
    | occupied place item =>
      cases item with
      | file data mode => exact ⟨place, data, mode, rfl⟩
      | directory mode => cases h
      | link target => cases h

end Disk

end LogRef
