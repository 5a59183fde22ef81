import LogRef.Proofs.FileSystem.Resolution

/-!
# Trees with the same ways through them

Files may come and go and change as they like: as long as directories and links stay, a path that led to a file, or to
a place where one can be put, leads to that place.
-/
namespace LogRef

/-- What a path can go through: a directory or a link. -/
def Item.way : Item → Option Item
  | .file _ _ => none
  | item => some item

namespace Destination

/-- The destination if there were no file at its place. -/
def cleared : Destination → Destination
  | occupied place (.file _ _) => free place.dropLast (place.getLastD "")
  | dest => dest

theorem cleared_file (here : Place) (name : String) (data : Bytes) (mode : Nat) :
    (occupied (here ++ [name]) (.file data mode)).cleared = free here name := by
  simp [cleared, List.getLastD_eq_getLast?]

theorem eq_of_cleared {dest : Destination} {place : Place} {item : Item} (h : dest.cleared = occupied place item) :
    dest = occupied place item := by
  cases dest with
  | free parent name => cases h
  | occupied place' item' =>
    cases item' with
    | file data mode => cases h
    | directory mode => exact h
    | link target => exact h

end Destination

/-- The same without the reason why a path leads nowhere. -/
def Stretch.cleared : Stretch → Stretch
  | .arrived dest => .arrived dest.cleared
  | .blocked _ => .blocked .notFound
  | stretch => stretch

namespace FileTree

variable {t t' : FileTree} {q here : Place}

/-- The two trees have the same directories and links. -/
def SameWays (t t' : FileTree) : Prop := ∀ q, (t'.get? q).bind Item.way = (t.get? q).bind Item.way

namespace SameWays

theorem directory (h : t.SameWays t') {mode : Nat} (hq : t.get? q = some (.directory mode)) :
    t'.get? q = some (.directory mode) := by
  have hway := h q
  rw [hq] at hway
  obtain ⟨item, hitem, hway⟩ := Option.bind_eq_some_iff.mp hway
  cases item <;> cases hway
  exact hitem

theorem link (h : t.SameWays t') {target : String} (hq : t.get? q = some (.link target)) :
    t'.get? q = some (.link target) := by
  have hway := h q
  rw [hq] at hway
  obtain ⟨item, hitem, hway⟩ := Option.bind_eq_some_iff.mp hway
  cases item <;> cases hway
  exact hitem

/-- Where there was nothing to go through, there is at most a file. -/
theorem dead_end (h : t.SameWays t') (hq : (t.get? q).bind Item.way = none) :
    t'.get? q = none ∨ ∃ data mode, t'.get? q = some (.file data mode) := by
  have hway := (h q).trans hq
  cases hi : t'.get? q with
  | none => exact .inl rfl
  | some item =>
    rw [hi] at hway
    cases item <;> cases hway
    exact .inr ⟨_, _, rfl⟩

/-- A file that is put where no directory or link is changes no ways. -/
theorem put (hq : (t.get? q).bind Item.way = none) (data : Bytes) (mode : Nat) :
    t.SameWays (t.put q (.file data mode)) := by
  intro r
  by_cases hr : r = q
  · subst hr
    have hne : r ≠ [] := by
      rintro rfl
      cases hq
    rw [get?_put_self hne, hq]
    rfl
  · rw [get?_put_ne hr]

theorem erase {data : Bytes} {mode : Nat} (hq : t.get? q = some (.file data mode)) : t.SameWays (t.erase q) := by
  intro r
  by_cases hr : r = q
  · subst hr
    have hne : r ≠ [] := by
      rintro rfl
      cases hq
    rw [get?_erase_self hne, hq]
    rfl
  · rw [get?_erase_ne hr]

end SameWays

theorem stretch_ways (hw : t.WellFormed) (hhere : t.IsDirectory here) (h : t.SameWays t') (follow : Bool)
    (steps : List String) : (t'.stretch follow here steps).cleared = (t.stretch follow here steps).cleared := by
  induction steps generalizing here with
  | nil =>
    obtain ⟨mode, hget⟩ := hhere
    rw [stretch, stretch, hget, h.directory hget]
  | cons step rest ih =>
    by_cases h1 : step = ".."
    · subst h1
      rw [stretch_up, stretch_up]
      exact ih (hhere.dropLast hw)
    by_cases h2 : nameLimit < step.utf8ByteSize
    · rw [stretch_long h1 h2, stretch_long h1 h2]
    -- with nothing to go through, the path ends here or nowhere, file or not
    have hend {t : FileTree} (ht : t.get? (here ++ [step]) = none ∨
        ∃ data mode, t.get? (here ++ [step]) = some (.file data mode)) :
        (t.stretch follow here (step :: rest)).cleared =
          if rest = [] then .arrived (.free here step) else .blocked .notFound := by
      rcases ht with hnone | ⟨data, mode, hfile⟩
      · rw [stretch_none h1 h2 hnone]
        split <;> rfl
      · rw [stretch_file h1 h2 hfile]
        split
        · rw [Stretch.cleared, Destination.cleared_file]
        · rfl
    cases hi : t.get? (here ++ [step]) with
    | none => rw [hend (.inl hi), hend (h.dead_end (by rw [hi]; rfl))]
    | some item =>
      cases item with
      | file data mode => rw [hend (.inr ⟨_, _, hi⟩), hend (h.dead_end (by rw [hi]; rfl))]
      | link target => rw [stretch_link h1 h2 hi, stretch_link h1 h2 (h.link hi)]
      | directory mode =>
        rw [stretch_directory h1 h2 hi, stretch_directory h1 h2 (h.directory hi)]
        split
        · rfl
        · exact ih ⟨mode, hi⟩

/-- Where a walk ends, in terms of how far it leads up to the first link. -/
theorem walk_cleared (t : FileTree) (follow : Bool) (links : Nat) (here : Place) (steps : List String) :
    (t.walk follow links here steps).toOption.map Destination.cleared =
      match (t.stretch follow here steps).cleared, links with
      | .arrived dest, _ => some dest
      | .blocked _, _ => none
      | .link _ _ _, 0 => none
      | .link origin target rest, more + 1 =>
        (t.walk follow more (originOf origin target) (target.steps ++ rest)).toOption.map Destination.cleared := by
  rw [walk_eq]
  cases t.stretch follow here steps with
  | arrived dest => rfl
  | blocked kind => rfl
  | link origin target rest => cases links <;> rfl

theorem walk_ways (hw : t.WellFormed) (hhere : t.IsDirectory here) (h : t.SameWays t') (follow : Bool) (links : Nat)
    (steps : List String) :
    (t'.walk follow links here steps).toOption.map Destination.cleared =
      (t.walk follow links here steps).toOption.map Destination.cleared := by
  induction links generalizing here steps with
  | zero =>
    rw [walk_cleared, walk_cleared t, stretch_ways hw hhere h]
    cases t.stretch follow here steps <;> rfl
  | succ links ih =>
    rw [walk_cleared, walk_cleared t, stretch_ways hw hhere h]
    cases hs : t.stretch follow here steps with
    | arrived dest => rfl
    | blocked kind => rfl
    | link origin target rest => exact ih (isDirectory_beyond_link hw hhere hs) _

end FileTree

namespace Disk

variable {d d' d'' : Disk} {p : Path} {place : Place} {data : Bytes} {mode : Nat}

/-- The two disks have the same directories and links, and what can be read of one can be read of the other. -/
structure SameWays (d d' : Disk) : Prop where
  current : d'.current = d.current
  unreadable : d'.unreadable = d.unreadable
  tree : d.tree.SameWays d'.tree

section

variable {follow : Bool} {dest : Destination}

/-- There is no file at the top. -/
theorem place_cleared (h : d.locate follow p = .ok dest) : dest.cleared.place = dest.place := by
  cases dest with
  | free parent name => rfl
  | occupied place item =>
    cases item with
    | directory mode => rfl
    | link target => rfl
    | file data mode =>
      have hne : place ≠ [] := by
        rintro rfl
        cases get?_of_locate h (by simp)
      rw [Destination.cleared, Destination.place, List.getLastD_eq_getLast?, List.getLast?_eq_some_getLast hne]
      exact List.dropLast_append_getLast hne

/-- What is at the place of a path tells if the path leads to a file. -/
theorem dest_of_cleared {parent : Place} {name : String} (h : d.locate follow p = .ok dest)
    (hcleared : dest.cleared = .free parent name) :
    dest = (d.tree.get? (parent ++ [name])).elim (.free parent name) (.occupied (parent ++ [name])) := by
  have hplace : parent ++ [name] = dest.place := by rw [← place_cleared h, hcleared, Destination.place]
  rw [hplace]
  cases dest with
  | free parent' name' =>
    cases hcleared
    rw [Destination.place, get?_of_locate_free h, Option.elim_none]
  | occupied q item =>
    cases item with
    | directory mode => cases hcleared
    | link target => cases hcleared
    | file data mode => rw [Destination.place, get?_of_locate h (by simp), Option.elim_some]

theorem exists_cleared {ε : Type} {x y : Except ε Destination}
    (h : x.toOption.map Destination.cleared = y.toOption.map Destination.cleared) (hx : x = .ok dest) :
    ∃ dest', y = .ok dest' ∧ dest'.cleared = dest.cleared := by
  rw [hx] at h
  obtain ⟨dest', hdest, hcleared⟩ := Option.map_eq_some_iff.mp h.symm
  exact ⟨dest', eq_ok_of_toOption hdest, hcleared⟩

end

namespace SameWays

theorem refl (d : Disk) : d.SameWays d := ⟨rfl, rfl, fun _ => rfl⟩

theorem trans (h : d.SameWays d') (h' : d'.SameWays d'') : d.SameWays d'' :=
  ⟨h'.current.trans h.current, h'.unreadable.trans h.unreadable, fun q => (h'.tree q).trans (h.tree q)⟩

theorem withFile (hplace : (d.tree.get? place).bind Item.way = none) (data : Bytes) (mode : Nat) :
    d.SameWays (d.withFile place data mode) := ⟨rfl, rfl, .put hplace data mode⟩

theorem of_write (h : d.write p data = .ok d') : d.SameWays d' := by
  unfold write at h
  split at h
  · next hl =>
    obtain rfl := Except.ok.inj h
    exact .withFile (by rw [get?_of_locate hl (by simp)]; rfl) _ _
  · cases h
  · next hl =>
    obtain rfl := Except.ok.inj h
    exact .withFile (by rw [get?_of_locate_free hl]; rfl) _ _
  · cases h

/-- Removing a path that does not end with a link. -/
theorem of_remove (hp : d.Unlinked p) (h : d.remove p = .ok d') : d.SameWays d' := by
  unfold remove at h
  split at h
  · cases h
  · next place item hitem hl =>
    obtain rfl := Except.ok.inj h
    cases item with
    | directory mode => exact absurd rfl (hitem mode)
    | link target => exact absurd hl (hp place target)
    | file old mode => exact ⟨rfl, rfl, .erase (get?_of_locate hl (by simp))⟩
  · cases h
  · cases h

section

variable (h : d.SameWays d') (hd : d.WellFormed)
include h hd

/-- A path leads to the same place, if there is no file there or if there is one. -/
theorem locate (follow : Bool) (p : Path) :
    (d'.locate follow p).toOption.map Destination.cleared = (d.locate follow p).toOption.map Destination.cleared := by
  unfold Disk.locate origin
  split
  · rfl
  · split
    · rfl
    · rw [h.current]
      exact FileTree.walk_ways hd.tree (FileTree.isDirectory_originOf hd.current p) h.tree _ _ _

theorem names (hp : d'.Names p place) : d.Names p place := by
  obtain ⟨dest, hl, rfl⟩ := hp
  obtain ⟨old, hold, hcleared⟩ := exists_cleared (h.locate hd false p) hl
  refine ⟨old, hold, ?_⟩
  rw [← place_cleared hold, hcleared, place_cleared hl]

theorem unlinked (hp : d.Unlinked p) : d'.Unlinked p := by
  intro place target hl
  obtain ⟨old, hold, hcleared⟩ := exists_cleared (h.locate hd false p) hl
  rw [Destination.eq_of_cleared hcleared] at hold
  exact hp place target hold

/-- A file at the place of a path is what the path leads to. -/
theorem locate_file {follow : Bool} {old : Bytes} {mode' : Nat}
    (hp : d.locate follow p = .ok (.occupied place (.file old mode')))
    (hget : d'.tree.get? place = some (.file data mode)) :
    d'.locate follow p = .ok (.occupied place (.file data mode)) := by
  obtain ⟨dest, hl, hcleared⟩ := exists_cleared (h.locate hd follow p).symm hp
  have hplace := place_cleared hp
  rw [Destination.cleared, Destination.place, Destination.place] at hplace
  rw [hl, dest_of_cleared hl hcleared, hplace, hget, Option.elim_some]

/-- What is read at a path is at its place. -/
theorem get?_of_read (hp : d.Plain p place) (hread : d'.read p = .ok data) :
    place ∉ d.unreadable ∧ ∃ mode, d'.tree.get? place = some (.file data mode) := by
  obtain ⟨_, _, hall⟩ := hp
  obtain ⟨q, mode, hl, hq⟩ := locate_of_read hread
  obtain ⟨old, hold, hcleared⟩ := exists_cleared (h.locate hd true p) hl
  obtain rfl : place = q := by
    rw [hall true] at hold
    cases hold
    have hplace := congrArg Destination.place hcleared
    rwa [place_cleared (hall true), place_cleared hl] at hplace
  exact ⟨h.unreadable ▸ hq, mode, get?_of_locate hl (by simp)⟩

end

end SameWays

end Disk

end LogRef
