import Mathlib.Data.List.Perm.Subperm
import LogRef.Proofs.Discovery.Found

/-!
# Resolving paths

A path that leads somewhere resolves to the place it leads to. Looking up a path counts the links it goes through,
resolving it remembers the links it is inside of. The two agree: were a link met again inside of itself, following it
would take fewer links than following it.
-/
namespace LogRef

namespace FileTree

variable {t : FileTree} {n n' : Nat} {here q q' : Place} {steps rest : List String} {item : Item}

/-- Steps lead from a directory to a place through so many links, each followed to its end before the steps behind
it. -/
inductive Leads (t : FileTree) : Nat → Place → List String → Place → Prop
  | here (here : Place) : Leads t 0 here [] here
  | up {n : Nat} {here q : Place} {rest : List String} (h : Leads t n here.dropLast rest q) :
    Leads t n here (".." :: rest) q
  | step {n : Nat} {here q : Place} {name : String} {rest : List String} (hname : name ≠ "..")
    (hlink : ∀ target, t.get? (here ++ [name]) ≠ some (.link target)) (h : Leads t n (here ++ [name]) rest q) :
    Leads t n here (name :: rest) q
  | link {m n : Nat} {here mid q : Place} {name target : String} {rest : List String} (hname : name ≠ "..")
    (hlink : t.get? (here ++ [name]) = some (.link target))
    (htarget : Leads t m (originOf here (Path.ofString target)) (Path.ofString target).steps mid)
    (h : Leads t n mid rest q) : Leads t (m + n + 1) here (name :: rest) q

namespace Leads

theorem unique (h : Leads t n here steps q) (h' : Leads t n' here steps q') : n = n' ∧ q = q' := by
  induction h generalizing n' q' with
  | here => cases h'; exact ⟨rfl, rfl⟩
  | up _ ih =>
    cases h' with
    | up h' => exact ih h'
    | step hname => exact absurd rfl hname
    | link hname => exact absurd rfl hname
  | step hname hlink _ ih =>
    cases h' with
    | up => exact absurd rfl hname
    | step _ _ h' => exact ih h'
    | link _ hlink' => exact absurd hlink' (hlink _)
  | link hname hlink _ _ ihTarget ih =>
    cases h' with
    | up => exact absurd rfl hname
    | step _ hlink' => exact absurd hlink (hlink' _)
    | link _ hlink' htarget' h' =>
      obtain rfl := Item.link.inj (Option.some.inj (hlink.symm.trans hlink'))
      obtain ⟨rfl, rfl⟩ := ihTarget htarget'
      obtain ⟨rfl, rfl⟩ := ih h'
      exact ⟨rfl, rfl⟩

theorem split (h : Leads t n here (steps ++ rest) q) :
    ∃ m k mid, n = m + k ∧ Leads t m here steps mid ∧ Leads t k mid rest q := by
  induction steps generalizing n here with
  | nil => exact ⟨0, n, here, (Nat.zero_add n).symm, .here here, h⟩
  | cons name steps ih =>
    cases h with
    | up h =>
      obtain ⟨m, k, mid, rfl, hfront, hback⟩ := ih h
      exact ⟨m, k, mid, rfl, .up hfront, hback⟩
    | step hname hlink h =>
      obtain ⟨m, k, mid, rfl, hfront, hback⟩ := ih h
      exact ⟨m, k, mid, rfl, .step hname hlink hfront, hback⟩
    | link hname hlink htarget h =>
      obtain ⟨m, k, mid, rfl, hfront, hback⟩ := ih h
      exact ⟨_, k, mid, by omega, .link hname hlink htarget hfront, hback⟩

end Leads

theorem leads_of_stretch (h : t.stretch true here steps = .arrived (.occupied q item)) : Leads t 0 here steps q := by
  induction steps generalizing here with
  | nil =>
    rw [stretch, Stretch.arrived.injEq, Destination.occupied.injEq] at h
    exact h.1 ▸ .here here
  | cons name rest ih =>
    by_cases h1 : name = ".."
    · subst h1
      rw [stretch_up] at h
      exact .up (ih h)
    · by_cases h2 : nameLimit < name.utf8ByteSize
      · rw [stretch_long h1 h2] at h
        cases h
      · cases hi : t.get? (here ++ [name]) with
        | none =>
          rw [stretch_none h1 h2 hi] at h
          split at h <;> cases h
        | some found =>
          cases found with
          | file data mode =>
            rw [stretch_file h1 h2 hi] at h
            split at h
            · next hrest =>
              cases h
              subst hrest
              exact .step h1 (by simp [hi]) (.here _)
            · cases h
          | directory mode =>
            rw [stretch_directory h1 h2 hi] at h
            refine .step h1 (by simp [hi]) ?_
            split at h
            · next hrest =>
              cases h
              subst hrest
              exact .here _
            · exact ih h
          | link target =>
            rw [stretch_link h1 h2 hi] at h
            split at h
            · next hlast => simp at hlast
            · cases h

theorem leads_of_link {origin : Place} {target : Path} (h : t.stretch true here steps = .link origin target rest)
    (hbehind : Leads t n (originOf origin target) (target.steps ++ rest) q) : Leads t (n + 1) here steps q := by
  induction steps generalizing here with
  | nil => cases h
  | cons name more ih =>
    by_cases h1 : name = ".."
    · subst h1
      rw [stretch_up] at h
      exact .up (ih h)
    · by_cases h2 : nameLimit < name.utf8ByteSize
      · rw [stretch_long h1 h2] at h
        cases h
      · cases hi : t.get? (here ++ [name]) with
        | none =>
          rw [stretch_none h1 h2 hi] at h
          split at h <;> cases h
        | some found =>
          cases found with
          | file data mode =>
            rw [stretch_file h1 h2 hi] at h
            split at h <;> cases h
          | directory mode =>
            rw [stretch_directory h1 h2 hi] at h
            split at h
            · cases h
            · exact .step h1 (by simp [hi]) (ih h)
          | link target =>
            rw [stretch_link h1 h2 hi] at h
            split at h
            · cases h
            · cases h
              obtain ⟨m, k, mid, rfl, htarget, hrest⟩ := hbehind.split
              exact .link h1 hi htarget hrest

/-- A path that leads somewhere does so through a number of links. -/
theorem leads_of_walk {links : Nat} (h : t.walk true links here steps = .ok (.occupied q item)) :
    ∃ n, Leads t n here steps q := by
  induction links generalizing here steps with
  | zero =>
    rw [walk_eq] at h
    cases hs : t.stretch true here steps with
    | arrived dest =>
      rw [hs] at h
      cases h
      exact ⟨0, leads_of_stretch hs⟩
    | blocked kind => rw [hs] at h; cases h
    | link origin target rest => rw [hs] at h; cases h
  | succ links ih =>
    rw [walk_eq] at h
    cases hs : t.stretch true here steps with
    | arrived dest =>
      rw [hs] at h
      cases h
      exact ⟨0, leads_of_stretch hs⟩
    | blocked kind => rw [hs] at h; cases h
    | link origin target rest =>
      rw [hs] at h
      obtain ⟨n, hn⟩ := ih h
      exact ⟨n + 1, leads_of_link hs hn⟩

/-! ## Links inside of links -/

/-- Links that are being followed, to get through so many links more: they are different links, and following one of
them takes no fewer. -/
structure Entered (t : FileTree) (active : List Place) (n : Nat) : Prop where
  nodup : active.Nodup
  items : active ⊆ t.items.map Prod.fst
  cost : ∀ {here name target m q}, here ++ [name] ∈ active → t.get? (here ++ [name]) = some (.link target) →
    Leads t m (originOf here (Path.ofString target)) (Path.ofString target).steps q → n ≤ m

namespace Entered

variable {active : List Place}

theorem none_ (t : FileTree) (n : Nat) : Entered t [] n :=
  ⟨List.nodup_nil, List.nil_subset _, fun h => (List.not_mem_nil h).elim⟩

theorem mono (h : Entered t active n) (hle : n' ≤ n) : Entered t active n' :=
  ⟨h.nodup, h.items, fun hmem hlink hleads => Nat.le_trans hle (h.cost hmem hlink hleads)⟩

/-- A link that leads somewhere is not inside of itself. -/
theorem not_mem (h : Entered t active n) {name target : String} {m : Nat}
    (hlink : t.get? (here ++ [name]) = some (.link target))
    (hleads : Leads t m (originOf here (Path.ofString target)) (Path.ofString target).steps q) (hm : m < n) :
    here ++ [name] ∉ active :=
  fun hmem => by have := h.cost hmem hlink hleads; omega

theorem cons (h : Entered t active n) {name target : String} {m : Nat}
    (hlink : t.get? (here ++ [name]) = some (.link target))
    (hleads : Leads t m (originOf here (Path.ofString target)) (Path.ofString target).steps q) (hm : m < n) :
    Entered t ((here ++ [name]) :: active) m where
  nodup := List.nodup_cons.mpr ⟨h.not_mem hlink hleads hm, h.nodup⟩
  items := List.cons_subset.mpr ⟨List.mem_map.mpr ⟨_, mem_of_get? (by simp) hlink, rfl⟩, h.items⟩
  cost {here' name' target' m' q'} hmem hlink' hleads' := by
    rcases List.mem_cons.mp hmem with heq | hmem
    · obtain ⟨rfl, rfl⟩ := List.concat_inj.mp (by simpa using heq)
      obtain rfl := Item.link.inj (Option.some.inj (hlink.symm.trans hlink'))
      exact Nat.le_of_eq (hleads.unique hleads').1
    · exact Nat.le_trans (Nat.le_of_lt hm) (h.cost hmem hlink' hleads')

theorem length_le (h : Entered t active n) : active.length ≤ t.items.length := by
  simpa using (h.nodup.subperm h.items).length_le

end Entered

/-- How the target of one more link is resolved. -/
def resolveInner (t : FileTree) : Nat → List Place → Place → List String → Except Place Place
  | 0 => fun _ here steps => .error (here ++ steps)
  | depth + 1 => t.resolveFrom depth

theorem resolveFrom_eq (t : FileTree) (depth : Nat) :
    t.resolveFrom depth = t.resolveSteps (t.resolveInner depth) := by
  cases depth <;> rfl

/-- Steps that lead somewhere are resolved, if as many links may be inside each other as there are items. -/
theorem resolveFrom_of_leads (h : Leads t n here steps q) {depth : Nat} {active : List Place}
    (hactive : Entered t active n) (hdepth : t.items.length ≤ depth + active.length) :
    t.resolveFrom depth active here steps = .ok q := by
  induction h generalizing depth active with
  | here => rw [resolveFrom_eq]; rfl
  | up _ ih =>
    have hrest := ih hactive hdepth
    rw [resolveFrom_eq] at hrest ⊢
    rw [resolveSteps, if_pos rfl, hrest]
  | step hname hlink _ ih =>
    have hrest := ih hactive hdepth
    rw [resolveFrom_eq] at hrest ⊢
    rw [resolveSteps, if_neg hname]
    split
    · next target hi => exact absurd hi (hlink target)
    · exact hrest
  | @link m n here mid q name target rest hname hlink htarget _ ihTarget ih =>
    have hfresh := hactive.not_mem hlink htarget (by omega)
    have hinside := hactive.cons hlink htarget (by omega)
    have hroom := hinside.length_le
    rw [List.length_cons] at hroom
    obtain ⟨depth, rfl⟩ : ∃ more, depth = more + 1 := ⟨depth - 1, by omega⟩
    have hmid : t.resolveFrom depth ((here ++ [name]) :: active) (originOf here (Path.ofString target))
        (Path.ofString target).steps = .ok mid := ihTarget hinside (by rw [List.length_cons]; omega)
    have hrest := ih (hactive.mono (by omega)) hdepth
    rw [resolveFrom_eq] at hrest ⊢
    rw [resolveSteps, if_neg hname, hlink]
    simp only [List.contains_eq_mem, hfresh, decide_false, Bool.false_eq_true, if_false, resolveInner, hmid]
    exact hrest

/-! ## Directories on the way -/

/-- A directory is at the place. -/
def IsDirectory (t : FileTree) (place : Place) : Prop := ∃ mode, t.get? place = some (.directory mode)

theorem isDirectory_top (t : FileTree) : t.IsDirectory [] := ⟨0o755, rfl⟩

theorem isDirectory_originOf (h : t.IsDirectory here) (p : Path) : t.IsDirectory (originOf here p) := by
  unfold originOf
  split
  · exact t.isDirectory_top
  · exact h

theorem IsDirectory.dropLast (h : t.IsDirectory here) (hw : t.WellFormed) : t.IsDirectory here.dropLast := by
  obtain ⟨mode, hget⟩ := h
  by_cases hhere : here = []
  · exact hhere ▸ t.isDirectory_top
  · rw [← List.dropLast_append_getLast hhere] at hget
    exact hw.directory_above (List.cons_ne_nil _ _) hget

/-- Steps from a directory that meet no link end at what is there, which is no link. -/
theorem get?_of_stretch_directory (hw : t.WellFormed) (hhere : t.IsDirectory here)
    (h : t.stretch true here steps = .arrived (.occupied q item)) :
    t.get? q = some item ∧ ∀ target, item ≠ .link target := by
  induction steps generalizing here with
  | nil =>
    obtain ⟨mode, hget⟩ := hhere
    rw [stretch, hget] at h
    cases h
    exact ⟨hget, fun target => by simp⟩
  | cons name rest ih =>
    by_cases h1 : name = ".."
    · subst h1
      rw [stretch_up] at h
      exact ih (hhere.dropLast hw) h
    · by_cases h2 : nameLimit < name.utf8ByteSize
      · rw [stretch_long h1 h2] at h
        cases h
      · cases hi : t.get? (here ++ [name]) with
        | none =>
          rw [stretch_none h1 h2 hi] at h
          split at h <;> cases h
        | some found =>
          cases found with
          | file data mode =>
            rw [stretch_file h1 h2 hi] at h
            split at h <;> cases h
            exact ⟨hi, fun target => by simp⟩
          | directory mode =>
            rw [stretch_directory h1 h2 hi] at h
            split at h
            · cases h
              exact ⟨hi, fun target => by simp⟩
            · exact ih ⟨mode, hi⟩ h
          | link target =>
            rw [stretch_link h1 h2 hi] at h
            split at h
            · next hlast => simp at hlast
            · cases h

theorem isDirectory_of_link (hw : t.WellFormed) {origin : Place} {target : Path} (hhere : t.IsDirectory here)
    (h : t.stretch true here steps = .link origin target rest) : t.IsDirectory origin := by
  induction steps generalizing here with
  | nil => cases h
  | cons name more ih =>
    by_cases h1 : name = ".."
    · subst h1
      rw [stretch_up] at h
      exact ih (hhere.dropLast hw) h
    · by_cases h2 : nameLimit < name.utf8ByteSize
      · rw [stretch_long h1 h2] at h
        cases h
      · cases hi : t.get? (here ++ [name]) with
        | none =>
          rw [stretch_none h1 h2 hi] at h
          split at h <;> cases h
        | some found =>
          cases found with
          | file data mode =>
            rw [stretch_file h1 h2 hi] at h
            split at h <;> cases h
          | directory mode =>
            rw [stretch_directory h1 h2 hi] at h
            split at h
            · cases h
            · exact ih ⟨mode, hi⟩ h
          | link target =>
            rw [stretch_link h1 h2 hi] at h
            split at h
            · cases h
            · cases h
              exact hhere

/-- A link that is not at the end of a path is followed in any case. -/
theorem stretch_link_followed {origin : Place} {target : Path}
    (h : t.stretch false here steps = .link origin target rest) :
    t.stretch true here steps = .link origin target rest := by
  rcases stretch_follow t here steps with heq | ⟨_, _, _, hlast, _⟩
  · exact heq.trans h
  · rw [h] at hlast
    cases hlast

theorem isDirectory_beyond_link (hw : t.WellFormed) {origin : Place} {target : Path} (hhere : t.IsDirectory here)
    (h : t.stretch follow here steps = .link origin target rest) : t.IsDirectory (originOf origin target) := by
  refine isDirectory_originOf ?_ target
  cases follow with
  | true => exact isDirectory_of_link hw hhere h
  | false => exact isDirectory_of_link hw hhere (stretch_link_followed h)

/-- What a path leads to is at its place, and is no link. -/
theorem get?_of_walk (hw : t.WellFormed) {links : Nat} (hhere : t.IsDirectory here)
    (h : t.walk true links here steps = .ok (.occupied q item)) :
    t.get? q = some item ∧ ∀ target, item ≠ .link target := by
  induction links generalizing here steps with
  | zero =>
    rw [walk_eq] at h
    cases hs : t.stretch true here steps with
    | arrived dest =>
      rw [hs] at h
      cases h
      exact get?_of_stretch_directory hw hhere hs
    | blocked kind => rw [hs] at h; cases h
    | link origin target rest => rw [hs] at h; cases h
  | succ links ih =>
    rw [walk_eq] at h
    cases hs : t.stretch true here steps with
    | arrived dest =>
      rw [hs] at h
      cases h
      exact get?_of_stretch_directory hw hhere hs
    | blocked kind => rw [hs] at h; cases h
    | link origin target rest =>
      rw [hs] at h
      exact ih (isDirectory_originOf (isDirectory_of_link hw hhere hs) target) h

/-- The way from the top to an item meets no link before it. -/
theorem WellFormed.walk_place (hw : t.WellFormed) (hget : t.get? q = some item) (hitem : ∀ target, item ≠ .link target)
    (links : Nat) :
    t.walk true links [] q = .ok (.occupied q item) ∨ t.walk true links [] q = .error .nameTooLong := by
  have hfollow := t.stretch_follow [] q
  by_cases hq : q = []
  · subst hq
    rw [walk_eq, stretch, hget]
    exact .inl rfl
  · have hbelow : t.get? ([] ++ q) = some item := hget
    rcases hw.stretch_below hq hbelow with hs | hs
    · rw [hs] at hfollow
      rcases hfollow with heq | ⟨_, _, target, hlink, _⟩
      · exact .inl (by rw [walk_eq, heq]; rfl)
      · cases hlink
        exact absurd rfl (hitem target)
    · rw [hs] at hfollow
      rcases hfollow with heq | ⟨_, _, _, hlink, _⟩
      · exact .inr (by rw [walk_eq, heq])
      · cases hlink

end FileTree

namespace Disk

variable {d : Disk} {p : Path} {place : Place} {item : Item}

/-- A disk as there can be one: its tree is in order, and the current directory is one. -/
structure WellFormed (d : Disk) : Prop where
  tree : d.tree.WellFormed
  current : d.tree.IsDirectory d.current

theorem hasNull_of_locate {follow : Bool} {dest : Destination} (h : d.locate follow p = .ok dest) :
    p.hasNull = false := by
  cases hn : p.hasNull with
  | false => rfl
  | true => rw [locate, if_pos hn] at h; cases h

/-- A path that leads somewhere resolves to the place it leads to. -/
theorem resolve_of_locate (hd : d.WellFormed) (h : d.locate true p = .ok (.occupied place item)) :
    d.resolve p = .ok ⟨.single, place⟩ := by
  have hwalk := walk_of_locate h
  obtain ⟨n, hleads⟩ := FileTree.leads_of_walk hwalk
  have hresolved : d.tree.resolveFrom d.tree.items.length [] (d.origin p) p.steps = .ok place :=
    FileTree.resolveFrom_of_leads hleads (.none_ _ _) (Nat.le_add_right _ _)
  obtain ⟨hget, hitem⟩ := FileTree.get?_of_walk hd.tree (FileTree.isDirectory_originOf hd.current p) hwalk
  have hagain : d.locate true ⟨.single, place⟩ ≠ .error .tooManyLinks := by
    rw [locate]
    split
    · simp
    · split
      · simp
      · rcases hd.tree.walk_place hget hitem FileTree.linkLimit with hw | hw
        · exact fun hloop => by cases hw.symm.trans hloop
        · exact fun hloop => by cases hw.symm.trans hloop
  rw [resolve, if_neg (by simp [hasNull_of_locate h]), hresolved]
  dsimp only
  split
  · next hloop => exact absurd hloop hagain
  · rfl

end Disk

end LogRef
