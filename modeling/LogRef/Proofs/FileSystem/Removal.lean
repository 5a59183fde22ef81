import LogRef.Proofs.FileSystem.Shape

/-!
# Taking things away

A path leads to no file once what it led to is taken away, link or file.
-/
namespace LogRef

/-- A stretch that does not lead to a file. -/
inductive Stretch.Gone : Stretch → Prop
  | free (parent : Place) (name : String) : Gone (.arrived (.free parent name))
  | missing : Gone (.blocked .notFound)
  | directory (place : Place) (mode : Nat) : Gone (.arrived (.occupied place (.directory mode)))

namespace FileTree

variable {t : FileTree} {q : Place} {item : Item} {follow : Bool} {links : Nat} {here : Place} {steps : List String}

theorem gone_of_none {step : String} {rest : List String} (h1 : step ≠ "..")
    (h2 : ¬ nameLimit < step.utf8ByteSize) (h : t.get? (here ++ [step]) = none) :
    (t.stretch follow here (step :: rest)).Gone := by
  rw [stretch_none h1 h2 h]
  split
  · exact .free here step
  · exact .missing

/-- A way that meets the place it led to is cut off there. -/
theorem stretch_erase_end (hq : q ≠ []) (h : t.stretch false here steps = .arrived (.occupied q item))
    (hitem : ∀ mode, item ≠ .directory mode) : ((t.erase q).stretch true here steps).Gone := by
  induction steps generalizing here with
  | nil =>
    rw [stretch, Stretch.arrived.injEq, Destination.occupied.injEq] at h
    obtain ⟨rfl, _⟩ := h
    rw [stretch, get?_erase_self hq]
    exact .directory _ _
  | cons step rest ih =>
    by_cases h1 : step = ".."
    · subst h1
      rw [stretch_up] at h ⊢
      exact ih h
    · by_cases h2 : nameLimit < step.utf8ByteSize
      · rw [stretch_long h1 h2] at h
        cases h
      · by_cases hhere : here ++ [step] = q
        · exact gone_of_none h1 h2 (hhere ▸ get?_erase_self (hhere ▸ hq))
        · have hsame := get?_erase_ne (t := t) hhere
          cases hi : t.get? (here ++ [step]) with
          | none =>
            rw [stretch_none h1 h2 hi] at h
            split at h <;> cases h
          | some other =>
            cases other with
            | file data mode =>
              rw [stretch_file h1 h2 hi] at h
              split at h
              · cases h; exact absurd rfl hhere
              · cases h
            | directory mode =>
              rw [stretch_directory h1 h2 hi] at h
              rw [stretch_directory h1 h2 (hsame.trans hi)]
              split at h
              · cases h; exact absurd rfl (hitem mode)
              · next hrest =>
                rw [if_neg hrest]
                exact ih h
            | link target =>
              rw [stretch_link h1 h2 hi] at h
              split at h
              · cases h; exact absurd rfl hhere
              · cases h

/-- A way up to a link is the same, or it is cut off. -/
theorem stretch_erase_link {origin : Place} {target : Path} {more : List String} (hq : q ≠ [])
    (h : t.stretch false here steps = .link origin target more) :
    (t.erase q).stretch true here steps = .link origin target more ∨
      ((t.erase q).stretch true here steps).Gone := by
  induction steps generalizing here with
  | nil => cases h
  | cons step rest ih =>
    by_cases h1 : step = ".."
    · subst h1
      rw [stretch_up] at h ⊢
      exact ih h
    · by_cases h2 : nameLimit < step.utf8ByteSize
      · rw [stretch_long h1 h2] at h
        cases h
      · by_cases hhere : here ++ [step] = q
        · exact .inr (gone_of_none h1 h2 (hhere ▸ get?_erase_self (hhere ▸ hq)))
        · have hsame := get?_erase_ne (t := t) hhere
          cases hi : t.get? (here ++ [step]) with
          | none =>
            rw [stretch_none h1 h2 hi] at h
            split at h <;> cases h
          | some other =>
            cases other with
            | file data mode =>
              rw [stretch_file h1 h2 hi] at h
              split at h <;> cases h
            | directory mode =>
              rw [stretch_directory h1 h2 hi] at h
              rw [stretch_directory h1 h2 (hsame.trans hi)]
              split at h
              · cases h
              · next hrest =>
                rw [if_neg hrest]
                exact ih h
            | link target =>
              rw [stretch_link h1 h2 hi] at h
              split at h
              · cases h
              · cases h
                refine .inl ?_
                rw [stretch_link h1 h2 (hsame.trans hi), Bool.not_true, Bool.and_false, if_neg Bool.false_ne_true]

theorem walk_of_gone (h : (t.stretch follow here steps).Gone) :
    (∃ parent name, t.walk follow links here steps = .ok (.free parent name)) ∨
      t.walk follow links here steps = .error .notFound ∨
      ∃ place mode, t.walk follow links here steps = .ok (.occupied place (.directory mode)) := by
  rw [walk_eq]
  cases hs : t.stretch follow here steps with
  | arrived dest =>
    rw [hs] at h
    cases h with
    | free parent name => exact .inl ⟨parent, name, rfl⟩
    | directory place mode => exact .inr (.inr ⟨place, mode, rfl⟩)
  | blocked kind =>
    rw [hs] at h
    cases h
    exact .inr (.inl rfl)
  | link origin target rest => rw [hs] at h; cases h

theorem walk_erase (hq : q ≠ []) (h : t.walk false links here steps = .ok (.occupied q item))
    (hitem : ∀ mode, item ≠ .directory mode) :
    (∃ parent name, (t.erase q).walk true links here steps = .ok (.free parent name)) ∨
      (t.erase q).walk true links here steps = .error .notFound ∨
      ∃ place mode, (t.erase q).walk true links here steps = .ok (.occupied place (.directory mode)) := by
  induction links generalizing here steps with
  | zero =>
    rw [walk_eq] at h
    cases hs : t.stretch false here steps with
    | blocked kind => rw [hs] at h; cases h
    | link origin target rest => rw [hs] at h; cases h
    | arrived dest =>
      rw [hs] at h
      cases h
      exact walk_of_gone (stretch_erase_end hq hs hitem)
  | succ links ih =>
    rw [walk_eq] at h
    cases hs : t.stretch false here steps with
    | blocked kind => rw [hs] at h; cases h
    | arrived dest =>
      rw [hs] at h
      cases h
      exact walk_of_gone (stretch_erase_end hq hs hitem)
    | link origin target rest =>
      rw [hs] at h
      rcases stretch_erase_link hq hs with hlink | hgone
      · rw [walk_eq, hlink]
        exact ih h
      · exact walk_of_gone hgone

theorem stretch_ne_null (t : FileTree) (follow : Bool) (here : Place) (steps : List String) :
    t.stretch follow here steps ≠ .blocked .nullCharacter := by
  induction steps generalizing here with
  | nil => simp [stretch]
  | cons step rest ih =>
    rw [stretch]
    split
    · exact ih _
    · split
      · simp
      · split <;> split <;> simp [ih]

theorem walk_ne_null (t : FileTree) (follow : Bool) (links : Nat) (here : Place) (steps : List String) :
    t.walk follow links here steps ≠ .error .nullCharacter := by
  induction links generalizing here steps with
  | zero =>
    have hs := t.stretch_ne_null follow here steps
    rw [walk_eq]
    split <;> simp_all
  | succ links ih =>
    have hs := t.stretch_ne_null follow here steps
    rw [walk_eq]
    split <;> simp_all

end FileTree

namespace Disk

variable {d d' : Disk} {p : Path}

theorem locate_ne_null (d : Disk) (follow : Bool) (hp : p.hasNull = false) :
    d.locate follow p ≠ .error .nullCharacter := by
  rw [locate, if_neg (by simp [hp])]
  split
  · simp
  · exact d.tree.walk_ne_null _ _ _ _

theorem remove_not_refused {e : FileError} (hp : p.hasNull = false) (h : d.remove p = .error e) :
    e.isRefused = false := by
  unfold remove at h
  split at h
  · cases h; rfl
  · cases h
  · cases h; rfl
  · next kind hl =>
    cases h
    have hkind : kind ≠ .nullCharacter := fun hk => d.locate_ne_null false hp (hk ▸ hl)
    simpa [FileError.isRefused] using hkind

theorem write_not_refused {data : Bytes} {e : FileError} (hp : p.hasNull = false) (h : d.write p data = .error e) :
    e.isRefused = false := by
  unfold write at h
  split at h
  · cases h
  · cases h; rfl
  · cases h
  · next kind hl =>
    cases h
    have hkind : kind ≠ .nullCharacter := fun hk => d.locate_ne_null true hp (hk ▸ hl)
    simpa [FileError.isRefused] using hkind

/-- What was removed is no file any more. -/
theorem isFile_of_remove (h : d.remove p = .ok d') : d'.isFile p = .ok false := by
  unfold remove at h
  split at h
  · cases h
  · next place item hitem hl =>
    obtain rfl := Except.ok.inj h
    have hne : ∀ mode, item ≠ .directory mode := fun mode hm => hitem mode hm
    have hq : place ≠ [] := by
      rintro rfl
      have hget := get?_of_locate hl hne
      exact hne _ (Option.some.inj hget).symm
    have hwalk := FileTree.walk_erase hq (walk_of_locate hl) hne
    have hnull : p.hasNull = false := by
      cases hn : p.hasNull with
      | false => rfl
      | true => rw [locate, if_pos hn] at hl; cases hl
    have hshort : ¬ pathLimit < p.toString.utf8ByteSize := by
      intro hlong
      rw [locate, if_neg (by simp [hnull]), if_pos hlong] at hl
      cases hl
    have hlocate : Disk.locate { d with tree := d.tree.erase place } true p =
        (d.tree.erase place).walk true FileTree.linkLimit (d.origin p) p.steps := by
      rw [locate, if_neg (by simp [hnull]), if_neg hshort]
      rfl
    rw [isFile, item?, hlocate]
    rcases hwalk with ⟨parent, name, hw⟩ | hw | ⟨place, mode, hw⟩ <;> rw [hw] <;> rfl
  · cases h
  · cases h

end Disk

end LogRef
