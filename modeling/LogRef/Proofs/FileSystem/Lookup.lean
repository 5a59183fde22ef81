import LogRef.FileSystem.Tree

/-!
# Looking things up in a changed tree

Putting something at a place is seen at that place only. A path that leads to a file or a link leads there
still when something is put at a free place, and a path that led to the free place leads to what was put
there.
-/
namespace LogRef

namespace FileTree

variable {t t' : FileTree} {place q : Place} {item other : Item}

theorem get?_put_self (h : place ≠ []) : (t.put place item).get? place = some item := by
  rw [get?, if_neg h, put]
  split
  · next hany =>
    clear h
    obtain ⟨items⟩ := t
    simp only at hany ⊢
    induction items with
    | nil => simp at hany
    | cons e items ih =>
      simp only [List.any_cons, Bool.or_eq_true, beq_iff_eq] at hany
      rw [List.map_cons]
      by_cases he : e.1 = place
      · rw [if_pos he, List.lookup_cons_self]
      · rw [if_neg he, List.lookup_cons, beq_eq_false_iff_ne.mpr (Ne.symm he)]
        exact ih (hany.resolve_left he)
  · next hany =>
    simp only [Bool.not_eq_true, List.any_eq_false, beq_iff_eq] at hany
    have hnone : t.items.lookup place = none := by
      rw [List.lookup_eq_none_iff]
      intro e he
      exact bne_iff_ne.mpr (Ne.symm (hany e he))
    rw [List.lookup_append, hnone, Option.none_or, List.lookup_cons_self]

theorem get?_put_ne (h : q ≠ place) : (t.put place item).get? q = t.get? q := by
  rw [get?, get?]
  by_cases hq : q = []
  · rw [if_pos hq, if_pos hq]
  · rw [if_neg hq, if_neg hq, put]
    split
    · generalize t.items = items
      induction items with
      | nil => rfl
      | cons e items ih =>
        rw [List.map_cons, List.lookup_cons, List.lookup_cons, ih]
        by_cases he : e.1 = place
        · rw [if_pos he, he, beq_eq_false_iff_ne.mpr h]
        · rw [if_neg he]
    · rw [List.lookup_append, List.lookup_cons, beq_eq_false_iff_ne.mpr h]
      simp

/-- What is put twice is put the second time. -/
theorem put_put (t : FileTree) (place : Place) (item other : Item) :
    (t.put place item).put place other = t.put place other := by
  by_cases hany : t.items.any (·.1 == place) = true
  · have hmap : (t.items.map fun e => if e.1 = place then (place, item) else e).any (·.1 == place) = true := by
      rw [List.any_map, List.any_eq_true] at *
      obtain ⟨e, he, heq⟩ := hany
      exact ⟨e, he, by simp [beq_iff_eq.mp heq]⟩
    simp only [put, hany, hmap, if_true, List.map_map, mk.injEq]
    refine List.map_congr_left fun e _ => ?_
    by_cases he : e.1 = place <;> simp [he]
  · have hlast : (t.items ++ [(place, item)]).any (·.1 == place) = true := by simp
    have hsame : (t.items.map fun e => if e.1 = place then (place, other) else e) = t.items := by
      conv => rhs; rw [← List.map_id t.items]
      refine List.map_congr_left fun e he => if_neg fun heq => hany ?_
      exact List.any_eq_true.mpr ⟨e, he, beq_iff_eq.mpr heq⟩
    rw [put, put, if_neg hany, if_pos hlast, put, if_neg hany, List.map_append, hsame]
    simp

/-- What is put at a free place and taken away again leaves no trace. -/
theorem erase_put (h0 : place ≠ []) (h : t.get? place = none) (item : Item) :
    (t.put place item).erase place = t := by
  rw [get?, if_neg h0, List.lookup_eq_none_iff] at h
  have hany : ¬ t.items.any (·.1 == place) = true := by
    intro hc
    obtain ⟨e, he, heq⟩ := List.any_eq_true.mp hc
    have := h e he
    rw [bne_iff_ne] at this
    exact this (beq_iff_eq.mp heq).symm
  rw [put, if_neg hany, erase]
  obtain ⟨items⟩ := t
  simp only [List.filter_append, mk.injEq]
  rw [List.filter_eq_self.mpr fun e he => ?_]
  · simp
  · have := h e he
    rw [bne_iff_ne] at this ⊢
    exact Ne.symm this

/-- The two trees have the same everywhere but at a place. -/
def SameBut (place : Place) (t t' : FileTree) : Prop := ∀ q, q ≠ place → t'.get? q = t.get? q

section

variable {follow : Bool} {links : Nat} {here : Place} {step : String} {steps rest : List String}

theorem stretch_up : t.stretch follow here (".." :: rest) = t.stretch follow here.dropLast rest := if_pos rfl

theorem stretch_long (h1 : step ≠ "..") (h2 : nameLimit < step.utf8ByteSize) :
    t.stretch follow here (step :: rest) = .blocked .nameTooLong :=
  (if_neg h1).trans (if_pos h2)

theorem stretch_none (h1 : step ≠ "..") (h2 : ¬ nameLimit < step.utf8ByteSize)
    (h : t.get? (here ++ [step]) = none) : t.stretch follow here (step :: rest) =
      if rest = [] then .arrived (.free here step) else .blocked .notFound := by
  refine ((if_neg h1).trans (if_neg h2)).trans ?_
  rw [h]

theorem stretch_file (h1 : step ≠ "..") (h2 : ¬ nameLimit < step.utf8ByteSize) {data : Bytes} {mode : Nat}
    (h : t.get? (here ++ [step]) = some (.file data mode)) : t.stretch follow here (step :: rest) =
      if rest = [] then .arrived (.occupied (here ++ [step]) (.file data mode))
      else .blocked .notDirectory := by
  refine ((if_neg h1).trans (if_neg h2)).trans ?_
  rw [h]

theorem stretch_directory (h1 : step ≠ "..") (h2 : ¬ nameLimit < step.utf8ByteSize) {mode : Nat}
    (h : t.get? (here ++ [step]) = some (.directory mode)) : t.stretch follow here (step :: rest) =
      if rest = [] then .arrived (.occupied (here ++ [step]) (.directory mode))
      else t.stretch follow (here ++ [step]) rest := by
  refine ((if_neg h1).trans (if_neg h2)).trans ?_
  rw [h]

theorem stretch_link (h1 : step ≠ "..") (h2 : ¬ nameLimit < step.utf8ByteSize) {target : String}
    (h : t.get? (here ++ [step]) = some (.link target)) : t.stretch follow here (step :: rest) =
      if (decide (rest = []) && !follow) = true then .arrived (.occupied (here ++ [step]) (.link target))
      else .link here (Path.ofString target) rest := by
  refine ((if_neg h1).trans (if_neg h2)).trans ?_
  rw [h]

/-- A stretch that ends at a file or at a link. -/
def Settled : Stretch → Prop
  | .arrived (.occupied _ (.directory _)) => False
  | .arrived (.occupied _ _) => True
  | .arrived (.free _ _) => False
  | .blocked _ => False
  | .link _ _ _ => True

/-- Something at a free place is not in the way of what is settled. -/
theorem stretch_of_sameBut (hsame : SameBut place t t') (hfree : t.get? place = none)
    (h : Settled (t.stretch follow here steps)) :
    t'.stretch follow here steps = t.stretch follow here steps := by
  induction steps generalizing here with
  | nil =>
    rw [stretch] at h ⊢
    have hne : here ≠ place := by
      rintro rfl
      rw [hfree] at h
      exact h
    rw [stretch, hsame here hne]
  | cons step rest ih =>
    by_cases h1 : step = ".."
    · subst h1
      rw [stretch_up] at h
      rw [stretch_up, stretch_up, ih h]
    · by_cases h2 : nameLimit < step.utf8ByteSize
      · rw [stretch_long h1 h2, stretch_long h1 h2]
      · have hne : here ++ [step] ≠ place := by
          intro heq
          rw [stretch_none h1 h2 (heq ▸ hfree)] at h
          split at h <;> exact h
        have hget := hsame _ hne
        cases hi : t.get? (here ++ [step]) with
        | none => rw [stretch_none h1 h2 hi, stretch_none h1 h2 (hget.trans hi)]
        | some item =>
          cases item with
          | file data mode => rw [stretch_file h1 h2 hi, stretch_file h1 h2 (hget.trans hi)]
          | link target => rw [stretch_link h1 h2 hi, stretch_link h1 h2 (hget.trans hi)]
          | directory mode =>
            rw [stretch_directory h1 h2 hi] at h
            rw [stretch_directory h1 h2 hi, stretch_directory h1 h2 (hget.trans hi)]
            split
            · rfl
            · next hrest =>
              rw [if_neg hrest] at h
              exact ih h

/-- A stretch that ended at a free place ends at what is put there. -/
theorem stretch_of_put {parent : Place} {name : String} (hsame : SameBut (parent ++ [name]) t t')
    {data : Bytes} {mode : Nat} (hput : t'.get? (parent ++ [name]) = some (.file data mode))
    (h : t.stretch follow here steps = .arrived (.free parent name)) :
    t.get? (parent ++ [name]) = none ∧ t'.stretch follow here steps =
      .arrived (.occupied (parent ++ [name]) (.file data mode)) := by
  induction steps generalizing here with
  | nil => cases h
  | cons step rest ih =>
    by_cases h1 : step = ".."
    · subst h1
      rw [stretch_up] at h
      obtain ⟨hfree, hput⟩ := ih h
      exact ⟨hfree, by rw [stretch_up, hput]⟩
    · by_cases h2 : nameLimit < step.utf8ByteSize
      · rw [stretch_long h1 h2] at h
        cases h
      · cases hi : t.get? (here ++ [step]) with
        | none =>
          rw [stretch_none h1 h2 hi] at h
          split at h
          · next hrest =>
            cases h
            exact ⟨hi, by rw [stretch_file h1 h2 hput, if_pos hrest]⟩
          · cases h
        | some item =>
          cases item with
          | file data mode =>
            rw [stretch_file h1 h2 hi] at h
            split at h <;> cases h
          | link target =>
            rw [stretch_link h1 h2 hi] at h
            split at h <;> cases h
          | directory mode =>
            rw [stretch_directory h1 h2 hi] at h
            split at h
            · cases h
            · next hrest =>
              obtain ⟨hfree, hput⟩ := ih h
              have hne : here ++ [step] ≠ parent ++ [name] := by
                intro heq
                rw [heq, hfree] at hi
                cases hi
              refine ⟨hfree, ?_⟩
              rw [stretch_directory h1 h2 ((hsame _ hne).trans hi), if_neg hrest, hput]

/-- Following a last link goes on from it; all else is the same. -/
theorem stretch_follow (t : FileTree) (here : Place) (steps : List String) :
    t.stretch true here steps = t.stretch false here steps ∨ ∃ parent name target,
      t.stretch false here steps = .arrived (.occupied (parent ++ [name]) (.link target)) ∧
        t.stretch true here steps = .link parent (Path.ofString target) [] := by
  induction steps generalizing here with
  | nil => exact Or.inl rfl
  | cons step rest ih =>
    by_cases h1 : step = ".."
    · subst h1
      rw [stretch_up, stretch_up]
      exact ih _
    · by_cases h2 : nameLimit < step.utf8ByteSize
      · rw [stretch_long h1 h2, stretch_long h1 h2]
        exact Or.inl rfl
      · cases hi : t.get? (here ++ [step]) with
        | none => rw [stretch_none h1 h2 hi, stretch_none h1 h2 hi]; exact Or.inl rfl
        | some item =>
          cases item with
          | file data mode => rw [stretch_file h1 h2 hi, stretch_file h1 h2 hi]; exact Or.inl rfl
          | link target =>
            rw [stretch_link h1 h2 hi, stretch_link h1 h2 hi]
            by_cases hrest : rest = []
            · refine Or.inr ⟨here, step, target, ?_, ?_⟩ <;> simp [hrest]
            · simp [hrest]
          | directory mode =>
            rw [stretch_directory h1 h2 hi, stretch_directory h1 h2 hi]
            split
            · exact Or.inl rfl
            · exact ih _

theorem walk_eq (t : FileTree) (follow : Bool) (links : Nat) (here : Place) (steps : List String) :
    t.walk follow links here steps = match t.stretch follow here steps with
      | .arrived d => .ok d
      | .blocked kind => .error kind
      | .link here target rest => match links with
        | 0 => .error .tooManyLinks
        | more + 1 => t.walk follow more (originOf here target) (target.steps ++ rest) :=
  walk.eq_def t follow links here steps

theorem settled_of_walk (h : t.walk follow links here steps = .ok (.occupied q item))
    (hitem : ∀ mode, item ≠ .directory mode) : Settled (t.stretch follow here steps) := by
  rw [walk_eq] at h
  cases hs : t.stretch follow here steps with
  | blocked kind => rw [hs] at h; cases h
  | link parent target rest => trivial
  | arrived d =>
    rw [hs] at h
    cases h
    cases item with
    | directory mode => exact hitem mode rfl
    | file data mode => trivial
    | link target => trivial

/-- A path to a file or a link leads there still when something is put at a free place. -/
theorem walk_of_sameBut (hsame : SameBut place t t') (hfree : t.get? place = none)
    (h : t.walk follow links here steps = .ok (.occupied q item)) (hitem : ∀ mode, item ≠ .directory mode) :
    t'.walk follow links here steps = .ok (.occupied q item) := by
  induction links generalizing here steps with
  | zero =>
    have hs := settled_of_walk h hitem
    rw [walk_eq] at h ⊢
    rwa [stretch_of_sameBut hsame hfree hs]
  | succ links ih =>
    have hs := settled_of_walk h hitem
    rw [walk_eq] at h ⊢
    rw [stretch_of_sameBut hsame hfree hs]
    cases hst : t.stretch follow here steps with
    | arrived d => rwa [hst] at h
    | blocked kind => rwa [hst] at h
    | link parent target rest =>
      rw [hst] at h
      exact ih h

/-- A path to a free place leads to what is put there. -/
theorem walk_of_put {parent : Place} {name : String} (hsame : SameBut (parent ++ [name]) t t')
    {data : Bytes} {mode : Nat} (hput : t'.get? (parent ++ [name]) = some (.file data mode))
    (h : t.walk follow links here steps = .ok (.free parent name)) :
    t.get? (parent ++ [name]) = none ∧ t'.walk follow links here steps =
      .ok (.occupied (parent ++ [name]) (.file data mode)) := by
  induction links generalizing here steps with
  | zero =>
    rw [walk_eq] at h
    cases hst : t.stretch follow here steps with
    | blocked kind => rw [hst] at h; cases h
    | link parent target rest => rw [hst] at h; cases h
    | arrived d =>
      rw [hst] at h
      cases h
      obtain ⟨hfree, hput⟩ := stretch_of_put hsame hput hst
      exact ⟨hfree, by rw [walk_eq, hput]⟩
  | succ links ih =>
    rw [walk_eq] at h
    cases hst : t.stretch follow here steps with
    | blocked kind => rw [hst] at h; cases h
    | arrived d =>
      rw [hst] at h
      cases h
      obtain ⟨hfree, hput⟩ := stretch_of_put hsame hput hst
      exact ⟨hfree, by rw [walk_eq, hput]⟩
    | link origin target rest =>
      rw [hst] at h
      obtain ⟨hfree, hwalk⟩ := ih h
      refine ⟨hfree, ?_⟩
      rw [walk_eq, stretch_of_sameBut hsame hfree (by rw [hst]; trivial), hst]
      exact hwalk

/-- Without a link at its end, a path leads where it leads when links are followed. -/
theorem walk_followed (h : t.walk false links here steps = .ok (.occupied q item))
    (hitem : ∀ target, item ≠ .link target) : t.walk true links here steps = .ok (.occupied q item) := by
  induction links generalizing here steps with
  | zero =>
    rw [walk_eq] at h ⊢
    rcases stretch_follow t here steps with heq | ⟨parent, name, target, hfalse, _⟩
    · rw [heq]
      cases hs : t.stretch false here steps with
      | arrived d => rwa [hs] at h
      | blocked kind => rw [hs] at h; cases h
      | link origin target rest => rw [hs] at h; cases h
    · rw [hfalse] at h
      cases h
      exact absurd rfl (hitem target)
  | succ links ih =>
    rw [walk_eq] at h ⊢
    rcases stretch_follow t here steps with heq | ⟨parent, name, target, hfalse, _⟩
    · rw [heq]
      cases hs : t.stretch false here steps with
      | arrived d => rwa [hs] at h
      | blocked kind => rw [hs] at h; cases h
      | link origin target rest => rw [hs] at h; exact ih h
    · rw [hfalse] at h
      cases h
      exact absurd rfl (hitem target)

/-- A path without a link at its end leads where it leads when links are followed. -/
theorem walk_unlinked (h : ∀ place target, t.walk false links here steps ≠ .ok (.occupied place (.link target))) :
    t.walk true links here steps = t.walk false links here steps := by
  induction links generalizing here steps with
  | zero =>
    rw [walk_eq, walk_eq]
    rcases t.stretch_follow here steps with heq | ⟨parent, name, target, hfalse, _⟩
    · rw [heq]
    · exact absurd (by rw [walk_eq, hfalse]) (h (parent ++ [name]) target)
  | succ links ih =>
    rcases t.stretch_follow here steps with heq | ⟨parent, name, target, hfalse, _⟩
    · have hnext := walk_eq t false (links + 1) here steps
      rw [walk_eq, hnext, heq]
      cases hs : t.stretch false here steps with
      | arrived dest => rfl
      | blocked kind => rfl
      | link origin target rest =>
        rw [hs] at hnext
        exact ih fun place found hwalk => h place found (hnext.trans hwalk)
    · exact absurd (by rw [walk_eq, hfalse]) (h (parent ++ [name]) target)

/-- A path that leads to a file leads, with a last link left alone, to a file or a link. -/
theorem walk_unfollowed {data : Bytes} {mode : Nat}
    (h : t.walk true links here steps = .ok (.occupied q (.file data mode))) :
    ∃ p item, t.walk false links here steps = .ok (.occupied p item) ∧ ∀ mode, item ≠ .directory mode := by
  induction links generalizing here steps with
  | zero =>
    rw [walk_eq] at h
    rcases stretch_follow t here steps with heq | ⟨parent, name, target, hfalse, htrue⟩
    · rw [heq] at h
      refine ⟨q, .file data mode, ?_, fun _ => by simp⟩
      rw [walk_eq]
      cases hst : t.stretch false here steps with
      | arrived d => rwa [hst] at h
      | blocked kind => rw [hst] at h; cases h
      | link origin target rest => rw [hst] at h; cases h
    · rw [htrue] at h
      cases h
  | succ links ih =>
    rw [walk_eq] at h
    rcases stretch_follow t here steps with heq | ⟨parent, name, target, hfalse, htrue⟩
    · rw [heq] at h
      rw [walk_eq]
      cases hst : t.stretch false here steps with
      | arrived d =>
        rw [hst] at h
        exact ⟨q, .file data mode, h, fun _ => by simp⟩
      | blocked kind => rw [hst] at h; cases h
      | link origin target rest =>
        rw [hst] at h
        exact ih h
    · refine ⟨parent ++ [name], .link target, ?_, fun _ => by simp⟩
      rw [walk_eq, hfalse]

end

end FileTree

/-- The place that a path leads to, whatever is there. -/
def Destination.place : Destination → Place
  | occupied place _ => place
  | free parent name => parent ++ [name]

namespace Disk

variable {d : Disk} {t' : FileTree} {p : Path}

/-- The place of what a path leads to, or of what can be put there; a link at its end is not followed. -/
def Names (d : Disk) (p : Path) (place : Place) : Prop := ∃ dest, d.locate false p = .ok dest ∧ dest.place = place

theorem locate_of_sameBut {place q : Place} {item : Item} (hsame : FileTree.SameBut place d.tree t')
    (hfree : d.tree.get? place = none) {follow : Bool} (h : d.locate follow p = .ok (.occupied q item))
    (hitem : ∀ mode, item ≠ .directory mode) :
    Disk.locate { d with tree := t' } follow p = .ok (.occupied q item) := by
  unfold locate at h ⊢
  split at h
  · cases h
  · next hnull =>
    rw [if_neg hnull]
    split at h
    · cases h
    · next hlong =>
      rw [if_neg hlong]
      exact FileTree.walk_of_sameBut hsame hfree h hitem

theorem locate_of_put {parent : Place} {name : String}
    (hsame : FileTree.SameBut (parent ++ [name]) d.tree t') {data : Bytes} {mode : Nat}
    (hput : t'.get? (parent ++ [name]) = some (.file data mode))
    {follow : Bool} (h : d.locate follow p = .ok (.free parent name)) :
    d.tree.get? (parent ++ [name]) = none ∧ Disk.locate { d with tree := t' } follow p =
      .ok (.occupied (parent ++ [name]) (.file data mode)) := by
  unfold locate at h ⊢
  split at h
  · cases h
  · next hnull =>
    split at h
    · cases h
    · next hlong =>
      obtain ⟨hfree, hwalk⟩ := FileTree.walk_of_put hsame hput h
      refine ⟨hfree, ?_⟩
      rw [if_neg hnull, if_neg hlong]
      exact hwalk

theorem walk_of_locate {follow : Bool} {dest : Destination} (h : d.locate follow p = .ok dest) :
    d.tree.walk follow FileTree.linkLimit (d.origin p) p.steps = .ok dest := by
  unfold locate at h
  split at h
  · cases h
  · split at h
    · cases h
    · exact h

theorem locate_followed {q : Place} {item : Item} (h : d.locate false p = .ok (.occupied q item))
    (hitem : ∀ target, item ≠ .link target) :
    d.locate true p = .ok (.occupied q item) := by
  have hwalk := FileTree.walk_followed (walk_of_locate h) hitem
  unfold locate at h ⊢
  split at h
  · cases h
  · next hnull =>
    rw [if_neg hnull]
    split at h
    · cases h
    · next hlong => rw [if_neg hlong, hwalk]

/-- The path does not lead to a link. -/
def Unlinked (d : Disk) (p : Path) : Prop := ∀ place target, d.locate false p ≠ .ok (.occupied place (.link target))

theorem unlinked_of_isLink (h : d.isLink p ≠ .ok true) : d.Unlinked p := by
  intro place target hl
  apply h
  rw [isLink, item?, hl]
  rfl

theorem Unlinked.locate (h : d.Unlinked p) : d.locate true p = d.locate false p := by
  unfold Disk.locate
  split
  · rfl
  · next hnull =>
    split
    · rfl
    · next hlong =>
      refine FileTree.walk_unlinked fun place target hwalk => h place target ?_
      rw [Disk.locate, if_neg hnull, if_neg hlong, hwalk]

theorem locate_unfollowed {q : Place} {data : Bytes} {mode : Nat}
    (h : d.locate true p = .ok (.occupied q (.file data mode))) :
    ∃ place item, d.locate false p = .ok (.occupied place item) ∧ ∀ mode, item ≠ .directory mode := by
  unfold locate at h ⊢
  split at h
  · cases h
  · next hnull =>
    rw [if_neg hnull]
    split at h
    · cases h
    · next hlong =>
      rw [if_neg hlong]
      exact FileTree.walk_unfollowed h

end Disk

end LogRef
