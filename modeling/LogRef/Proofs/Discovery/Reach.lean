import LogRef.Proofs.Discovery.Faults

/-!
# What a search reaches

A search goes from directory to directory and enters no link. What it reaches this way is what the tree has below the
place that the directory of the search leads to, so a file that it reaches is inside of the directory, links or no
links.
-/
namespace LogRef

/-- The path that leads on from a directory. -/
def Path.descend (p : Path) (rel : List String) : Path := ⟨p.root, p.steps ++ rel⟩

theorem Path.descend_injective {p : Path} {a b : List String} (h : p.descend a = p.descend b) : a = b :=
  List.append_cancel_left (Path.mk.inj h).2

namespace FileTree

variable {t : FileTree} {here : Place} {rel : List String} {item : Item}

/-- What steps from a directory reach: something in it, or what they reach from a directory in it. A link may come
last only. -/
inductive Reaches (t : FileTree) : Place → List String → Item → Prop
  | entry {here : Place} {name : String} {item : Item} (h : t.get? (here ++ [name]) = some item) :
    Reaches t here [name] item
  | enter {here : Place} {name : String} {mode : Nat} {rest : List String} {item : Item}
    (hdir : t.get? (here ++ [name]) = some (.directory mode)) (h : Reaches t (here ++ [name]) rest item) :
    Reaches t here (name :: rest) item

/-- Names as files can have them. -/
def Named (t : FileTree) : Prop := ∀ e ∈ t.items, ∀ name ∈ e.1, '/' ∉ name.toList ∧ '\x00' ∉ name.toList

instance (t : FileTree) : Decidable t.Named := inferInstanceAs (Decidable (∀ e ∈ t.items, _))

theorem Reaches.ne_nil (h : t.Reaches here rel item) : rel ≠ [] := by
  cases h <;> exact List.cons_ne_nil _ _

theorem Reaches.get? (h : t.Reaches here rel item) : t.get? (here ++ rel) = some item := by
  induction h with
  | entry h => exact h
  | enter _ _ ih => rwa [List.append_assoc] at ih

/-- Everything below a place is reached from it, because what is above an item is a directory. -/
theorem WellFormed.reaches (hw : t.WellFormed) (hrel : rel ≠ []) (h : t.get? (here ++ rel) = some item) :
    t.Reaches here rel item := by
  induction rel generalizing here with
  | nil => exact absurd rfl hrel
  | cons name rest ih =>
    by_cases hrest : rest = []
    · subst hrest
      exact .entry h
    · have happend : here ++ name :: rest = here ++ [name] ++ rest := by simp
      rw [happend] at h
      obtain ⟨mode, hdir⟩ := hw.directory_above hrest h
      exact .enter hdir (ih hrest h)

theorem Named.of_reaches (hn : t.Named) (h : t.Reaches here rel item) :
    ∀ name ∈ rel, '/' ∉ name.toList ∧ '\x00' ∉ name.toList := by
  have hmem := mem_of_get? (by simp [h.ne_nil]) h.get?
  exact fun name hname => hn _ hmem name (List.mem_append_right _ hname)

end FileTree

namespace Disk

variable {d : Disk} {directory : Path} {place q : Place} {mode : Nat} {rel : List String} {item : Item} {name : String}

/-- A path to what is reached from a directory leads there, unless it is too long. -/
theorem locate_descend (hd : d.WellFormed) (hn : d.tree.Named)
    (hdir : d.locate true directory = .ok (.occupied place (.directory mode))) (h : d.tree.Reaches place rel item) :
    d.locate false (directory.descend rel) = .ok (.occupied (place ++ rel) item) ∨
      d.TooLong false (directory.descend rel) := by
  have hnull : (directory.descend rel).hasNull = false := by
    have hfront := hasNull_of_locate hdir
    unfold Path.hasNull at hfront ⊢
    rw [Path.descend, List.any_append, hfront, Bool.false_or, List.any_eq_false]
    intro step hstep
    simpa using (hn.of_reaches h step hstep).2
  obtain ⟨more, hwalk⟩ := @FileTree.walk_append _ _ false _ _ _ rel _ (walk_of_locate hdir) h.ne_nil
  have horigin : d.origin (directory.descend rel) = d.origin directory := rfl
  unfold TooLong
  rw [locate, if_neg (by simp [hnull]), horigin]
  split
  · exact .inr rfl
  · rw [Path.descend, hwalk, FileTree.walk_eq]
    rcases hd.tree.stretch_below h.ne_nil h.get? with hs | hs
    · exact .inl (by rw [hs])
    · exact .inr (by rw [hs])

/-- What is found under a name in a directory is reached from there. -/
theorem reaches_of_locate (hdir : d.locate true directory = .ok (.occupied place (.directory mode)))
    (hname : name ≠ "..") (h : d.locate false (directory.child name) = .ok (.occupied q item)) :
    d.tree.Reaches place [name] item := by
  have hwalk := walk_of_locate h
  obtain ⟨more, happend⟩ :=
    @FileTree.walk_append _ _ false _ _ _ [name] _ (walk_of_locate hdir) (List.cons_ne_nil _ _)
  have horigin : d.origin (directory.child name) = d.origin directory := rfl
  rw [horigin, Path.child, happend, FileTree.walk_eq] at hwalk
  refine .entry ?_
  by_cases hlong : FileTree.nameLimit < name.utf8ByteSize
  · rw [FileTree.stretch_long hname hlong] at hwalk
    cases hwalk
  · cases hget : d.tree.get? (place ++ [name]) with
    | none =>
      rw [FileTree.stretch_none hname hlong hget, if_pos rfl] at hwalk
      cases hwalk
    | some found =>
      cases found with
      | file data mode =>
        rw [FileTree.stretch_file hname hlong hget, if_pos rfl] at hwalk
        cases hwalk
        rfl
      | directory mode =>
        rw [FileTree.stretch_directory hname hlong hget, if_pos rfl] at hwalk
        cases hwalk
        rfl
      | link target =>
        rw [FileTree.stretch_link hname hlong hget] at hwalk
        cases hwalk
        rfl

end Disk

namespace Search

variable {d : Disk} {s : Search} {directory p : Path} {place : Place} {mode : Nat} {rel : List String} {item : Item}
  {verdicts : List Ignore.Verdict}

/-- What is listed below a directory is what is reached from the place it leads to. -/
theorem mem_below_iff (hw : d.tree.WellFormed)
    (hdir : d.locate true directory = .ok (.occupied place (.directory mode))) :
    p ∈ below d directory ↔ ∃ rel item, d.tree.Reaches place rel item ∧ p = directory.descend rel := by
  constructor
  · intro h
    obtain ⟨rel, item, hmem, hrel, rfl⟩ := mem_below hdir h
    exact ⟨rel, item, hw.reaches hrel (FileTree.get?_of_mem hw hmem), rfl⟩
  · rintro ⟨rel, item, h, rfl⟩
    rw [below, hdir]
    refine List.mem_filterMap.mpr ⟨(place ++ rel, item), FileTree.mem_of_get? (by simp [h.ne_nil]) h.get?, ?_⟩
    rw [if_pos ⟨List.isPrefixOf_iff_prefix.mpr (List.prefix_append _ _), by simp [h.ne_nil]⟩, List.drop_left]
    rfl

/-- The plain files that are listed below a directory are the files that are reached. -/
theorem reaches_of_isPlainFile (hd : d.WellFormed)
    (hdir : d.locate true directory = .ok (.occupied place (.directory mode))) (hmem : p ∈ below d directory)
    (h : isPlainFile d p = .ok true) :
    ∃ rel data mode, d.tree.Reaches place rel (.file data mode) ∧ p = directory.descend rel ∧
      d.locate true p = .ok (.occupied (place ++ rel) (.file data mode)) := by
  have hplain := plain_of_below hd.tree hdir hmem h
  obtain ⟨rel, item, hreaches, rfl⟩ := (mem_below_iff hd.tree hdir).mp hmem
  rw [Path.descend, List.drop_left] at hplain
  obtain ⟨data, mode', hall⟩ := hplain
  have hget := Disk.get?_of_locate (hall true) fun _ => by simp
  exact ⟨rel, data, mode', hd.tree.reaches hreaches.ne_nil hget, rfl, hall true⟩

theorem isPlainFile_of_locate {q : Place} {data : Bytes} (h : d.locate false p = .ok (.occupied q (.file data mode))) :
    isPlainFile d p = .ok true := by
  have hfollowed := Disk.locate_followed h fun _ => by simp
  unfold isPlainFile Disk.isFile Disk.isLink Disk.item?
  rw [hfollowed, h]
  rfl

/-- A file that is reached passes the test for plain files, unless its path is too long. -/
theorem isPlainFile_of_reaches (hd : d.WellFormed) (hn : d.tree.Named)
    (hdir : d.locate true directory = .ok (.occupied place (.directory mode))) {data : Bytes} {mode' : Nat}
    (h : d.tree.Reaches place rel (.file data mode')) {b : Bool} (hb : isPlainFile d (directory.descend rel) = .ok b) :
    b = true := by
  rcases Disk.locate_descend hd hn hdir h with hl | hlong
  · cases (isPlainFile_of_locate hl).symm.trans hb
    rfl
  · have hunlinked : d.Unlinked (directory.descend rel) := fun _ _ hl => by cases hlong.symm.trans hl
    have hfollowed : d.locate true (directory.descend rel) = .error .nameTooLong := hunlinked.locate.trans hlong
    unfold isPlainFile Disk.isFile Disk.item? at hb
    rw [hfollowed] at hb
    cases hb

/-- What is reached and is no link resolves to its place, which is inside of that of the directory. -/
theorem resolve_of_reached (hd : d.WellFormed)
    (hdir : d.locate true directory = .ok (.occupied place (.directory mode)))
    (hp : d.locate true p = .ok (.occupied (place ++ rel) item)) :
    d.resolve p = .ok ⟨.single, place ++ rel⟩ ∧ staysWithin d p directory = .ok true := by
  have hresolve := Disk.resolve_of_locate hd hp
  refine ⟨hresolve, ?_⟩
  unfold staysWithin resolved
  rw [Disk.resolve_of_locate hd hdir, hresolve]
  have hinside := Path.relativeTo?_append .single place rel
  have hgoal : (Except.ok ((⟨.single, place ++ rel⟩ : Path).relativeTo? ⟨.single, place⟩).isSome :
      Except Fault Bool) = .ok true := by
    rw [hinside]
    rfl
  exact hgoal

/-- The tests that a path belongs to the files that are looked for. -/
theorem includes_iff : s.includes d verdicts p = .ok true ↔
    extension p ∈ s.extensions ∧ isPlainFile d p = .ok true ∧ staysWithin d p s.directory = .ok true ∧
      ∃ steps, p.relativeTo? s.directory = some steps ∧ isIgnored s.isNested (d.absolute p) verdicts = .ok false ∧
        ∀ pattern ∈ s.exclude, Glob.matchesText pattern (joinSteps steps) = false := by
  unfold includes
  by_cases hext : extension p ∈ s.extensions
  · have hcontains : s.extensions.contains (extension p) = true := List.contains_iff_mem.mpr hext
    simp only [hcontains, hext, Bool.not_true, Bool.false_eq_true, if_false, true_and, bind, Except.bind, pure,
      Except.pure]
    cases isPlainFile d p with
    | error f => simp
    | ok plain =>
      cases plain with
      | false => simp
      | true =>
        cases staysWithin d p s.directory with
        | error f => simp
        | ok within =>
          cases within with
          | false => simp
          | true =>
            cases p.relativeTo? s.directory with
            | none => simp
            | some steps =>
              cases isIgnored s.isNested (d.absolute p) verdicts with
              | error f => simp
              | ok ignored => cases ignored <;> simp
  · simp [hext, pure, Except.pure]

end Search

end LogRef
