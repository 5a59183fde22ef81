import LogRef.Proofs.Results
import LogRef.Settings.Load

/-!
# Checks that pass

A value that passes a combined check has passed each of its parts.
-/
namespace LogRef

namespace Checked

variable {α β : Type} {a : Checked α} {b : Checked β} {x : α} {y : β}

theorem under_ok {key : String} (h : a.under key = .ok x) : a = .ok x := mapError_ok h

theorem both_ok (h : both a b = .ok (x, y)) : a = .ok x ∧ b = .ok y := by
  cases a with
  | error issues => cases h
  | ok x' =>
    cases b with
    | error issues => cases h
    | ok y' =>
      cases h
      exact ⟨rfl, rfl⟩

theorem orIssues_ok {more : List Issue} (h : a.orIssues more = .ok x) : a = .ok x := by
  cases a with
  | error issues => cases h
  | ok x' =>
    cases more with
    | cons issue rest => cases h
    | nil => exact h

end Checked

namespace Check

variable {α : Type} {check : Value → Checked α} {pairs : List (Value × Value)} {name : String} {x : α}

theorem required_ok (h : required pairs name check = .ok x) :
    ∃ v, Value.field? pairs name = some v ∧ check v = .ok x := by
  unfold required at h
  split at h
  · rename_i v hv
    exact ⟨v, hv, Checked.under_ok h⟩
  · cases h

theorem itemsFrom_ok {i : Nat} {items : List Value} {xs : List α} (h : itemsFrom check i items = .ok xs) :
    xs.length = items.length ∧ ∀ x ∈ xs, ∃ v ∈ items, check v = .ok x := by
  induction items generalizing i xs with
  | nil =>
    cases h
    exact ⟨rfl, fun x hx => absurd hx List.not_mem_nil⟩
  | cons v rest ih =>
    rw [itemsFrom] at h
    cases hboth : Checked.both ((check v).under (toString i)) (itemsFrom check (i + 1) rest) with
    | error issues =>
      rw [hboth] at h
      cases h
    | ok p =>
      rw [hboth] at h
      cases h
      obtain ⟨hfirst, hrest⟩ := Checked.both_ok hboth
      obtain ⟨hlength, hall⟩ := ih hrest
      refine ⟨by rw [List.length_cons, List.length_cons, hlength], fun x hx => ?_⟩
      rcases List.mem_cons.mp hx with rfl | hx
      · exact ⟨v, List.mem_cons_self, Checked.under_ok hfirst⟩
      · obtain ⟨w, hw, hcheck⟩ := hall x hx
        exact ⟨w, List.mem_cons_of_mem v hw, hcheck⟩

/-- A list that has to hold something does, and all of it has been checked. -/
theorem someList_ok {v : Value} {xs : List α} (h : someList check v = .ok xs) :
    xs ≠ [] ∧ ∀ x ∈ xs, ∃ w, check w = .ok x := by
  unfold someList at h
  split at h
  · cases h
  · rename_i hsome
    unfold list at h
    split at h
    · rename_i items
      obtain ⟨hlength, hall⟩ := itemsFrom_ok h
      refine ⟨?_, fun x hx => ?_⟩
      · rintro rfl
        exact hsome (by rw [List.eq_nil_of_length_eq_zero hlength.symm])
      · obtain ⟨w, -, hw⟩ := hall x hx
        exact ⟨w, hw⟩
    · cases h

end Check

end LogRef
