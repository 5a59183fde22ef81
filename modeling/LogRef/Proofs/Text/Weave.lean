/-!
# Weaving marks into a list

A list with marks put in at its positions, and where the old positions are in the new list. A position that
has a mark has two places there, one to the left of the mark and one to the right of it. A stretch of the
old list without marks inside is found again between the place right of its beginning and the place left of
its end.
-/
namespace LogRef

section

variable {α : Type} (mark : Nat → List α)

/-- The list, whose first element has the position given, with `mark i` before the element at `i`. -/
def weave : (position : Nat) → List α → List α
  | _, [] => []
  | i, x :: rest => mark i ++ x :: weave (i + 1) rest

/-- How long the marks before a position are together. -/
def marksBefore : Nat → Nat
  | 0 => 0
  | i + 1 => marksBefore i + (mark i).length

/-- The place of a position to the left of its own mark. -/
def leftOf (i : Nat) : Nat := i + marksBefore mark i

/-- The place of a position to the right of its own mark. -/
def rightOf (i : Nat) : Nat := leftOf mark i + (mark i).length

theorem leftOf_zero : leftOf mark 0 = 0 := rfl

theorem marksBefore_succ (i : Nat) :
    marksBefore mark (i + 1) = marksBefore mark i + (mark i).length := rfl

theorem leftOf_succ (i : Nat) : leftOf mark (i + 1) = rightOf mark i + 1 := by
  simp only [leftOf, rightOf, marksBefore_succ]
  omega

theorem leftOf_le_rightOf (i : Nat) : leftOf mark i ≤ rightOf mark i := Nat.le_add_right _ _

theorem rightOf_eq_leftOf {i : Nat} (h : mark i = []) : rightOf mark i = leftOf mark i := by
  simp [rightOf, h]

/-- Positions keep their order, and no mark is in the way. -/
theorem rightOf_lt_leftOf {i j : Nat} (h : i < j) : rightOf mark i < leftOf mark j := by
  induction j with
  | zero => omega
  | succ j ih =>
    rw [leftOf_succ]
    obtain rfl | hlt := Nat.eq_or_lt_of_le (Nat.le_of_lt_succ h)
    · omega
    · have := ih hlt
      have := leftOf_le_rightOf mark j
      omega

theorem leftOf_mono {i j : Nat} (h : i ≤ j) : leftOf mark i ≤ leftOf mark j := by
  obtain rfl | hlt := Nat.eq_or_lt_of_le h
  · exact Nat.le_refl _
  · exact Nat.le_of_lt (Nat.lt_of_le_of_lt (leftOf_le_rightOf mark i) (rightOf_lt_leftOf mark hlt))

theorem le_leftOf (i : Nat) : i ≤ leftOf mark i := Nat.le_add_right _ _

/-- Without marks on the way, distances stay. -/
theorem leftOf_add {i : Nat} (n : Nat) (h : ∀ j, i ≤ j → j < i + n → mark j = []) :
    leftOf mark (i + n) = leftOf mark i + n := by
  induction n with
  | zero => rfl
  | succ n ih =>
    rw [← Nat.add_assoc, leftOf_succ, rightOf_eq_leftOf mark (h _ (by omega) (by omega)),
      ih fun j hi hj => h j hi (by omega), Nat.add_assoc]

theorem weave_append (i : Nat) (a b : List α) :
    weave mark i (a ++ b) = weave mark i a ++ weave mark (i + a.length) b := by
  induction a generalizing i with
  | nil => rfl
  | cons x a ih =>
    simp only [List.cons_append, weave, ih, List.append_assoc, List.length_cons]
    rw [Nat.add_assoc, Nat.add_comm 1]

theorem length_weave (i : Nat) (s : List α) :
    leftOf mark i + (weave mark i s).length = leftOf mark (i + s.length) := by
  induction s generalizing i with
  | nil => rfl
  | cons x s ih =>
    simp only [weave, List.length_append, List.length_cons]
    have h := ih (i + 1)
    have hs := leftOf_succ mark i
    rw [Nat.add_assoc, Nat.add_comm 1] at h
    rw [← h, hs, rightOf]
    omega

theorem length_weave_zero (s : List α) : (weave mark 0 s).length = leftOf mark s.length := by
  have h := length_weave mark 0 s
  rw [leftOf_zero, Nat.zero_add, Nat.zero_add] at h
  exact h

theorem weave_eq_self {i : Nat} {s : List α} (h : ∀ j, i ≤ j → j < i + s.length → mark j = []) :
    weave mark i s = s := by
  induction s generalizing i with
  | nil => rfl
  | cons x s ih =>
    simp only [List.length_cons] at h
    rw [weave, h i (Nat.le_refl i) (by omega), List.nil_append,
      ih fun j hj hlt => h j (by omega) (by omega)]

theorem weave_congr {mark' : Nat → List α} {i : Nat} (h : ∀ j, i ≤ j → mark j = mark' j) (s : List α) :
    weave mark i s = weave mark' i s := by
  induction s generalizing i with
  | nil => rfl
  | cons x s ih => rw [weave, weave, h i (Nat.le_refl i), ih fun j hj => h j (by omega)]

theorem getLast?_weave (i : Nat) (s : List α) : (weave mark i s).getLast? = s.getLast? := by
  induction s generalizing i with
  | nil => rfl
  | cons x s ih => rw [weave, List.getLast?_append, List.getLast?_cons, List.getLast?_cons, ih, Option.some_or]

/-- The woven list falls apart at the place of any position. -/
theorem weave_split {s : List α} {k : Nat} (h : k ≤ s.length) :
    weave mark 0 s = weave mark 0 (s.take k) ++ weave mark k (s.drop k) := by
  have hk : (s.take k).length = k := List.length_take_of_le h
  conv => lhs; rw [← List.take_append_drop k s]
  rw [weave_append, hk, Nat.zero_add]

theorem take_weave {s : List α} {k : Nat} (h : k ≤ s.length) :
    (weave mark 0 s).take (leftOf mark k) = weave mark 0 (s.take k) := by
  have hk : (weave mark 0 (s.take k)).length = leftOf mark k := by
    rw [length_weave_zero, List.length_take_of_le h]
  rw [weave_split mark h, List.take_left' hk]

theorem drop_weave {s : List α} {k : Nat} (h : k ≤ s.length) :
    (weave mark 0 s).drop (leftOf mark k) = weave mark k (s.drop k) := by
  have hk : (weave mark 0 (s.take k)).length = leftOf mark k := by
    rw [length_weave_zero, List.length_take_of_le h]
  rw [weave_split mark h, List.drop_left' hk]

/-- A stretch of the list, with the marks in it. -/
theorem slice_weave {s : List α} {a b : Nat} (hab : a ≤ b) (hb : b ≤ s.length) :
    ((weave mark 0 s).take (leftOf mark b)).drop (leftOf mark a) =
      weave mark a ((s.take b).drop a) := by
  rw [take_weave mark hb, drop_weave mark (by rw [List.length_take_of_le hb]; exact hab)]

/-- A stretch of the list without the mark at its beginning. -/
theorem slice_weave_right {s : List α} {a b : Nat} (hab : a < b) (hb : b ≤ s.length) :
    ∃ x rest, (s.take b).drop a = x :: rest ∧
      ((weave mark 0 s).take (leftOf mark b)).drop (rightOf mark a) =
        x :: weave mark (a + 1) rest := by
  cases hs : (s.take b).drop a with
  | nil =>
    have hlen := congrArg List.length hs
    rw [List.length_drop, List.length_take_of_le hb, List.length_nil] at hlen
    omega
  | cons x rest =>
    refine ⟨x, rest, rfl, ?_⟩
    rw [rightOf, ← List.drop_drop, slice_weave mark (Nat.le_of_lt hab) hb, hs, weave,
      List.drop_left' rfl]

/-- Between the two places of a position is its mark. -/
theorem slice_weave_mark {s : List α} {k : Nat} (h : k < s.length) :
    ((weave mark 0 s).take (rightOf mark k)).drop (leftOf mark k) = mark k := by
  rw [List.drop_take, drop_weave mark (Nat.le_of_lt h), List.drop_eq_getElem_cons h, weave, rightOf,
    Nat.add_sub_cancel_left, List.take_left' rfl]

/-- A stretch of the list without marks inside is found again. -/
theorem slice_weave_eq {s : List α} {a b : Nat} (hab : a ≤ b) (hb : b ≤ s.length)
    (h : ∀ j, a < j → j < b → mark j = []) :
    ((weave mark 0 s).take (leftOf mark b)).drop (rightOf mark a) = (s.take b).drop a := by
  obtain rfl | hlt := Nat.eq_or_lt_of_le hab
  · rw [List.drop_eq_nil_of_le, List.drop_eq_nil_of_le]
    · exact List.length_take_le a s
    · exact Nat.le_trans (List.length_take_le _ _) (leftOf_le_rightOf mark a)
  · obtain ⟨x, rest, hs, hw⟩ := slice_weave_right mark hlt hb
    have hlen := congrArg List.length hs
    rw [List.length_drop, List.length_take_of_le hb, List.length_cons] at hlen
    rw [hw, hs, weave_eq_self mark fun j hj hlt => h j (by omega) (by omega)]

end

end LogRef
