import LogRef.Proofs.Directive.Insertion
import LogRef.Reference.Entry

/-!
# Marks read back

What is written for an id is read as that id, at the head of a message and as the value of an argument. A
written id is nothing but digits, so it neither opens a comment nor breaks a line.
-/
namespace LogRef

/-- The digits that write a number. -/
def digitsOf (n : Nat) : List Char := Nat.toDigits 10 n

theorem isAsciiDigit_eq (c : Char) : isAsciiDigit c = c.isDigit := by
  simp only [isAsciiDigit, Char.isDigit, Char.le_def]

theorem isAsciiDigit_of_mem {n : Nat} {c : Char} (h : c ∈ digitsOf n) : isAsciiDigit c = true := by
  rw [isAsciiDigit_eq]
  exact Nat.isDigit_of_mem_toDigits (by decide) (by decide) h

theorem toNat_of_isAsciiDigit {c : Char} (h : isAsciiDigit c = true) : 48 ≤ c.toNat ∧ c.toNat ≤ 57 := by
  rw [isAsciiDigit, Bool.and_eq_true, decide_eq_true_eq, decide_eq_true_eq, Char.le_def, Char.le_def,
    UInt32.le_iff_toNat_le, UInt32.le_iff_toNat_le] at h
  exact h

theorem ne_of_isAsciiDigit {c x : Char} (h : isAsciiDigit c = true) (hx : isAsciiDigit x = false) : c ≠ x := by
  rintro rfl
  rw [h] at hx
  cases hx

theorem digitsOf_ne_nil (n : Nat) : digitsOf n ≠ [] := List.ne_nil_of_length_pos Nat.length_toDigits_pos

/-- A number other than zero does not begin with one. -/
theorem exists_digitsOf {n : Nat} (h : n ≠ 0) : ∃ c rest, digitsOf n = c :: rest ∧ c ≠ '0' := by
  induction n using Nat.strongRecOn with
  | ind n ih =>
    by_cases hlt : n < 10
    · exact ⟨n.digitChar, [], Nat.toDigits_of_lt_base hlt, fun hc => h (Nat.digitChar_eq_zero.mp hc)⟩
    · obtain ⟨c, rest, hdigits, hc⟩ := ih (n / 10) (by omega) (by omega)
      refine ⟨c, rest ++ [(n % 10).digitChar], ?_, hc⟩
      rw [digitsOf, Nat.toDigits_of_base_le (by decide) (by omega)]
      exact congrArg (· ++ _) hdigits

/-- The value of digits is the number that they write in base ten. -/
theorem digitsValue_eq (digits : List Char) : digitsValue digits = Nat.ofDigitChars 10 digits 0 := by
  have hfold : ∀ (digits : List Char) (m : Nat),
      digits.foldl (fun n c => n * 10 + (c.toNat - 48)) m = Nat.ofDigitChars 10 digits m := by
    intro digits
    induction digits with
    | nil => exact fun m => rfl
    | cons c digits ih =>
      intro m
      rw [List.foldl_cons, ih, Nat.ofDigitChars_cons, Nat.mul_comm m 10]
      rfl
  exact hfold digits 0

theorem digitsValue_digitsOf (n : Nat) : digitsValue (digitsOf n) = n := by
  rw [digitsValue_eq]
  exact Nat.ofDigitChars_ten_toDigits

theorem length_digitsOf {n : Nat} (h : n ≤ greatestId) :
    1 ≤ (digitsOf n).length ∧ (digitsOf n).length ≤ 10 := by
  refine ⟨Nat.length_toDigits_pos, (Nat.length_toDigits_le_iff (by decide) (by decide)).mpr ?_⟩
  unfold greatestId at h
  omega

/-- The text of a number, as its digits. -/
theorem toList_toString (n : Nat) : (toString (n : Int)).toList = digitsOf n := Nat.toList_repr

/-- What is read of digits between the opening of a mark and its end. -/
theorem readMark_digits {digits : List Char} (h : ∀ c ∈ digits, isAsciiDigit c = true) (rest : List Char) :
    readMark (markOpening ++ (digits ++ ']' :: rest)) =
      if 1 ≤ digits.length ∧ digits.length ≤ 10 ∧ digitsValue digits ≤ greatestId then some (digitsValue digits)
      else none := by
  have hdigits : ((digits ++ ']' :: rest).takeWhile isAsciiDigit) = digits := by
    rw [List.takeWhile_append_of_pos h]
    simp [isAsciiDigit]
  have hprefix : markOpening.isPrefixOf (markOpening ++ (digits ++ ']' :: rest)) = true :=
    List.isPrefixOf_iff_prefix.mpr (List.prefix_append _ _)
  simp only [readMark, hprefix, if_true, List.drop_left' rfl, hdigits, List.head?_cons, true_and]

/-- A mark at the head of a message is read as its id. -/
theorem readMark_mark {n : Nat} (h : n ≤ greatestId) (rest : List Char) :
    readMark (markOpening ++ (digitsOf n ++ ']' :: rest)) = some n := by
  have hlen := length_digitsOf h
  rw [readMark_digits (fun c hc => isAsciiDigit_of_mem hc), digitsValue_digitsOf, if_pos ⟨hlen.1, hlen.2, h⟩]

/-- What is read of digits alone. -/
theorem readId_digits {digits : List Char} (hne : digits ≠ []) (h : ∀ c ∈ digits, isAsciiDigit c = true) :
    readId digits = if digitLimit < digits.length then .error ⟨digits.length⟩
      else .ok (if digitsValue digits ≤ greatestId then some (digitsValue digits) else none) := by
  have hall : digits.all isAsciiDigit = true := List.all_eq_true.mpr h
  rw [readId, List.isEmpty_eq_false_iff.mpr hne, hall, if_neg (by decide)]

/-- Digits alone are read as their id. -/
theorem readId_digitsOf {n : Nat} (h : n ≤ greatestId) : readId (digitsOf n) = .ok (some n) := by
  have hlen := length_digitsOf h
  rw [readId_digits (digitsOf_ne_nil n) (fun c hc => isAsciiDigit_of_mem hc), digitsValue_digitsOf,
    if_neg (by unfold digitLimit; omega), if_pos h]

/-- A character that is in no number. -/
theorem not_mem_digitsOf {c : Char} (h : isAsciiDigit c = false) (n : Nat) : c ∉ digitsOf n := by
  intro hc
  rw [isAsciiDigit_of_mem hc] at h
  cases h

/-- Texts around a number go into a line if the number may be left out. -/
theorem insertable_number {c : Char} {a b : List Char} (hc : Text.isBlank c = false)
    (h : Uncommented (c :: a ++ b)) (n : Nat) : Insertable (c :: a ++ (digitsOf n ++ b)) := by
  have hn : Uncommented (digitsOf n) := ⟨not_mem_digitsOf (by decide) n, not_mem_digitsOf (by decide) n⟩
  have ha := h.sublist (List.sublist_append_left (c :: a) b)
  have hb := h.sublist (List.sublist_append_right (c :: a) b)
  exact ⟨ha.append (hn.append hb), c, a ++ (digitsOf n ++ b), rfl, hc⟩

namespace Entry

variable {e : Entry}

theorem markFor_message (hb : e.before = none) (ha : e.after = none) (n : Nat) :
    (e.markFor n).toList = markOpening ++ (digitsOf n ++ [']', ' ']) := by
  have h : e.markFor n = "[ref: " ++ toString (n : Int) ++ "] " := by
    rw [markFor, hb, ha]
    rfl
  rw [h, String.toList_append, String.toList_append, toList_toString]
  rfl

theorem insertable_message (hb : e.before = none) (ha : e.after = none) (n : Nat) :
    Insertable (e.markFor n).toList ∧ '\n' ∉ (e.markFor n).toList := by
  rw [markFor_message hb ha]
  refine ⟨insertable_number (by decide) (by unfold Uncommented; decide) n, ?_⟩
  simp only [List.mem_append, not_or]
  exact ⟨by decide, not_mem_digitsOf (by decide) n, by decide⟩

/-- A number between two texts, one of which may be missing. -/
theorem markFor_between (h : ¬(e.before = none ∧ e.after = none)) (n : Nat) :
    (e.markFor n).toList = (e.before.getD "").toList ++ (digitsOf n ++ (e.after.getD "").toList) := by
  have hmark : e.markFor n = e.before.getD "" ++ toString (n : Int) ++ e.after.getD "" := by
    rw [markFor]
    split
    · next hb ha => exact absurd ⟨hb, ha⟩ h
    · rfl
  rw [hmark, String.toList_append, String.toList_append, toList_toString, List.append_assoc]

theorem markFor_argument {b a : String} (hb : e.before = some b) (ha : e.after = some a) (n : Nat) :
    (e.markFor n).toList = b.toList ++ (digitsOf n ++ a.toList) := by
  rw [markFor_between (by simp [hb]), hb, ha]
  rfl

theorem insertable_argument {b a : String} (hb : e.before = some b) (ha : e.after = some a)
    (h : b = "ref = ") (h' : a = "; " ∨ a = ", ") (n : Nat) :
    Insertable (e.markFor n).toList ∧ '\n' ∉ (e.markFor n).toList := by
  rw [markFor_argument hb ha, h]
  have hafter : Uncommented ("ref = ".toList ++ a.toList) ∧ '\n' ∉ a.toList := by
    rcases h' with rfl | rfl <;> exact ⟨by unfold Uncommented; decide, by decide⟩
  refine ⟨insertable_number (c := 'r') (a := "ef = ".toList) (by decide) hafter.1 n, ?_⟩
  simp only [List.mem_append, not_or]
  exact ⟨by decide, not_mem_digitsOf (by decide) n, hafter.2⟩

end Entry

theorem isBlank_of_isAsciiDigit {c : Char} (h : isAsciiDigit c = true) : Text.isBlank c = false := by
  obtain ⟨hlo, hhi⟩ := toNat_of_isAsciiDigit h
  simp only [Text.isBlank, Text.inRanges, Text.blankRanges, List.any_cons, List.any_nil, Bool.or_false,
    Bool.or_eq_false_iff, Bool.and_eq_false_iff, decide_eq_false_iff_not]
  omega

theorem trim_digitsOf (n : Nat) : Text.trim (digitsOf n) = digitsOf n := by
  have hshown : ∀ text : List Char, (∀ c ∈ text, c ∈ digitsOf n) → text.dropWhile Text.isBlank = text := by
    intro text h
    cases text with
    | nil => rfl
    | cons c text =>
      rw [List.dropWhile_cons, isBlank_of_isAsciiDigit (isAsciiDigit_of_mem (h c List.mem_cons_self))]
      rfl
  rw [Text.trim, hshown _ fun _ hc => hc, hshown _ fun _ hc => List.mem_reverse.mp hc, List.reverse_reverse]

end LogRef
