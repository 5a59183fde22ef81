import LogRef.Proofs.Reference.Marks

/-!
# The format of references

Reading a mark accepts one form and no other: an opening, one to ten digits and a closing bracket at the head of a
message. Reading an argument accepts plain digits. Each reading gives back the ids that are written for it, and
neither gives a number that does not fit in 32 bits.
-/
namespace LogRef

/-- Plain digits that write a number in base ten. -/
structure Writes (digits : List Char) (n : Nat) : Prop where
  digit : ∀ c ∈ digits, c.isDigit = true
  value : Nat.ofDigitChars 10 digits 0 = n

/-- A message that begins with the mark of a number, whatever comes behind it. -/
def HeadedBy (text : List Char) (n : Nat) : Prop :=
  ∃ digits rest, text = "[ref: ".toList ++ (digits ++ ']' :: rest) ∧ Writes digits n ∧
    1 ≤ digits.length ∧ digits.length ≤ 10

namespace Writes

variable {digits : List Char} {n : Nat}

theorem isAsciiDigit (h : Writes digits n) : ∀ c ∈ digits, isAsciiDigit c = true := fun c hc => by
  rw [isAsciiDigit_eq]
  exact h.digit c hc

theorem digitsValue (h : Writes digits n) : digitsValue digits = n := by
  rw [digitsValue_eq]
  exact h.value

/-- Plain digits write the number that they are taken for. -/
theorem of_isAsciiDigit (h : ∀ c ∈ digits, LogRef.isAsciiDigit c = true) :
    Writes digits (LogRef.digitsValue digits) :=
  ⟨fun c hc => isAsciiDigit_eq c ▸ h c hc, (digitsValue_eq digits).symm⟩

end Writes

theorem writes_digitsOf (n : Nat) : Writes (digitsOf n) n := by
  have h := Writes.of_isAsciiDigit fun c (hc : c ∈ digitsOf n) => isAsciiDigit_of_mem hc
  rwa [digitsValue_digitsOf] at h

/-- A mark that is read is there. -/
theorem headedBy_of_readMark {text : List Char} {n : Nat} (h : readMark text = some n) :
    HeadedBy text n ∧ n ≤ greatestId := by
  rw [readMark] at h
  split at h
  · next hopening =>
    obtain ⟨behind, rfl⟩ := List.isPrefixOf_iff_prefix.mp hopening
    rw [List.drop_left' rfl] at h
    dsimp only at h
    split at h
    · next hmark =>
      obtain ⟨hpos, hten, hend, hle⟩ := hmark
      cases h
      -- the digits are all that there are, so what follows them is the closing bracket
      obtain ⟨tail, htail⟩ := List.takeWhile_prefix (l := behind) isAsciiDigit
      have hdrop : behind.drop (behind.takeWhile isAsciiDigit).length = tail := by
        have hleft : (behind.takeWhile isAsciiDigit ++ tail).drop (behind.takeWhile isAsciiDigit).length = tail :=
          List.drop_left
        rwa [htail] at hleft
      rw [hdrop] at hend
      obtain ⟨rest, rfl⟩ := List.head?_eq_some_iff.mp hend
      refine ⟨⟨behind.takeWhile isAsciiDigit, rest, by rw [htail]; rfl, ?_, hpos, hten⟩, hle⟩
      exact Writes.of_isAsciiDigit fun c hc => (List.mem_takeWhile_imp hc)
    · cases h
  · cases h

theorem readMark_eq_some_iff {text : List Char} {n : Nat} :
    readMark text = some n ↔ HeadedBy text n ∧ n ≤ greatestId := by
  refine ⟨headedBy_of_readMark, ?_⟩
  rintro ⟨⟨digits, rest, rfl, hwrites, hpos, hten⟩, hle⟩
  have hread := readMark_digits hwrites.isAsciiDigit rest
  rw [hwrites.digitsValue, if_pos ⟨hpos, hten, hle⟩] at hread
  exact hread

/-- The digits of a mark are few enough to be read as a number, and this is what is read of the mark. -/
theorem readId_of_mark {digits : List Char} {n : Nat} (h : Writes digits n) (hpos : 1 ≤ digits.length)
    (hten : digits.length ≤ 10) (rest : List Char) :
    readId digits = .ok (readMark ("[ref: ".toList ++ (digits ++ ']' :: rest))) := by
  have hmark := readMark_digits h.isAsciiDigit rest
  have hfew : ¬ digitLimit < digits.length := by
    unfold digitLimit
    omega
  rw [readId_digits (List.ne_nil_of_length_pos hpos) h.isAsciiDigit, if_neg hfew]
  simp only [hpos, hten, true_and] at hmark
  exact congrArg Except.ok hmark.symm

theorem readId_eq_some_iff {text : List Char} {n : Nat} :
    readId text = .ok (some n) ↔ text ≠ [] ∧ Writes text n ∧ text.length ≤ digitLimit ∧ n ≤ greatestId := by
  constructor
  · intro h
    have hshape : text ≠ [] ∧ ∀ c ∈ text, isAsciiDigit c = true := by
      rw [readId] at h
      split at h
      · cases h
      · next hdigits => simpa using hdigits
    rw [readId_digits hshape.1 hshape.2] at h
    split at h
    · cases h
    · next hfew =>
      split at h
      · next hle =>
        cases h
        exact ⟨hshape.1, Writes.of_isAsciiDigit hshape.2, Nat.not_lt.mp hfew, hle⟩
      · cases h
  · rintro ⟨hne, hwrites, hfew, hle⟩
    rw [readId_digits hne hwrites.isAsciiDigit, if_neg (Nat.not_lt.mpr hfew), hwrites.digitsValue, if_pos hle]

/-- Nothing is read of the digits of a number that is no id. -/
theorem readId_digitsOf_large {n : Nat} (h : greatestId < n) (m : Nat) : readId (digitsOf n) ≠ .ok (some m) := by
  intro hread
  obtain ⟨_, hwrites, _, hle⟩ := readId_eq_some_iff.mp hread
  -- digits write one number only
  have hsame : m = n := hwrites.value.symm.trans (writes_digitsOf n).value
  omega

/-- What is read of the mark written for a number, whether or not it is an id. -/
theorem readMark_written {e : Entry} (hb : e.before = none) (ha : e.after = none) (n : Nat) (text : List Char) :
    readMark ((e.markFor n).toList ++ text) = if n ≤ greatestId then some n else none := by
  have htext : (e.markFor n).toList ++ text = markOpening ++ (digitsOf n ++ ']' :: (' ' :: text)) := by
    rw [e.markFor_message hb ha]
    simp
  rw [htext]
  split
  · next hle => exact readMark_mark hle _
  · next hgt =>
    have hdigits := writes_digitsOf n
    rw [readMark_digits hdigits.isAsciiDigit, hdigits.digitsValue, if_neg fun h => hgt h.2.2]

/-- References are read back exactly. A mark is read if and only if it heads the message and its number is an id, and
reading its digits does not fail; an argument is read if and only if it is plain digits, not too many, and their number
is an id. What is written for an id is read as that id, in a message and as an argument, and nothing is read of what is
written for a greater number. -/
theorem references_read_back :
    (∀ text n, readMark text = some n ↔ HeadedBy text n ∧ n ≤ 4294967295) ∧
    (∀ digits n rest, Writes digits n → 1 ≤ digits.length → digits.length ≤ 10 →
      readId digits = .ok (readMark ("[ref: ".toList ++ (digits ++ ']' :: rest)))) ∧
    (∀ text n, readId text = .ok (some n) ↔
      text ≠ [] ∧ Writes text n ∧ text.length ≤ 4300 ∧ n ≤ 4294967295) ∧
    (∀ (e : Entry) (n : Nat) (text : List Char), e.before = none → e.after = none →
      readMark ((e.markFor n).toList ++ text) = if n ≤ 4294967295 then some n else none) ∧
    ∀ (e : Entry) (n : Nat), ¬(e.before = none ∧ e.after = none) →
      (e.markFor n).toList = (e.before.getD "").toList ++ (digitsOf n ++ (e.after.getD "").toList) ∧
      (n ≤ 4294967295 → readId (digitsOf n) = .ok (some n)) ∧
      (4294967295 < n → ∀ m, readId (digitsOf n) ≠ .ok (some m)) :=
  ⟨fun _ _ => readMark_eq_some_iff, fun _ _ rest h hpos hten => readId_of_mark h hpos hten rest,
    fun _ _ => readId_eq_some_iff, fun _ n text hb ha => readMark_written hb ha n text,
    fun e n h => ⟨e.markFor_between h n, readId_digitsOf, readId_digitsOf_large⟩⟩

/-- The greatest id is read back from a message that goes on with digits and a bracket, and from an argument; the number
behind it is read back from neither. -/
theorem greatest_id_read_back :
    let inMessage : Entry := ⟨⟨0, 1, 1⟩, none, "info", .message, none, none⟩
    let inArgument : Entry := ⟨⟨0, 1, 1⟩, none, "info", .newArgument, some "ref = ", some "; "⟩
    readMark ((inMessage.markFor 4294967295).toList ++ "7] x".toList) = some 4294967295 ∧
    readMark ((inMessage.markFor 4294967296).toList ++ "7] x".toList) = none ∧
    (inArgument.markFor 4294967295).toList = "ref = ".toList ++ (digitsOf 4294967295 ++ "; ".toList) ∧
    readId (digitsOf 4294967295) = .ok (some 4294967295) ∧
    ∀ m, readId (digitsOf 4294967296) ≠ .ok (some m) := by
  intro inMessage inArgument
  obtain ⟨_, _, _, hmessage, hargument⟩ := references_read_back
  have hset : ¬(inArgument.before = none ∧ inArgument.after = none) := by simp [inArgument]
  obtain ⟨htext, hread, _⟩ := hargument inArgument 4294967295 hset
  obtain ⟨_, _, hlarge⟩ := hargument inArgument 4294967296 hset
  exact ⟨hmessage inMessage 4294967295 _ rfl rfl, hmessage inMessage 4294967296 _ rfl rfl, htext, hread (by decide),
    hlarge (by decide)⟩

end LogRef
