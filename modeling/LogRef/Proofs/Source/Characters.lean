import LogRef.Proofs.Source.Edits
import LogRef.Proofs.Text.Encoding

/-!
# Edits between characters

Texts that go between the characters of a source make the same edit of its characters. Next to a byte below
128 there is always such a place.
-/
namespace LogRef

/-- The offset where a character of the code begins. -/
def byteOffset (code : List Char) (i : Nat) : Nat := (Utf8.encode (code.take i)).length

namespace Edits

variable (e : Edits)

/-- The text put in before a character. -/
def charText (code : List Char) (i : Nat) : List Char := e.text (byteOffset code i)

/-- Every text goes between two characters. -/
def BetweenChars (code : List Char) : Prop :=
  ∀ p, e.text p ≠ [] → ∃ i, i ≤ code.length ∧ p = byteOffset code i

end Edits

theorem byteOffset_mono (code : List Char) {i j : Nat} (h : i ≤ j) :
    byteOffset code i ≤ byteOffset code j := by
  obtain ⟨rest, hrest⟩ := List.take_prefix_take_left (l := code) h
  rw [byteOffset, byteOffset, ← hrest, Utf8.encode_append, List.length_append]
  omega

theorem byteOffset_succ {code : List Char} {i : Nat} {c : Char} (h : code[i]? = some c) :
    byteOffset code (i + 1) = byteOffset code i + (Utf8.encodeChar c).length := by
  rw [byteOffset, byteOffset, List.take_add_one, h, Utf8.encode_append, List.length_append]
  simp [Utf8.encode]

theorem byteOffset_inj {code : List Char} {i j : Nat} (hi : i ≤ code.length) (hj : j ≤ code.length)
    (h : byteOffset code i = byteOffset code j) : i = j := by
  have hlt : ∀ {i j : Nat}, i < j → j ≤ code.length → byteOffset code i < byteOffset code j := by
    intro i j hij hj
    have hget := List.getElem?_eq_getElem (l := code) (i := i) (by omega)
    have hstep := byteOffset_succ hget
    have hpos := List.length_pos_iff.mpr (Utf8.encodeChar_ne_nil code[i])
    have hmono := byteOffset_mono code (show i + 1 ≤ j from hij)
    omega
  rcases Nat.lt_trichotomy i j with hij | hij | hij
  · have := hlt hij hj
    omega
  · exact hij
  · have := hlt hij hi
    omega

namespace Edits

variable {e : Edits} {code : List Char}

theorem weave_encode (h : e.BetweenChars code) {passed rest : List Char} (hcode : code = passed ++ rest) :
    weave e.mark (byteOffset code passed.length) (Utf8.encode rest) =
      Utf8.encode (weave (e.charText code) passed.length rest) := by
  induction rest generalizing passed with
  | nil => rfl
  | cons c rest ih =>
    have hnext := @ih (passed ++ [c]) (by rw [hcode]; simp)
    have hget : code[passed.length]? = some c := by rw [hcode]; simp
    have hstep := byteOffset_succ hget
    obtain ⟨b, bs, hb, _⟩ := Utf8.encodeChar_follows c
    rw [hb, List.length_cons] at hstep
    -- no text goes inside of the character
    have hinside : weave e.mark (byteOffset code passed.length + 1) bs = bs := by
      refine weave_eq_self _ fun j hj hlt => mark_eq_nil ?_
      refine Decidable.byContradiction fun htext => ?_
      obtain ⟨i, _, rfl⟩ := h j htext
      rcases Nat.lt_or_ge passed.length i with hi | hi
      · have := byteOffset_mono code (show passed.length + 1 ≤ i from hi)
        omega
      · have := byteOffset_mono code hi
        omega
    rw [List.length_append, List.length_singleton, hstep] at hnext
    rw [Utf8.encode_cons, hb, List.cons_append, weave, weave_append, hinside, weave, Utf8.encode_append,
      Utf8.encode_cons, hb, ← hnext]
    simp only [mark, charText, List.cons_append, Nat.add_assoc, Nat.add_comm 1]

/-- The characters of an edited source are its characters, edited. -/
theorem apply_encode (h : e.BetweenChars code) :
    e.apply (Utf8.encode code) = Utf8.encode (weave (e.charText code) 0 code) :=
  weave_encode h (show code = [] ++ code from rfl)

end Edits

/-- A byte below 128 is a character of the code. -/
theorem char_of_ascii {code : List Char} {k : Nat} {b : UInt8} (h : (Utf8.encode code)[k]? = some b)
    (hb : b.toNat < 0x80) : ∃ i c, code[i]? = some c ∧ c.toNat = b.toNat ∧ byteOffset code i = k ∧
      byteOffset code (i + 1) = k + 1 := by
  induction code generalizing k with
  | nil => cases h
  | cons c code ih =>
    rw [Utf8.encode_cons] at h
    rcases Nat.lt_or_ge k (Utf8.encodeChar c).length with hk | hk
    · rw [List.getElem?_append_left hk] at h
      obtain ⟨hsingle, hn⟩ := Utf8.encodeChar_of_mem_ascii (List.mem_of_getElem? h) hb
      rw [hsingle, List.length_singleton] at hk
      obtain rfl : k = 0 := by omega
      refine ⟨0, c, rfl, hn, rfl, ?_⟩
      simp [byteOffset, Utf8.encode, hsingle]
    · rw [List.getElem?_append_right hk] at h
      obtain ⟨i, d, hd, hn, hi, hi'⟩ := ih h
      have hshift (j : Nat) : byteOffset (c :: code) (j + 1) =
          (Utf8.encodeChar c).length + byteOffset code j := by
        rw [byteOffset, List.take_succ_cons, Utf8.encode_cons, List.length_append]
        rfl
      exact ⟨i + 1, d, hd, hn, by rw [hshift]; omega, by rw [hshift]; omega⟩

end LogRef
