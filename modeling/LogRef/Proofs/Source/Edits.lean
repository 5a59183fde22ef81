import LogRef.Proofs.Text.Weave
import LogRef.Syntax.Token

/-!
# Edits of a source

Texts put into a source at given offsets, and where its offsets are afterwards. What begins at an offset is
found behind the text put in there, what ends at it is found before. A text goes to the head of a string
literal, or between tokens as a new argument.
-/
namespace LogRef

/-- Texts put into a source: the one at `p` goes before the byte at `p`. -/
structure Edits where
  text : Nat → List Char
  /-- What a new argument reads as; there is nothing to read of a text in a string literal. -/
  tokens : Nat → List Token

namespace Edits

variable (e : Edits)

def mark (p : Nat) : Bytes := Utf8.encode (e.text p)

/-- The source with the texts put in. -/
def apply (source : Bytes) : Bytes := weave e.mark 0 source

/-- Where an offset is afterwards, as the end of something. -/
def left (p : Int) : Int := leftOf e.mark p.toNat

/-- Where an offset is afterwards, as the beginning of something. -/
def right (p : Int) : Int := rightOf e.mark p.toNat

/-- No text is put in strictly between two offsets. -/
def Quiet (a b : Int) : Prop := ∀ p : Nat, e.text p ≠ [] → a < p → b ≤ p

variable {e} {a b p q : Int} {source : Bytes}

theorem Quiet.text_eq_nil (h : e.Quiet a b) {p : Nat} (ha : a < p) (hb : p < b) : e.text p = [] := by
  refine Decidable.byContradiction fun hne => ?_
  have := h p hne ha
  omega

theorem Quiet.mono (h : e.Quiet a b) (ha : a ≤ p) (hb : q ≤ b) : e.Quiet p q := fun r hr hlt =>
  Int.le_trans hb (h r hr (Int.lt_of_le_of_lt ha hlt))

theorem left_nonneg : 0 ≤ e.left p := Int.natCast_nonneg _

theorem left_le_right : e.left p ≤ e.right p := Int.ofNat_le.mpr (leftOf_le_rightOf _ _)

theorem right_nonneg : 0 ≤ e.right p := Int.natCast_nonneg _

theorem mark_eq_nil {p : Nat} (h : e.text p = []) : e.mark p = [] := by
  rw [mark, h]
  rfl

theorem right_eq_left (h : e.text p.toNat = []) : e.right p = e.left p := by
  rw [right, left, rightOf_eq_leftOf _ (mark_eq_nil h)]

theorem right_lt_left (h0 : 0 ≤ p) (h : p < q) : e.right p < e.left q :=
  Int.ofNat_lt.mpr (rightOf_lt_leftOf _ (by omega))

theorem left_mono (h : p ≤ q) : e.left p ≤ e.left q :=
  Int.ofNat_le.mpr (leftOf_mono _ (Int.toNat_le_toNat h))

theorem right_strictMono (h0 : 0 ≤ p) (h : p < q) : e.right p < e.right q :=
  Int.lt_of_lt_of_le (right_lt_left h0 h) left_le_right

theorem right_le_right_iff (hp : 0 ≤ p) (hq : 0 ≤ q) : e.right p ≤ e.right q ↔ p ≤ q := by
  constructor
  · intro h
    refine Int.not_lt.mp fun hlt => ?_
    have := right_strictMono (e := e) hq hlt
    omega
  · intro h
    rcases Int.lt_or_eq_of_le h with hlt | rfl
    · exact Int.le_of_lt (right_strictMono hp hlt)
    · exact Int.le_refl _

theorem left_lt_left (h0 : 0 ≤ p) (h : p < q) : e.left p < e.left q :=
  Int.lt_of_le_of_lt left_le_right (right_lt_left h0 h)

theorem le_left (h : 0 ≤ p) : p ≤ e.left p := by
  have := le_leftOf e.mark p.toNat
  rw [left]
  omega

theorem left_succ (h : 0 ≤ p) : e.left (p + 1) = e.right p + 1 := by
  have hp : (p + 1).toNat = p.toNat + 1 := by omega
  rw [left, right, hp, leftOf_succ]
  rfl

theorem length_apply : ((e.apply source).length : Int) = e.left source.length := by
  rw [apply, length_weave_zero, left, Int.toNat_natCast]

theorem left_le_length (h : p ≤ source.length) : e.left p ≤ (e.apply source).length := by
  rw [length_apply]
  exact left_mono h

/-- With nothing put in at the end of the source, beginnings stay in it too. -/
theorem right_le_length (hin : ∀ q : Nat, e.text q ≠ [] → q < source.length) (h0 : 0 ≤ p) (h : p ≤ source.length) :
    e.right p ≤ (e.apply source).length := by
  by_cases htext : e.text p.toNat = []
  · rw [right_eq_left htext]
    exact left_le_length h
  · have hlt := hin _ htext
    have := right_lt_left (e := e) h0 (show p < source.length by omega)
    rw [length_apply]
    omega

/-- Where nothing is put in, distances stay. -/
theorem left_add (h0 : 0 ≤ a) (hq : e.Quiet a b) {n : Int} (hn : 0 < n) (hb : a + n ≤ b) :
    e.left (a + n) = e.right a + n := by
  have hnat : (a + n).toNat = (a.toNat + 1) + (n - 1).toNat := by omega
  have hdist : leftOf e.mark (a.toNat + 1 + (n - 1).toNat) = leftOf e.mark (a.toNat + 1) + (n - 1).toNat := by
    exact leftOf_add _ _ fun j hj hlt => mark_eq_nil (hq.text_eq_nil (by omega) (by omega))
  rw [left, right, hnat, hdist, leftOf_succ]
  omega

theorem right_add (h0 : 0 ≤ a) (hq : e.Quiet a b) {n : Int} (hn : 0 ≤ n) (hb : a + n < b) :
    e.right (a + n) = e.right a + n := by
  rcases Int.lt_or_eq_of_le hn with hpos | rfl
  · have hnil : e.text (a + n).toNat = [] := hq.text_eq_nil (by omega) (by omega)
    rw [right_eq_left hnil, left_add h0 hq hpos (Int.le_of_lt hb)]
  · rw [Int.add_zero, Int.add_zero]

end Edits

theorem Bytes.slice_eq {source : Bytes} {a b : Int} (ha : 0 ≤ a) (hb : 0 ≤ b) :
    source.slice a b = (source.take b.toNat).drop a.toNat := by
  rw [Bytes.slice, clampOffset, clampOffset, if_neg (by omega), if_neg (by omega)]

theorem Bytes.slice_append (source : Bytes) {a b c : Int} (ha : 0 ≤ a) (hab : a ≤ b) (hbc : b ≤ c) :
    source.slice a b ++ source.slice b c = source.slice a c := by
  rw [slice_eq ha (by omega), slice_eq (by omega) (by omega), slice_eq ha (by omega)]
  have hfront : (source.take b.toNat).drop a.toNat =
      ((source.take c.toNat).drop a.toNat).take (b.toNat - a.toNat) := by
    rw [← List.drop_take, List.take_take, Nat.min_eq_left (by omega)]
  have hback : (source.take c.toNat).drop b.toNat =
      ((source.take c.toNat).drop a.toNat).drop (b.toNat - a.toNat) := by
    rw [List.drop_drop, Nat.add_sub_cancel' (by omega)]
  rw [hfront, hback, List.take_append_drop]

theorem Bytes.slice_self (source : Bytes) (a : Int) : source.slice a a = [] := by
  rw [Bytes.slice, List.drop_take, Nat.sub_self, List.take_zero]

theorem Bytes.length_slice (source : Bytes) {a b : Int} (ha : 0 ≤ a) (hab : a ≤ b)
    (hb : b ≤ source.length) : ((source.slice a b).length : Int) = b - a := by
  rw [Bytes.slice_eq ha (by omega), List.length_drop, List.length_take]
  omega

theorem Bytes.getElem?_of_slice {source : Bytes} {a b : Int} (ha : 0 ≤ a) (hb : 0 ≤ b) {k : Nat} {x : UInt8}
    (h : (source.slice a b)[k]? = some x) : source[a.toNat + k]? = some x := by
  rw [Bytes.slice_eq ha hb, List.getElem?_drop, List.getElem?_take] at h
  split at h
  · exact h
  · cases h

/-- A stretch of two pieces of text is cut between them. -/
theorem Bytes.slice_split (source : Bytes) {a c : Int} (ha : 0 ≤ a) (hac : a ≤ c) (hc : c ≤ source.length)
    {x y : Bytes} (h : source.slice a c = x ++ y) :
    source.slice a (a + x.length) = x ∧ source.slice (a + x.length) c = y := by
  have hlen := Bytes.length_slice source ha hac hc
  rw [h, List.length_append] at hlen
  have hsplit : source.slice a (a + x.length) ++ source.slice (a + x.length) c = x ++ y := by
    rw [Bytes.slice_append source ha (by omega) (by omega), h]
  refine List.append_inj hsplit ?_
  have := Bytes.length_slice source ha (show a ≤ a + x.length by omega) (by omega)
  omega

namespace Edits

variable {e : Edits} {a b : Int} {source : Bytes}

theorem slice_mark {p : Nat} (h : p < source.length) :
    (e.apply source).slice (e.left p) (e.right p) = e.mark p := by
  rw [Bytes.slice_eq left_nonneg right_nonneg, left, right, Int.toNat_natCast, Int.toNat_natCast,
    Int.toNat_natCast, apply]
  exact slice_weave_mark _ h

/-- A stretch of the source into which nothing is put is found again. -/
theorem slice_apply (h0 : 0 ≤ a) (hab : a ≤ b) (hb : b ≤ source.length) (hq : e.Quiet a b) :
    (e.apply source).slice (e.right a) (e.left b) = source.slice a b := by
  rw [Bytes.slice_eq right_nonneg left_nonneg, Bytes.slice_eq h0 (by omega), left, right,
    Int.toNat_natCast, Int.toNat_natCast, apply]
  exact slice_weave_eq _ (by omega) (by omega) fun j hj hlt =>
    mark_eq_nil (hq.text_eq_nil (by omega) (by omega))

/-- The head of such a stretch is found again, whether or not it is empty. -/
theorem slice_apply_right (h0 : 0 ≤ a) {p : Int} (hap : a ≤ p) (hpb : p < b) (hb : b ≤ source.length)
    (hq : e.Quiet a b) : (e.apply source).slice (e.right a) (e.right p) = source.slice a p := by
  rcases Int.lt_or_eq_of_le hap with hlt | rfl
  · have hnil : e.text p.toNat = [] := hq.text_eq_nil (by omega) (by omega)
    rw [right_eq_left hnil]
    exact slice_apply h0 hap (by omega) (hq.mono (Int.le_refl a) (by omega))
  · rw [Bytes.slice_self, Bytes.slice_self]

/-- A stretch with one text in it is found again with the text put in. -/
theorem slice_apply_around {p : Nat} (h0 : 0 ≤ a) (hap : a < p) (hpb : p < b) (hb : b ≤ source.length)
    (hfront : e.Quiet a p) (hback : e.Quiet p b) : (e.apply source).slice (e.right a) (e.left b) =
      source.slice a p ++ (e.mark p ++ source.slice p b) := by
  have hp : (0 : Int) ≤ p := Int.natCast_nonneg p
  have hle := Int.le_of_lt hap
  have hle' := Int.le_of_lt hpb
  rw [← Bytes.slice_append (e.apply source) right_nonneg (Int.le_of_lt (right_lt_left h0 hap)) (left_mono hle'),
    ← Bytes.slice_append (e.apply source) left_nonneg left_le_right (Int.le_of_lt (right_lt_left hp hpb)),
    slice_apply h0 hle (Int.le_trans hle' hb) hfront, slice_mark (by omega), slice_apply hp hle' hb hback]

end Edits

end LogRef
