import LogRef.Directive.Scope
import LogRef.Proofs.Source.Edits
import LogRef.Proofs.Text.Encoding
import LogRef.Source.Span

/-!
# Line numbers

The line of an offset is one more than the number of line feeds before it, and the lines before the one that
begins at a given place are that many lines of the text. Texts without a line feed put into a source leave
the line of everything in it.
-/
namespace LogRef

section

variable {α : Type} [DecidableEq α] {newline : α}

theorem lineStartsFrom_succ (position : Nat) (xs : List α) :
    lineStartsFrom newline (position + 1) xs = (lineStartsFrom newline position xs).map (· + 1) := by
  induction xs generalizing position with
  | nil => rfl
  | cons x xs ih =>
    simp only [lineStartsFrom]
    split
    · rw [ih, List.map_cons]
    · rw [ih]

theorem lt_of_mem_lineStartsFrom {position s : Nat} {xs : List α}
    (h : s ∈ lineStartsFrom newline position xs) : position < s := by
  induction xs generalizing position with
  | nil => cases h
  | cons x xs ih =>
    rw [lineStartsFrom] at h
    split at h
    · rcases List.mem_cons.mp h with rfl | h
      · exact Nat.lt_succ_self position
      · have := ih h
        omega
    · have := ih h
      omega

theorem length_lineStartsFrom (position : Nat) (xs : List α) :
    (lineStartsFrom newline position xs).length = xs.count newline := by
  induction xs generalizing position with
  | nil => rfl
  | cons x xs ih =>
    rw [lineStartsFrom, List.count_cons]
    split
    · next h => rw [List.length_cons, ih, beq_iff_eq.mpr h, if_pos rfl]
    · next h => rw [ih, beq_eq_false_iff_ne.mpr h, if_neg Bool.false_ne_true, Nat.add_zero]

theorem lineStarts_cons (x : α) (xs : List α) : lineStarts newline (x :: xs) =
    0 :: (if x = newline then lineStarts newline xs else (lineStarts newline xs).tail).map (· + 1) := by
  simp only [lineStarts, lineStartsFrom]
  split
  · rw [lineStartsFrom_succ, List.map_cons]
  · rw [lineStartsFrom_succ, List.tail_cons]

/-- The lines begun up to an offset are those that begin behind a line feed before it. -/
theorem length_takeWhile_lineStartsFrom {position : Nat} {offset : Int} (h : position ≤ offset)
    (xs : List α) :
    ((lineStartsFrom newline position xs).takeWhile fun (s : Nat) => (s : Int) ≤ offset).length =
      (xs.take (offset.toNat - position)).count newline := by
  induction xs generalizing position with
  | nil => simp [lineStartsFrom]
  | cons x xs ih =>
    by_cases hlt : (position : Int) < offset
    · have hstep := @ih (position + 1) (by omega)
      have hn : offset.toNat - position = (offset.toNat - (position + 1)) + 1 := by omega
      rw [lineStartsFrom, hn, List.take_succ_cons, List.count_cons]
      split
      · next hx =>
        rw [List.takeWhile_cons_of_pos (by simp only [decide_eq_true_eq]; omega), List.length_cons,
          hstep, beq_iff_eq.mpr hx, if_pos rfl]
      · next hx =>
        rw [hstep, beq_eq_false_iff_ne.mpr hx, if_neg Bool.false_ne_true]
        rfl
    · have hn : offset.toNat - position = 0 := by omega
      rw [hn, List.take_zero, List.count_nil, List.length_eq_zero_iff, List.takeWhile_eq_nil_iff]
      intro hpos
      have := lt_of_mem_lineStartsFrom (List.get_mem _ ⟨0, hpos⟩)
      simp only [decide_eq_true_eq]
      omega

end

theorem Span.line_ofRange {source : Bytes} {start stop : Int} (h : 0 ≤ start) :
    (Span.ofRange (byteLineStarts source) start stop).line =
      (source.take start.toNat).count lineFeed + 1 := by
  simp only [Span.ofRange, byteLineStarts, lineStarts]
  rw [List.takeWhile_cons_of_pos (by simpa using h), List.length_cons,
    length_takeWhile_lineStartsFrom (by simpa using h), Nat.sub_zero]
  rfl

namespace Text

theorem splitOn_ne_nil (sep : Char) (text : List Char) : splitOn sep text ≠ [] := by
  cases text with
  | nil => exact List.cons_ne_nil _ _
  | cons c rest =>
    rw [splitOn]
    split
    · exact List.cons_ne_nil _ _
    · split <;> exact List.cons_ne_nil _ _

/-- Cutting a text where its line `k` begins gives its first `k` lines. -/
theorem splitOn_take_lineStart {sep : Char} {text : List Char} {k o : Nat}
    (h : (lineStarts sep text)[k]? = some o) :
    splitOn sep (text.take o) = (splitOn sep text).take k ++ [[]] := by
  induction text generalizing k o with
  | nil =>
    cases k with
    | zero =>
      obtain rfl : 0 = o := Option.some.inj h
      rfl
    | succ k => cases h
  | cons c rest ih =>
    rw [lineStarts_cons] at h
    cases k with
    | zero =>
      obtain rfl : 0 = o := Option.some.inj h
      rfl
    | succ k =>
      rw [List.getElem?_cons_succ, List.getElem?_map] at h
      obtain ⟨o, ho, rfl⟩ := Option.map_eq_some_iff.mp h
      rw [List.take_succ_cons, splitOn, splitOn]
      split at ho
      · next hc => rw [if_pos hc, if_pos hc, ih ho, List.take_succ_cons, List.cons_append]
      · next hc =>
        rw [List.getElem?_tail] at ho
        rw [if_neg hc, if_neg hc, ih ho]
        cases hrest : splitOn sep rest with
        | nil => exact absurd hrest (splitOn_ne_nil sep rest)
        | cons piece pieces => rfl

theorem splitOn_of_not_mem {sep : Char} {part : List Char} (h : sep ∉ part) : splitOn sep part = [part] := by
  induction part with
  | nil => rfl
  | cons c part ih =>
    rw [List.mem_cons, not_or] at h
    rw [splitOn, if_neg (Ne.symm h.1), ih h.2]

/-- What follows the last separator belongs to the last piece. -/
theorem dropLast_splitOn_append {sep : Char} {part : List Char} (h : sep ∉ part) (text : List Char) :
    (splitOn sep (text ++ part)).dropLast = (splitOn sep text).dropLast := by
  induction text with
  | nil =>
    rw [List.nil_append, splitOn_of_not_mem h]
    rfl
  | cons c text ih =>
    obtain ⟨piece, pieces, hpieces⟩ := List.exists_cons_of_ne_nil (splitOn_ne_nil sep text)
    obtain ⟨piece', pieces', hpieces'⟩ := List.exists_cons_of_ne_nil (splitOn_ne_nil sep (text ++ part))
    rw [hpieces, hpieces'] at ih
    rw [List.cons_append, splitOn, splitOn, hpieces, hpieces']
    split
    · rw [List.dropLast_cons_cons, List.dropLast_cons_cons, ih]
    · cases pieces with
      | nil =>
        cases pieces' with
        | nil => rfl
        | cons more rest => cases ih
      | cons next pieces =>
        cases pieces' with
        | nil => cases ih
        | cons next' pieces' =>
          rw [List.dropLast_cons_cons, List.dropLast_cons_cons, List.cons.injEq] at ih
          rw [List.dropLast_cons_cons, List.dropLast_cons_cons, ih.1, ih.2]

end Text

/-- The lines before an offset can be told from all of the text before it. -/
theorem linesBefore_eq_split (code : List Char) (offset : Nat) :
    linesBefore code offset = (Text.splitOn '\n' (code.take offset)).dropLast := by
  -- up to the last line feed, and the part of a line behind it
  let whole := ((code.take offset).reverse.dropWhile (· != '\n')).reverse
  let part := ((code.take offset).reverse.takeWhile (· != '\n')).reverse
  have hsplit : code.take offset = whole ++ part := by
    rw [← List.reverse_append, List.takeWhile_append_dropWhile, List.reverse_reverse]
  have hpart : '\n' ∉ part := by
    intro hmem
    simpa using List.mem_takeWhile_imp (List.mem_reverse.mp hmem)
  have hwhole : whole = code.take (lineStart code offset) := by
    have hprefix : whole <+: code := (hsplit ▸ List.prefix_append whole part).trans (List.take_prefix offset code)
    rw [lineStart, ← List.length_reverse]
    exact List.prefix_iff_eq_take.mp hprefix
  rw [linesBefore, ← hwhole, hsplit, Text.dropLast_splitOn_append hpart]

/-- The lines before the one that begins at `k`-th place are the first `k` lines. -/
theorem linesBefore_lineStart {code : List Char} {k : Nat} (h : k ≤ code.count '\n') :
    linesBefore code ((charLineStarts code).getD k 0) = (Text.splitOn '\n' code).take k := by
  have hlen : (charLineStarts code).length = code.count '\n' + 1 := by
    rw [charLineStarts, lineStarts, List.length_cons, length_lineStartsFrom]
  have hget : (charLineStarts code)[k]? = some ((charLineStarts code).getD k 0) := by
    rw [List.getD_eq_getElem?_getD, List.getElem?_eq_getElem (by omega), Option.getD_some]
  rw [linesBefore_eq_split, Text.splitOn_take_lineStart hget, List.dropLast_concat]

theorem Utf8.count_encode (code : List Char) : (encode code).count lineFeed = code.count '\n' := by
  induction code with
  | nil => rfl
  | cons c code ih =>
    rw [encode_cons, List.count_append, ih, List.count_cons, Nat.add_comm]
    congr 1
    split
    · next hc =>
      rw [beq_iff_eq.mp hc]
      rfl
    · next hc =>
      refine List.count_eq_zero.mpr fun hmem => ?_
      obtain ⟨_, hn⟩ := encodeChar_of_mem_ascii hmem (by decide)
      refine hc (beq_iff_eq.mpr ?_)
      rw [← Char.ofNat_toNat c, hn]
      rfl

theorem count_weave {α : Type} [BEq α] {mark : Nat → List α} {x : α} (h : ∀ i, (mark i).count x = 0)
    (i : Nat) (s : List α) : (weave mark i s).count x = s.count x := by
  induction s generalizing i with
  | nil => rfl
  | cons y s ih => rw [weave, List.count_append, h, Nat.zero_add, List.count_cons, List.count_cons, ih]

/-- Texts without a line feed leave the line of everything in a source. -/
theorem Edits.line_right {e : Edits} {source : Bytes} (h : ∀ p, '\n' ∉ e.text p) {p : Int} (h0 : 0 ≤ p)
    (h1 : p ≤ source.length) :
    ((e.apply source).take (e.right p).toNat).count lineFeed = (source.take p.toNat).count lineFeed := by
  have hmark (i : Nat) : (e.mark i).count lineFeed = 0 := by
    rw [mark, Utf8.count_encode]
    exact List.count_eq_zero.mpr (h i)
  have hk : p.toNat ≤ source.length := by omega
  rw [right, Int.toNat_natCast, rightOf, List.take_add, apply, take_weave _ hk, drop_weave _ hk,
    List.count_append, count_weave hmark]
  cases hs : source.drop p.toNat with
  | nil => rw [weave, List.take_nil, List.count_nil, Nat.add_zero]
  | cons x rest => rw [weave, List.take_left' rfl, hmark, Nat.add_zero]

end LogRef
