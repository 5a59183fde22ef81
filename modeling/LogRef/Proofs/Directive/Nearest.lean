import LogRef.Proofs.Directive.Stability

/-!
# The scope of a directive

A directive is about an offset if it stands on the last line with text on it before the line that holds the offset.
So only the lines that end before an offset count, and of these the blank ones do not.
-/
namespace LogRef

open Text

/-- Lines, each with its line feed. -/
def ended (lines : List (List Char)) : List Char := lines.flatMap (· ++ ['\n'])

/-- The lines of a text that end before an offset: the offset is on the line behind them, past a first part of it. -/
structure LinesUpTo (before : List (List Char)) (code : List Char) (offset : Nat) : Prop where
  whole : ∀ line ∈ before, '\n' ∉ line
  text : ∃ part rest, code = ended before ++ (part ++ rest) ∧ offset = (ended before).length + part.length ∧
    '\n' ∉ part

/-- A line on which a comment names a directive. -/
def NamesDirective (pattern : CommentPattern) (name line : List Char) : Prop :=
  ∃ groups, pattern (trim line) = some groups ∧ ∃ text, some text ∈ groups ∧ trim (lower text) = lower name

/-- The last line that is not blank names a directive. -/
def LastNamesDirective (pattern : CommentPattern) (name : List Char) (before : List (List Char)) : Prop :=
  ∃ front line blanks, before = front ++ line :: blanks ∧ trim line ≠ [] ∧ (∀ blank ∈ blanks, trim blank = []) ∧
    NamesDirective pattern name line

theorem isDirectiveLine_iff {pattern : CommentPattern} {name line : List Char} :
    isDirectiveLine pattern name (trim line) = true ↔ NamesDirective pattern name line := by
  unfold isDirectiveLine NamesDirective
  cases pattern (trim line) with
  | none => simp
  | some groups =>
    constructor
    · intro h
      obtain ⟨group, hgroup, htext⟩ := List.any_eq_true.mp h
      cases group with
      | none => cases htext
      | some text => exact ⟨groups, rfl, text, hgroup, beq_iff_eq.mp htext⟩
    · rintro ⟨_, hgroups, text, htext, hname⟩
      cases hgroups
      exact List.any_eq_true.mpr ⟨some text, htext, beq_iff_eq.mpr hname⟩

/-! ## The lines before an offset -/

theorem splitOn_ended {lines : List (List Char)} {part : List Char} (h : ∀ line ∈ lines, '\n' ∉ line)
    (hpart : '\n' ∉ part) : splitOn '\n' (ended lines ++ part) = lines ++ [part] := by
  induction lines with
  | nil =>
    have hsplit := splitOn_append hpart []
    rw [List.append_nil] at hsplit
    rw [ended, List.flatMap_nil, List.nil_append, hsplit, splitOn, startWith, List.append_nil]
    rfl
  | cons line lines ih =>
    have hrest := ih fun l hl => h l (List.mem_cons_of_mem _ hl)
    have htext : ended (line :: lines) ++ part = line ++ '\n' :: (ended lines ++ part) := by simp [ended]
    rw [htext, splitOn_append (h line List.mem_cons_self), splitOn, if_pos rfl, hrest, startWith, List.append_nil]
    rfl

namespace LinesUpTo

variable {before : List (List Char)} {code : List Char} {offset : Nat}

theorem linesBefore_eq (h : LinesUpTo before code offset) : linesBefore code offset = before := by
  obtain ⟨part, rest, rfl, rfl, hpart⟩ := h.text
  have htake : (ended before ++ (part ++ rest)).take ((ended before).length + part.length) = ended before ++ part := by
    rw [← List.append_assoc, List.take_left' List.length_append]
  rw [linesBefore_eq_split, htake, splitOn_ended h.whole hpart, List.dropLast_concat]

end LinesUpTo

/-- Every text is lines with their line feeds, and the part of a line. -/
theorem exists_ended (text : List Char) :
    ∃ lines part, text = ended lines ++ part ∧ (∀ line ∈ lines, '\n' ∉ line) ∧ '\n' ∉ part := by
  induction text with
  | nil => exact ⟨[], [], rfl, List.forall_mem_nil _, List.not_mem_nil⟩
  | cons c text ih =>
    obtain ⟨lines, part, rfl, hlines, hpart⟩ := ih
    by_cases hc : c = '\n'
    · exact ⟨[] :: lines, part, by simp [ended, hc], List.forall_mem_cons.mpr ⟨List.not_mem_nil, hlines⟩, hpart⟩
    · -- the character goes in front of the first line, or of the part if there is no line
      have hfront (line : List Char) (h : '\n' ∉ line) : '\n' ∉ c :: line := by
        rw [List.mem_cons, not_or]
        exact ⟨Ne.symm hc, h⟩
      cases lines with
      | nil => exact ⟨[], c :: part, rfl, hlines, hfront part hpart⟩
      | cons line lines =>
        obtain ⟨hline, hlines⟩ := List.forall_mem_cons.mp hlines
        exact ⟨(c :: line) :: lines, part, by simp [ended], List.forall_mem_cons.mpr ⟨hfront line hline, hlines⟩, hpart⟩

theorem exists_linesUpTo {code : List Char} {offset : Nat} (h : offset ≤ code.length) :
    ∃ before, LinesUpTo before code offset := by
  obtain ⟨before, part, htake, hbefore, hpart⟩ := exists_ended (code.take offset)
  refine ⟨before, hbefore, part, code.drop offset, ?_, ?_, hpart⟩
  · rw [← List.append_assoc, ← htake, List.take_append_drop]
  · rw [← List.length_append, ← htake, List.length_take, Nat.min_eq_left h]

/-- Offsets without a line feed between them have the same lines before them. -/
theorem LinesUpTo.forward {before : List (List Char)} {code : List Char} {o o' : Nat} (h : LinesUpTo before code o)
    (hle : o ≤ o') (hlen : o' ≤ code.length) (hline : '\n' ∉ (code.take o').drop o) : LinesUpTo before code o' := by
  obtain ⟨part, rest, rfl, rfl, hpart⟩ := h.text
  obtain ⟨k, rfl⟩ := Nat.exists_eq_add_of_le hle
  have hmore : ((ended before ++ (part ++ rest)).take ((ended before).length + part.length + k)).drop
      ((ended before).length + part.length) = rest.take k := by
    rw [← List.append_assoc, ← List.length_append, List.drop_take, List.drop_left, Nat.add_sub_cancel_left]
  rw [hmore] at hline
  have hk : k ≤ rest.length := by
    simp only [List.length_append] at hlen
    omega
  refine ⟨h.whole, part ++ rest.take k, rest.drop k, ?_, ?_, ?_⟩
  · rw [List.append_assoc part, List.take_append_drop]
  · rw [List.length_append, List.length_take, Nat.min_eq_left hk, Nat.add_assoc]
  · rw [List.mem_append, not_or]
    exact ⟨hpart, hline⟩

/-! ## The nearest line with text on it -/

/-- Whether the last of some lines that is not blank is a directive. -/
def lastIsDirective (pattern : CommentPattern) (name : List Char) (before : List (List Char)) : Bool :=
  ((before.reverse.map trim).find? (!·.isEmpty)).any (isDirectiveLine pattern name)

section

variable {pattern : CommentPattern} {name code : List Char} {offset : Nat} {before : List (List Char)}

theorem LinesUpTo.isDirected_eq (h : LinesUpTo before code offset) :
    isDirected pattern name code offset = lastIsDirective pattern name before := by
  rw [isDirected, nearestLineBefore, h.linesBefore_eq]
  rfl

/-- Blank lines do not count. -/
theorem lastIsDirective_blanks {blanks : List (List Char)} (h : ∀ blank ∈ blanks, trim blank = [])
    (front back : List (List Char)) :
    lastIsDirective pattern name (front ++ (blanks ++ back)) = lastIsDirective pattern name (front ++ back) := by
  have hnone : (blanks.reverse.map trim).find? (!·.isEmpty) = none := by
    rw [List.find?_eq_none]
    intro line hline
    obtain ⟨blank, hblank, rfl⟩ := List.mem_map.mp hline
    rw [h blank (List.mem_reverse.mp hblank)]
    simp
  simp only [lastIsDirective, List.reverse_append, List.map_append, List.find?_append, hnone, Option.or_none]

theorem lastIsDirective_iff : lastIsDirective pattern name before = true ↔ LastNamesDirective pattern name before := by
  constructor
  · intro h
    rw [lastIsDirective, List.find?_map] at h
    cases hfind : before.reverse.find? ((!·.isEmpty) ∘ trim) with
    | none => rw [hfind] at h; cases h
    | some line =>
      rw [hfind] at h
      obtain ⟨hne, blanks, front, hbefore, hblanks⟩ := List.find?_eq_some_iff_append.mp hfind
      refine ⟨front.reverse, line, blanks.reverse, ?_, by simpa using hne, fun blank hblank => ?_,
        isDirectiveLine_iff.mp h⟩
      · rw [← List.reverse_reverse before, hbefore]
        simp
      · simpa using hblanks blank (List.mem_reverse.mp hblank)
  · rintro ⟨front, line, blanks, rfl, hne, hblanks, hline⟩
    have hnearest : lastIsDirective pattern name (front ++ line :: blanks) =
        lastIsDirective pattern name (front ++ [line]) := by
      simpa using lastIsDirective_blanks hblanks (front ++ [line]) []
    rw [hnearest, lastIsDirective, List.reverse_append, List.reverse_singleton, List.singleton_append, List.map_cons,
      List.find?_cons_of_pos (by simpa using hne)]
    exact isDirectiveLine_iff.mpr hline

end

/-- A directive is about an offset if and only if the last line before that of the offset that is not blank names it.
The line of an offset has the same answer everywhere, the lines behind those that end before the offset do not count,
and blank lines put in or taken out before it change nothing. -/
theorem directive_scope (pattern : CommentPattern) (name : List Char) :
    (∀ code offset, offset ≤ code.length → ∃ before, LinesUpTo before code offset) ∧
    (∀ before code offset, LinesUpTo before code offset →
      (isDirected pattern name code offset = true ↔ LastNamesDirective pattern name before)) ∧
    (∀ code o o', o ≤ o' → o' ≤ code.length → '\n' ∉ (code.take o').drop o →
      isDirected pattern name code o = isDirected pattern name code o') ∧
    (∀ before code code' o o', LinesUpTo before code o → LinesUpTo before code' o' →
      isDirected pattern name code o = isDirected pattern name code' o') ∧
    ∀ front blanks back code code' o o', LinesUpTo (front ++ (blanks ++ back)) code o →
      LinesUpTo (front ++ back) code' o' → (∀ blank ∈ blanks, trim blank = []) →
      isDirected pattern name code o = isDirected pattern name code' o' := by
  refine ⟨fun _ _ => exists_linesUpTo, fun before code offset h => ?_, fun code o o' hle hlen hline => ?_,
    fun before code code' o o' h h' => ?_, fun front blanks back code code' o o' h h' hblanks => ?_⟩
  · rw [h.isDirected_eq]
    exact lastIsDirective_iff
  · obtain ⟨before, h⟩ := exists_linesUpTo (Nat.le_trans hle hlen)
    rw [h.isDirected_eq, (h.forward hle hlen hline).isDirected_eq]
  · rw [h.isDirected_eq, h'.isDirected_eq]
  · rw [h.isDirected_eq, h'.isDirected_eq, lastIsDirective_blanks hblanks]

/-- A directive above two blank lines is about the end of the line below them, which names another one itself. -/
theorem directive_scope_over_blanks :
    let before := ["let a = 1; // BreadLog:Ignore ".toList, [], "  \t".toList]
    let code := ended before ++ "info!(); // breadlog:no-kvp".toList ++ "\nrest".toList
    LinesUpTo before code (ended before ++ "info!(); // breadlog:no-kvp".toList).length ∧
    isDirected CommentPattern.slashes ignoreDirective code
      (ended before ++ "info!(); // breadlog:no-kvp".toList).length = true := by
  intro before code
  have hlines : LinesUpTo before code (ended before ++ "info!(); // breadlog:no-kvp".toList).length :=
    ⟨by decide +kernel, "info!(); // breadlog:no-kvp".toList, "\nrest".toList,
      List.append_assoc _ _ _, List.length_append, by decide +kernel⟩
  refine ⟨hlines, ((directive_scope _ _).2.1 before code _ hlines).mpr ?_⟩
  exact ⟨[], "let a = 1; // BreadLog:Ignore ".toList, [[], "  \t".toList], rfl, by decide +kernel, by decide +kernel,
    [some " BreadLog:Ignore".toList, none], by decide +kernel, " BreadLog:Ignore".toList, List.mem_cons_self,
    by decide +kernel⟩

end LogRef
