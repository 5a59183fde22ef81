import Mathlib.Data.List.Basic
import LogRef.Proofs.Reference.Marks
import LogRef.Yaml.Document

/-!
# Numbers in documents

Digits that end a document are one token, and the digits of a number are taken for that number.
-/
namespace LogRef.Yaml

variable {c : Char} {digits : List Char}

/-! ## Digits as a token -/

theorem isBreak_digit (h : isAsciiDigit c = true) : isBreak c = false := by
  simp (disch := decide) [isBreak, ne_of_isAsciiDigit h]

theorem endsWord_digit (h : isAsciiDigit c = true) : endsWord (some c) = false := by
  simp (disch := decide) [endsWord, isBreak_digit h, ne_of_isAsciiDigit h]

theorem isPrintable_digit (h : isAsciiDigit c = true) : isPrintable c = true := by
  rw [isAsciiDigit, Bool.and_eq_true, decide_eq_true_eq, decide_eq_true_eq] at h
  have hlo : ' ' ≤ c := Char.le_trans (show ' ' ≤ '0' by decide) h.1
  have hhi : c ≤ '~' := Char.le_trans h.2 (show '9' ≤ '~' by decide)
  simp [isPrintable, hlo, hhi]

/-- Digits up to the end of a line are one word. -/
theorem plainLength_digits (h : ∀ c ∈ digits, isAsciiDigit c = true) :
    plainLength false (digits ++ ['\n']) = digits.length := by
  induction digits with
  | nil => rfl
  | cons c digits ih =>
    have hc := h c List.mem_cons_self
    rw [List.cons_append, plainLength, ih fun x hx => h x (List.mem_cons_of_mem _ hx)]
    simp [endsWord_digit hc, ne_of_isAsciiDigit hc (x := ':') (by decide)]

namespace Cursor

variable {index line column : Nat}

theorem skip_digits (h : ∀ c ∈ digits, isAsciiDigit c = true) (rest : List Char) :
    skip digits.length ⟨digits ++ rest, index, line, column⟩ =
      ⟨rest, index + digits.length, line, column + digits.length⟩ := by
  induction digits generalizing index column with
  | nil => rfl
  | cons c digits ih =>
    have hc := h c List.mem_cons_self
    rw [List.cons_append, List.length_cons, skip, isBreak_digit hc, if_neg Bool.false_ne_true,
      if_neg (ne_of_isAsciiDigit hc (by decide)), ih fun x hx => h x (List.mem_cons_of_mem _ hx)]
    congr 1 <;> omega

/-- Only the blank before a digit is passed over. -/
theorem skipComment_digit (h : isAsciiDigit c = true) (rest : List Char) :
    skipComment ⟨' ' :: c :: rest, index, line, column⟩ = ⟨c :: rest, index + 1, line, column + 1⟩ := by
  have hblank : (' ' :: c :: rest).takeWhile (· == ' ') = [' '] := by
    simp (disch := decide) [ne_of_isAsciiDigit h]
  have hhash := ne_of_isAsciiDigit h (x := '#') (by decide)
  unfold skipComment skipWhile
  rw [hblank]
  simp [skip, peek, isBreak, byteOrderMark, hhash]

end Cursor

/-- Digits on the last line of a text are read as they are. -/
theorem plainScalar_digits (hne : digits ≠ []) (h : ∀ c ∈ digits, isAsciiDigit c = true) (index line column : Nat) :
    plainScalar false 1 ⟨digits ++ ['\n'], index, line, column⟩ =
      ⟨digits, true, ⟨[], index + digits.length + 1, line + 1, 0⟩⟩ := by
  obtain ⟨c, more, rfl⟩ := List.exists_cons_of_ne_nil hne
  have hhash := ne_of_isAsciiDigit (h c List.mem_cons_self) (x := '#') (by decide)
  have hpeek : ¬ Cursor.peek ⟨c :: more ++ ['\n'], index, line, column⟩ = some '#' := by
    simp [Cursor.peek, hhash]
  unfold plainScalar plainFrom
  simp only [hpeek, if_false, plainLength_digits h, Cursor.skip_digits h]
  rw [if_neg (by simp), List.take_left' rfl]
  rfl

namespace Layout

variable {s : Layout}

theorem readToken_digit (h : isAsciiDigit c = true) (hcolumn : s.cursor.column ≠ 0) :
    s.readToken c = s.readPlain := by
  have hne {x : Char} (hx : isAsciiDigit x = false) : c ≠ x := ne_of_isAsciiDigit h hx
  have hplain : beginsPlain s.inFlow c s.cursor.rest[1]? = true := by
    simp (disch := decide) [beginsPlain, endsWord_digit h, isIndicator, hne]
  unfold readToken
  simp (disch := decide) [hne, hcolumn, hplain]

/-- In the outermost block no token closes one. -/
theorem unwind_outermost (h : s.indent = 0) (column : Nat) : s.unwind column = s := by
  unfold unwind
  split
  · rfl
  · cases s.outer with
    | nil => rfl
    | cons next outer => rw [closeBlocks, if_neg (by rw [h]; omega)]

theorem skipToToken_digit (h : isAsciiDigit c = true) {rest : List Char} {index line column : Nat}
    (hcursor : s.cursor = ⟨' ' :: c :: rest, index, line, column⟩) (fuel : Nat) :
    s.skipToToken (fuel + 1) = s.moveTo ⟨c :: rest, index + 1, line, column + 1⟩ := by
  unfold skipToToken
  simp only [hcursor, Cursor.skipComment_digit h]
  rw [if_neg (by simp [Cursor.peek, isBreak_digit h])]

theorem readPlain_digits (hne : digits ≠ []) (h : ∀ c ∈ digits, isAsciiDigit c = true) {index line column : Nat}
    (hcursor : s.cursor = ⟨digits ++ ['\n'], index, line, column⟩) (hlevel : s.level = 0) (hindent : s.indent = 0)
    (hkey : s.allowsKey = false) :
    s.readPlain = .ok (((s.allow true).moveTo ⟨[], index + digits.length + 1, line + 1, 0⟩).put
      (.scalar ⟨String.ofList digits, true, false⟩)) := by
  have hnote : s.noteKey = .ok s := by
    unfold noteKey
    rw [hkey]
    rfl
  have hflow : s.inFlow = false := by
    unfold inFlow
    rw [hlevel]
    rfl
  unfold readPlain
  rw [hnote]
  simp only [bind, Except.bind]
  rw [hflow, hindent, hcursor, Int.zero_add, plainScalar_digits hne h]
  rfl

/-- The value of a key in the outermost block: digits behind a blank, up to the end of the text. -/
theorem readNext_digits (hne : digits ≠ []) (h : ∀ c ∈ digits, isAsciiDigit c = true) {index line column : Nat}
    (hcursor : s.cursor = ⟨' ' :: (digits ++ ['\n']), index, line, column⟩) (hlevel : s.level = 0)
    (hindent : s.indent = 0) (hkey : s.allowsKey = false) (hkeys : s.keys = []) :
    s.readNext = .ok (true, ((s.allow true).moveTo ⟨[], index + 1 + digits.length + 1, line + 1, 0⟩).put
      (.scalar ⟨String.ofList digits, true, false⟩)) := by
  obtain ⟨c, more, rfl⟩ := List.exists_cons_of_ne_nil hne
  rw [List.cons_append] at hcursor
  have hc := h c List.mem_cons_self
  have hstale (cursor : Cursor) : (s.moveTo cursor).dropStale = .ok (s.moveTo cursor) := by
    obtain ⟨_, _, _, _, _, _, keys⟩ := s
    subst hkeys
    rfl
  have hunwind (cursor : Cursor) (column : Nat) : (s.moveTo cursor).unwind column = s.moveTo cursor :=
    unwind_outermost (s := s.moveTo cursor) hindent column
  have hplain := readPlain_digits (s := s.moveTo ⟨c :: more ++ ['\n'], index + 1, line, column + 1⟩) hne h rfl hlevel
    hindent hkey
  unfold readNext
  rw [skipToToken_digit hc hcursor, hstale]
  simp only [bind, Except.bind]
  rw [hunwind, show (s.moveTo ⟨c :: (more ++ ['\n']), index + 1, line, column + 1⟩).cursor.peek = some c from rfl]
  simp only
  rw [readToken_digit hc (Nat.succ_ne_zero _), ← List.cons_append, hplain]
  rfl

end Layout

/-! ## Digits as a number -/

theorem hexValue?_digit (h : isAsciiDigit c = true) : hexValue? c = some (c.toNat - 48) := if_pos h

theorem isNumberBlank_digit (h : isAsciiDigit c = true) : Text.isNumberBlank c = false := by
  have hblank := ne_of_isAsciiDigit h (x := ' ') (by decide)
  have hlate : ¬ c ≤ '\r' := by
    rw [isAsciiDigit, Bool.and_eq_true, decide_eq_true_eq] at h
    exact fun hle => absurd (Char.le_trans h.1 hle) (by decide)
  simp [Text.isNumberBlank, hblank, hlate]

theorem plainNumber_digits (h : ∀ c ∈ digits, isAsciiDigit c = true) : Text.plainNumber digits = digits := by
  have hshown : ∀ part : List Char, (∀ c ∈ part, c ∈ digits) → part.dropWhile Text.isNumberBlank = part := by
    intro part hpart
    cases part with
    | nil => rfl
    | cons c part =>
      rw [List.dropWhile_cons, isNumberBlank_digit (h c (hpart c List.mem_cons_self))]
      rfl
  have hplain : ∀ c ∈ digits, Text.plainDigit c = id c := by
    intro c hc
    have hhi := (toNat_of_isAsciiDigit (h c hc)).2
    rw [Text.plainDigit, if_pos (by omega)]
    rfl
  rw [Text.plainNumber, List.map_congr_left hplain, List.map_id, hshown _ fun _ hc => hc,
    hshown _ fun _ hc => List.mem_reverse.mp hc, List.reverse_reverse]

theorem dropSign_digits (h : ∀ c ∈ digits, isAsciiDigit c = true) : dropSign digits = digits := by
  cases digits with
  | nil => rfl
  | cons c rest => simp (disch := decide) [dropSign, ne_of_isAsciiDigit (h c List.mem_cons_self)]

theorem readWhole_digits (hne : digits ≠ []) (h : ∀ c ∈ digits, isAsciiDigit c = true)
    (hlen : digits.length ≤ digitLimit) : readWhole 10 digits = .ok (digitsValue digits) := by
  have hbase (t : List Char) : dropBaseMark 10 t = t := by
    unfold dropBaseMark
    dsimp only
    split <;> rfl
  have hall : digits.takeWhile (fun c => (hexValue? c).any (· < 10)) = digits := by
    rw [List.takeWhile_eq_self_iff]
    intro c hc
    have := toNat_of_isAsciiDigit (h c hc)
    rw [hexValue?_digit (h c hc), Option.any_some, decide_eq_true_eq]
    omega
  have hvalue : digits.foldl (fun n c => n * 10 + (hexValue? c).getD 0) 0 = digitsValue digits :=
    List.foldl_ext _ _ _ fun n c hc => by rw [hexValue?_digit (h c hc)]; rfl
  have hsign : ¬ digits.head? = some '-' :=
    fun hhead => ne_of_isAsciiDigit (h _ (List.mem_of_head? hhead)) (by decide) rfl
  unfold readWhole
  simp only [plainNumber_digits h, dropSign_digits h, hbase, hall, hvalue]
  rw [if_neg (by simpa using hlen), if_neg (by simpa using hne), if_neg hsign]

/-- The digits of a number stand for it. Zero has a form of its own, and no other number begins with one. -/
theorem intValue_digitsOf {n : Nat} (h : n ≤ greatestId) : intValue (digitsOf n) = .ok n := by
  by_cases hzero : n = 0
  · subst hzero
    rfl
  obtain ⟨c, rest, hdigits, hc⟩ := exists_digitsOf hzero
  have hall : ∀ x ∈ c :: rest, isAsciiDigit x = true := fun x hx => isAsciiDigit_of_mem (hdigits ▸ hx)
  have hfirst := hall c List.mem_cons_self
  have hfilter : (c :: rest).filter (· != '_') = c :: rest :=
    List.filter_eq_self.mpr fun x hx => by simpa using ne_of_isAsciiDigit (hall x hx) (x := '_') (by decide)
  have hsign : splitSign (c :: rest) = .ok (1, c :: rest) := by
    unfold splitSign
    split
    · next h => cases h
    · next h => cases h; cases hfirst
    · next h => cases h; cases hfirst
    · rfl
  have hcolon : ¬ (c :: rest).contains ':' = true := by
    rw [List.contains_iff_mem]
    exact fun hmem => absurd (hall _ hmem) (by decide)
  have hread : readWhole 10 (c :: rest) = .ok n := by
    have hlen := (length_digitsOf h).2
    rw [hdigits] at hlen
    rw [readWhole_digits (List.cons_ne_nil _ _) hall (by unfold digitLimit; omega), ← hdigits, digitsValue_digitsOf]
  rw [hdigits, intValue, hfilter, hsign]
  simp only [bind, Except.bind]
  split
  · next h => cases h
  · next h => cases h; exact absurd rfl hc
  · next h => cases h; exact absurd rfl hc
  · next h => cases h; exact absurd rfl hc
  · next h => cases h; exact absurd rfl hc
  · rw [if_neg hcolon, hread]
    simp [pure, Except.pure]

theorem isIntText_digitsOf (n : Nat) : isIntText (digitsOf n) = true := by
  by_cases hzero : n = 0
  · subst hzero
    rfl
  obtain ⟨c, rest, hdigits, hc⟩ := exists_digitsOf hzero
  have hall : ∀ x ∈ c :: rest, isAsciiDigit x = true := fun x hx => isAsciiDigit_of_mem (hdigits ▸ hx)
  have hfirst : '1' ≤ c ∧ c ≤ '9' := by
    obtain ⟨hlo, hhi⟩ := toNat_of_isAsciiDigit (hall c List.mem_cons_self)
    have hne : c.toNat ≠ 48 := fun h => hc (Char.toNat_inj.mp h)
    simp only [Char.le_def, UInt32.le_iff_toNat_le]
    exact ⟨show 49 ≤ c.toNat by omega, hhi⟩
  have hdigitsAfter : digitsAfter (fun c => '1' ≤ c && c ≤ '9') (c :: rest) = true := by
    rw [digitsAfter, Bool.and_eq_true]
    refine ⟨by simpa using hfirst, List.all_eq_true.mpr fun x hx => ?_⟩
    rw [hall x hx]
    rfl
  rw [hdigits, isIntText, dropSign_digits hall]
  split
  · rfl
  · next h => cases h; exact absurd rfl hc
  · next h => cases h; exact absurd rfl hc
  · next h => cases h; exact absurd rfl hc
  · rw [hdigitsAfter]
    rfl

theorem isFloatText_digits (h : ∀ c ∈ digits, isAsciiDigit c = true) : isFloatText digits = false := by
  have hwhole : digits.takeWhile (· != '.') = digits := by
    rw [List.takeWhile_eq_self_iff]
    exact fun c hc => by simpa using ne_of_isAsciiDigit (h c hc) (x := '.') (by decide)
  unfold isFloatText
  simp [dropSign_digits h, hwhole]

theorem dropLastBreak_digits (h : ∀ c ∈ digits, isAsciiDigit c = true) :
    dropLastBreak (String.ofList digits) = String.ofList digits := by
  unfold dropLastBreak
  split
  · next c rest hreverse =>
    rw [String.toList_ofList] at hreverse
    have hmem : '\n' ∈ digits := List.mem_reverse.mp (hreverse ▸ List.mem_cons_self)
    exact absurd (h _ hmem) (by decide)
  · rfl

/-- The digits of a number are taken for a whole number. -/
theorem ofPlain_digitsOf (n : Nat) : Kind.ofPlain (String.ofList (digitsOf n)) = .int := by
  have hall : ∀ c ∈ digitsOf n, isAsciiDigit c = true := fun c hc => isAsciiDigit_of_mem hc
  have hword : ¬ (trueWords.contains (String.ofList (digitsOf n)) ||
      falseWords.contains (String.ofList (digitsOf n))) = true := by
    have hletters : ∀ w ∈ trueWords ++ falseWords, w.toList.any isAsciiDigit = false := by decide +kernel
    obtain ⟨c, rest, hdigits⟩ := List.exists_cons_of_ne_nil (digitsOf_ne_nil n)
    have hc : c ∈ digitsOf n := hdigits ▸ List.mem_cons_self
    intro hmem
    have hletter := hletters (String.ofList (digitsOf n)) (by simpa using hmem)
    rw [String.toList_ofList, List.any_eq_false] at hletter
    exact hletter c hc (hall c hc)
  unfold Kind.ofPlain
  simp only [dropLastBreak_digits hall]
  rw [if_neg hword, String.toList_ofList, isFloatText_digits hall, isIntText_digitsOf]
  rfl

end LogRef.Yaml
