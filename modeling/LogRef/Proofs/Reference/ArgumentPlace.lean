import LogRef.Proofs.Reference.Completed
import LogRef.Proofs.Reference.NewArgument
import LogRef.Proofs.Syntax.Spacing

/-!
# Where a new argument goes

A new argument goes behind the bracket of its call, or before the first argument behind a target. On its line
there is nothing before it but the bracket or the comma, the end of a comment, and blanks, so that a text there
makes and unmakes no directive.
-/
namespace LogRef

/-- What stands on a line before an argument: blanks alone, or a foreign character and blanks, where a slash is
the end of a comment. -/
def IsLead (front : List Char) : Prop :=
  (∀ c ∈ front, Text.isBlank c = true) ∨ ∃ before f blanks, front = before ++ f :: blanks ∧
    isForeign f = true ∧ (∀ c ∈ blanks, Text.isBlank c = true) ∧
      (f = '/' → ∀ c ∈ before.getLast?, c = '*')

/-- An offset between two characters with such a line before it. -/
structure IsFront (source : Bytes) (code : List Char) (q : Int) : Prop where
  isBreak : IsBreak source q
  lead : ∃ i, i ≤ code.length ∧ (byteOffset code i : Int) = q ∧ IsLead (lastLine (code.take i))

/-- The character at an offset is no blank, and opens no comment together with a slash before it. -/
def IsClear (code : List Char) (p : Int) : Prop :=
  ∃ before c rest, code = before ++ c :: rest ∧ ((Utf8.encode before).length : Int) = p ∧
    Text.isBlank c = false ∧ (before.getLast? = some '/' → c ≠ '/' ∧ c ≠ '*')

section

variable {source : Bytes} {code : List Char} {k : Nat} {b : UInt8}

theorem IsLead.blank {front : List Char} (h : IsLead front) {c : Char} (hc : Text.isBlank c = true) :
    IsLead (front ++ [c]) := by
  rcases h with h | ⟨before, f, blanks, rfl, hf, hblanks, hslash⟩
  · refine Or.inl fun x hx => ?_
    rcases List.mem_append.mp hx with hx | hx
    · exact h x hx
    · rw [List.mem_singleton.mp hx, hc]
  · refine Or.inr ⟨before, f, blanks ++ [c], by simp, hf, fun x hx => ?_, hslash⟩
    rcases List.mem_append.mp hx with hx | hx
    · exact hblanks x hx
    · rw [List.mem_singleton.mp hx, hc]

theorem isLead_foreign (before : List Char) {f : Char} (hf : isForeign f = true)
    (h : f = '/' → ∀ c ∈ before.getLast?, c = '*') : IsLead (before ++ [f]) :=
  Or.inr ⟨before, f, [], rfl, hf, fun _ hc => (List.not_mem_nil hc).elim, h⟩

/-- Behind a byte below 128 there is such an offset if the byte, as a character, leads to it. -/
theorem IsFront.of_byte (hcode : Utf8.decode source = .ok code) (hb : source[k]? = some b)
    (hascii : b.toNat < 0x80) (hword : isWordByte b = false)
    (hlead : ∀ i c, code[i]? = some c → byteOffset code i = k → c.toNat = b.toNat →
      IsLead (lastLine (code.take i ++ [c]))) : IsFront source code (k + 1) := by
  refine ⟨?_, ?_⟩
  · intro x hx
    have hk : ((k : Int) + 1).toNat = k + 1 := by omega
    rw [hk, List.take_add_one, hb] at hx
    obtain rfl : b = x := by simpa using hx
    exact hword
  · have hb' := hb
    rw [← Utf8.encode_of_decode hcode] at hb'
    obtain ⟨i, c, hc, hn, hi, hnext⟩ := char_of_ascii hb' hascii
    refine ⟨i + 1, (List.getElem?_eq_some_iff.mp hc).1, by rw [hnext]; rfl, ?_⟩
    rw [List.take_add_one, hc]
    exact hlead i c hc hi hn

/-- Behind a comma or a bracket there is such an offset. -/
theorem isFront_behind (hcode : Utf8.decode source = .ok code) {f : Char} (hf : isForeign f = true)
    (hslash : f ≠ '/') (hb : source[k]? = some (asciiByte f)) : IsFront source code (k + 1) := by
  obtain ⟨hn, hascii, hword, hline⟩ := foreign_byte hf
  refine IsFront.of_byte hcode hb (by omega) hword fun i c _ _ hc => ?_
  obtain rfl : c = f := Char.toNat_inj.mp (hc.trans hn)
  rw [lastLine_append hline]
  exact isLead_foreign _ hf fun h => absurd h hslash

/-- Such an offset, or the end of a line, behind which there is one. -/
def MeetsFront (source : Bytes) (code : List Char) (q : Int) : Prop :=
  IsFront source code q ∨ source[q.toNat]? = some lineFeed

theorem isFront_behind_newline (hcode : Utf8.decode source = .ok code) (hb : source[k]? = some lineFeed) :
    IsFront source code (k + 1) := by
  refine IsFront.of_byte hcode hb (by decide) (by decide) fun i c _ _ hc => ?_
  obtain rfl : c = '\n' := Char.toNat_inj.mp hc
  rw [lastLine_newline]
  exact Or.inl fun _ hx => (List.not_mem_nil hx).elim

theorem isFront_behind_blank (hcode : Utf8.decode source = .ok code) (hb : source[k]? = some b)
    (hs : isSpaceByte b = true) (h : IsFront source code k) : IsFront source code (k + 1) := by
  have hall : ∀ n < 256, isSpaceByte n.toUInt8 = true → n < 0x80 ∧ isWordByte n.toUInt8 = false ∧
      Text.inRanges Text.blankRanges n = true := by decide +kernel
  have hn : b.toNat.toUInt8 = b := Utf8.toUInt8_eq rfl
  obtain ⟨hascii, hword, hblank⟩ := hall b.toNat b.toNat_lt (by rw [hn]; exact hs)
  rw [hn] at hword
  refine IsFront.of_byte hcode hb hascii hword fun i c hc hi hcb => ?_
  by_cases hline : c = '\n'
  · rw [hline, lastLine_newline]
    exact Or.inl fun _ hx => (List.not_mem_nil hx).elim
  · obtain ⟨j, hj, hjk, hlead⟩ := h.lead
    have hlt := (List.getElem?_eq_some_iff.mp hc).1
    obtain rfl : i = j := byteOffset_inj (Nat.le_of_lt hlt) hj (by omega)
    rw [lastLine_append hline]
    refine hlead.blank ?_
    rw [Text.isBlank, hcb, hblank]

theorem passesBlanks_meetsFront (hcode : Utf8.decode source = .ok code) :
    PassesBlanks source (MeetsFront source code) := by
  intro k b hb hs h
  rcases h with h | h
  · exact Or.inl (isFront_behind_blank hcode hb hs h)
  · exact Or.inl (isFront_behind_newline hcode h)

theorem isFront_behind_comment (hcode : Utf8.decode source = .ok code)
    (hstar : source[k]? = some (asciiByte '*')) (hslash : source[k + 1]? = some (asciiByte '/')) :
    IsFront source code (k + 2) := by
  have hfront : IsFront source code ((k + 1 : Nat) + 1) := by
    refine IsFront.of_byte hcode hslash (by decide) (by decide) fun i c hi hik hc => ?_
    obtain rfl : c = '/' := Char.toNat_inj.mp hc
    rw [← Utf8.encode_of_decode hcode] at hstar
    obtain ⟨j, d, hj, hd, _, hjk⟩ := char_of_ascii hstar (by decide)
    obtain rfl : d = '*' := Char.toNat_inj.mp hd
    have hile := Nat.le_of_lt (List.getElem?_eq_some_iff.mp hi).1
    obtain rfl : i = j + 1 := byteOffset_inj hile (List.getElem?_eq_some_iff.mp hj).1 (by omega)
    rw [lastLine_append (by decide), List.take_add_one, hj, Option.toList_some,
      lastLine_append (by decide)]
    refine isLead_foreign _ (by decide) fun _ x hx => ?_
    rw [List.getLast?_concat] at hx
    exact (Option.some.inj hx).symm
  exact hfront

/-- Where a comment ends there is such an offset, or the end of a line. -/
theorem meetsFront_of_endsComment (hcode : Utf8.decode source = .ok code) (hk : k ≤ source.length)
    (h : endsComment source k = true) : MeetsFront source code k := by
  rw [endsComment, Bool.or_eq_true, Bool.or_eq_true, List.isSuffixOf_iff_suffix, beq_iff_eq,
    beq_iff_eq] at h
  rcases h with (⟨text, htext⟩ | hline) | hline
  · have hlen : k = text.length + 2 := by
      have := congrArg List.length htext
      rw [List.length_append, List.length_take, Nat.min_eq_left hk] at this
      exact this.symm
    have hget (j : Nat) (hj : j < k) : source[j]? = (text ++ Bytes.ofString "*/")[j]? := by
      rw [htext, List.getElem?_take, if_pos hj]
    refine Or.inl (hlen ▸ isFront_behind_comment hcode ?_ ?_)
    · rw [hget _ (by omega), List.getElem?_append_right (Nat.le_refl _), Nat.sub_self]
      rfl
    · rw [hget _ (by omega), List.getElem?_append_right (by omega), Nat.add_sub_cancel_left]
      rfl
  · cases k with
    | zero => cases hline
    | succ k =>
      have hlt : k < source.length := hk
      have hget := List.getElem?_eq_getElem hlt
      rw [List.take_add_one, hget, Option.toList_some, List.getLast?_concat] at hline
      exact Or.inl (isFront_behind_newline hcode (hget.trans hline))
  · exact Or.inr hline

/-- A visible character is not the end of a line. -/
theorem IsClear.not_newline (hcode : Utf8.decode source = .ok code) {p : Int} (h : IsClear code p) :
    source[p.toNat]? ≠ some lineFeed := by
  obtain ⟨before, c, rest, rfl, rfl, hc, _⟩ := h
  intro hb
  rw [← Utf8.encode_of_decode hcode, Int.toNat_natCast] at hb
  obtain ⟨i, d, hd, hn, hi, _⟩ := char_of_ascii hb (by decide)
  obtain rfl : d = '\n' := Char.toNat_inj.mp hn
  have hbefore : byteOffset (before ++ c :: rest) before.length = (Utf8.encode before).length := by
    rw [byteOffset, List.take_left']
    rfl
  have hle := Nat.le_of_lt (List.getElem?_eq_some_iff.mp hd).1
  obtain rfl : i = before.length := byteOffset_inj hle (by simp) (hi.trans hbefore.symm)
  obtain rfl : c = '\n' := by simpa using hd
  revert hc
  decide

/-- A visible character behind the lead of a line. -/
theorem IsFront.guarded {p : Nat} (h : IsFront source code p) (hc : IsClear code p) :
    ∃ i, i ≤ code.length ∧ byteOffset code i = p ∧ Guards (lastLine (code.take i)) code[i]? := by
  obtain ⟨i, hi, hip, hlead⟩ := h.lead
  obtain ⟨before, c, rest, rfl, hp, hc, hslash⟩ := hc
  have hbefore : byteOffset (before ++ c :: rest) before.length = (Utf8.encode before).length := by
    rw [byteOffset, List.take_left']
    rfl
  obtain rfl : i = before.length := byteOffset_inj hi (by simp) (by omega)
  refine ⟨_, hi, by omega, ?_⟩
  rw [List.take_left' rfl] at hlead ⊢
  rw [List.getElem?_append_right (Nat.le_refl _), Nat.sub_self, List.getElem?_cons_zero]
  rcases hlead with hblank | ⟨front, f, blanks, hfront, hf, hblanks, hstar⟩
  · exact Or.inl ⟨hblank, c, rfl, hc⟩
  · refine Or.inr ⟨front, f, blanks, hfront, hf, hblanks, fun h => ⟨hstar h, fun hnil x hx => ?_⟩⟩
    obtain rfl : c = x := Option.some.inj hx
    obtain ⟨text, htext⟩ := lastLine_suffix before
    rw [hfront, hnil, h, ← List.append_assoc] at htext
    exact hslash (by rw [← htext, List.getLast?_concat])

end

/-- What a call has to be like for a new argument: before a semicolon there is a key-value argument, and behind
a target an argument that begins with a visible character. -/
structure Invocation.Admits (code : List Char) (v : Invocation) : Prop where
  keyed : ∀ r, splitAtSemicolon (argumentsOf v.tokens) = some r → ∃ s ∈ r.1, s.tokens ≠ []
  behindTarget : argumentIndex v.tokens ≠ 0 → ∃ s t, (argumentsOf v.tokens).head? = some s ∧
    s.tokens.head? = some t ∧ IsClear code t.start

section

variable {source : Bytes} {code : List Char} {v : Invocation}

theorem head?_of_segmentsOf {tokens : List Token} {s : Segment} {t : Token}
    (hs : (segmentsOf tokens).head? = some s) (ht : s.tokens.head? = some t) : tokens.head? = some t := by
  cases tokens with
  | nil => cases hs
  | cons u tokens =>
    cases hu : u.separator? with
    | some sep =>
      rw [segmentsOf_cons_of_separator hu] at hs
      obtain rfl := Option.some.inj hs
      cases ht
    | none =>
      rw [segmentsOf_cons_of_none hu] at hs
      split at hs
      · obtain rfl := Option.some.inj hs
        exact ht
      · obtain rfl := Option.some.inj hs
        exact ht

/-- A comma that the source has is one byte of it. -/
theorem Token.Covers.comma {t : Token} (hc : t.Covers source) (h : t.separator? = some .comma) :
    ∃ k : Nat, t.stop = k + 1 ∧ source[k]? = some (asciiByte ',') := by
  obtain ⟨_, hpunct⟩ | ⟨hsemicolon, _⟩ := Token.isPunct_of_separator h
  · obtain ⟨hstop, hbyte⟩ := hc.punct hpunct
    have h0 := hc.nonneg
    exact ⟨t.start.toNat, by omega, hbyte⟩
  · cases hsemicolon

/-- Behind a target a new argument goes before the first argument there, where the line leads to it. -/
theorem Invocation.Admits.place_behind {n : Node} (h : v.Admits code) (hcode : Utf8.decode source = .ok code)
    (hf : n.Fits source) (hn : n.closesComments source = true) (hv : v ∈ n.invocations source)
    (hindex : argumentIndex v.tokens ≠ 0) :
    ∃ s t, (argumentsOf v.tokens).head? = some s ∧ s.tokens.head? = some t ∧ IsClear code t.start ∧
      argumentPlace v.start v.tokens = some t.start ∧ IsFront source code t.start := by
  obtain ⟨s, t, hs, ht, hclear⟩ := h.behindTarget hindex
  refine ⟨s, t, hs, ht, hclear, ?_⟩
  rcases argumentIndex_cases v.tokens with ⟨hzero, _⟩ |
    ⟨target, comma, rest, htokens, _, hsep, hlen, _, harguments⟩
  · exact absurd hzero hindex
  · rw [harguments] at hs
    have hhead := head?_of_segmentsOf hs ht
    obtain ⟨rest, rfl⟩ : ∃ more, rest = t :: more := by
      cases rest with
      | nil => cases hhead
      | cons u rest => exact ⟨rest, by rw [Option.some.inj hhead]⟩
    refine ⟨?_, ?_⟩
    · have hget : v.tokens[argumentIndex v.tokens]? = some t := by
        rw [hlen, htokens, List.getElem?_append_right (Nat.le_refl _), Nat.sub_self]
        rfl
      rw [argumentPlace, hget, Option.map_some, if_neg hindex]
    · have hspaced := hf.spaced hn (passesBlanks_meetsFront hcode)
        (fun k hk hend => meetsFront_of_endsComment hcode hk hend) hv
      have hcovers := (hf.laid (Node.mem_sortedInvocations.mpr hv)).covers comma (by rw [htokens]; simp)
      obtain ⟨k, hstop, hcomma⟩ := hcovers.comma hsep
      have hfront := isFront_behind hcode (f := ',') (by decide) (by decide) hcomma
      rw [htokens, List.append_assoc, List.singleton_append] at hspaced
      rcases hspaced.next (hstop ▸ Or.inl hfront) with hfront | hline
      · exact hfront
      · exact absurd hline (hclear.not_newline hcode)

theorem exists_foreign_of_isOpener {k : Nat} (h : Node.isOpener (source.slice k (k + 1)) = true) :
    ∃ f, isForeign f = true ∧ f ≠ '/' ∧ source[k]? = some (asciiByte f) := by
  have hbyte {b : UInt8} (hb : source.slice k (k + 1) = [b]) : source[k]? = some b :=
    Bytes.getElem?_of_slice (a := k) (b := k + 1) (k := 0) (by omega) (by omega) (by rw [hb]; rfl)
  rw [Node.isOpener, Bool.or_eq_true, Bool.or_eq_true, beq_iff_eq, beq_iff_eq, beq_iff_eq] at h
  rcases h with (h | h) | h
  · exact ⟨'(', by decide, by decide, hbyte h⟩
  · exact ⟨'[', by decide, by decide, hbyte h⟩
  · exact ⟨'{', by decide, by decide, hbyte h⟩

/-- A new argument is written where it is read, with the line leading to it. -/
theorem Invocation.Admits.insertAt {n : Node} (h : v.Admits code) (hcode : Utf8.decode source = .ok code)
    (hf : n.Fits source) (hn : n.closesComments source = true) (hv : v ∈ n.invocations source)
    (hsome : v.tokens ≠ []) (lines : List Nat) :
    ∃ p : Nat, (v.call source lines).insertAt.start = p ∧ argumentPlace v.start v.tokens = some (p : Int) ∧
      IsBreak source p ∧ ∃ i, i ≤ code.length ∧ byteOffset code i = p ∧
        Guards (lastLine (code.take i)) code[i]? := by
  have hl := hf.laid (Node.mem_sortedInvocations.mpr hv)
  rw [call_insertAt]
  cases hseg : segmentsOf v.tokens with
  | nil => exact absurd (segmentsOf_eq_nil hseg) hsome
  | cons s ss =>
    have hspan := targetSpan_isSome lines s ss
    cases ht : s.isTarget with
    | false =>
      rw [ht, Option.isSome_eq_false_iff, Option.isNone_iff_eq_none] at hspan
      rw [hspan]
      have hzero : argumentIndex v.tokens = 0 := by
        rw [argumentIndex, hseg]
        exact if_neg (by rw [ht]; decide)
      obtain ⟨k, hk⟩ := Int.eq_ofNat_of_zero_le hl.nonneg
      have hopener := hf.opener hv
      rw [hk] at hopener
      obtain ⟨f, hforeign, hslash, hbyte⟩ := exists_foreign_of_isOpener hopener
      refine ⟨k + 1, by rw [hk]; rfl, ?_, (isFront_behind hcode hforeign hslash hbyte).isBreak,
        guarded_behind hcode hforeign hslash hbyte⟩
      obtain ⟨t, ts, hts⟩ := List.exists_cons_of_ne_nil hsome
      rw [argumentPlace, hzero, hts, List.getElem?_cons_zero, Option.map_some, if_pos rfl, hk]
      rfl
    | true =>
      rw [ht] at hspan
      obtain ⟨span, hspan⟩ := Option.isSome_iff_exists.mp hspan
      have hindex : argumentIndex v.tokens ≠ 0 := by
        rw [argumentIndex, hseg]
        simp only [ht, if_true]
        omega
      obtain ⟨s', t, hs', ht', hclear, hplace, hfront⟩ := h.place_behind hcode hf hn hv hindex
      obtain ⟨p, hp⟩ : ∃ p : Nat, t.start = p := by
        obtain ⟨before, _, _, _, hp, _⟩ := hclear
        exact ⟨_, hp.symm⟩
      rw [hp] at hclear hplace hfront
      refine ⟨p, ?_, hplace, hfront.isBreak, hfront.guarded hclear⟩
      rw [hspan, hs', Option.bind_some, ht']
      exact hp

end

end LogRef
