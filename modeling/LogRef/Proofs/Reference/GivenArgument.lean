import LogRef.Proofs.Reference.Completed

/-!
# Arguments that are there already

The texts put into a source leave the arguments of a call as they were if there are none at its own level. The
other calls inside of an argument may get some; but such a call has a message, so what it is in has a quote in
it and is no reference, before and after.
-/
namespace LogRef

/-- No text is put in at the level of the call. -/
def Invocation.Untouched (e : Edits) (v : Invocation) : Prop := ∀ p : Nat, v.AtLevel p → e.text p = []

/-- Key-value arguments of which one is a reference if the other one is. -/
structure KeyValue.Matches (kv' kv : KeyValue) : Prop where
  key : kv'.key = referenceKey ↔ kv.key = referenceKey
  valueText : kv'.valueText = kv.valueText ∨ '"' ∈ kv.valueText.toList ∧ '"' ∈ kv'.valueText.toList

/-- An id is all digits, so a text with a quote in it is none. -/
theorem readId_of_quote {text : List Char} (h : '"' ∈ text) : readId (Text.trim text) = .ok none := by
  have hmem : '"' ∈ Text.trim text := mem_trim h (by decide)
  refine if_pos ?_
  rw [Bool.or_eq_true, Bool.not_eq_true', List.all_eq_false]
  exact .inr ⟨_, hmem, by decide⟩

theorem KeyValue.Matches.readId_eq {kv' kv : KeyValue} (h : kv'.Matches kv) :
    readId (Text.trim kv'.valueText.toList) = readId (Text.trim kv.valueText.toList) := by
  rcases h.valueText with heq | ⟨hold, hnew⟩
  · rw [heq]
  · rw [readId_of_quote hold, readId_of_quote hnew]

theorem find?_rel {α β : Type} {R : α → β → Prop} {p : α → Bool} {q : β → Bool} {as : List α} {bs : List β}
    (h : List.Forall₂ R as bs) (hp : ∀ a b, R a b → p a = q b) : Option.Rel R (as.find? p) (bs.find? q) := by
  induction h with
  | nil => exact .none
  | @cons a b as bs hab _ ih =>
    rw [List.find?_cons, List.find?_cons, hp a b hab]
    cases q b with
    | true => exact .some hab
    | false => exact ih

theorem grownTokens_of_nil {e : Edits} {edited : Bytes} {start : Int} {tokens : List Token}
    (h : e.argument true start tokens = []) :
    grownTokens e edited start tokens = tokens.map (Token.moved e edited) := by
  rw [grownTokens, h, List.nil_append, ← List.map_append, List.take_append_drop]

section

variable {source : Bytes} {e : Edits} {v : Invocation} {t u : Token}

theorem Bytes.mem_slice {a c : Int} {k : Nat} {b : UInt8} (h : source[k]? = some b) (ha : 0 ≤ a) (hk : a ≤ k)
    (hc : k < c) : b ∈ source.slice a c := by
  rw [Bytes.slice_eq ha (by omega)]
  refine List.mem_iff_getElem?.mpr ⟨k - a.toNat, ?_⟩
  rw [List.getElem?_drop, List.getElem?_take, if_pos (by omega), ← h]
  congr 1
  omega

theorem Bytes.slice_of_le {a b : Int} (ha : 0 ≤ a) (hb : 0 ≤ b) (h : b ≤ a) : source.slice a b = [] := by
  rw [Bytes.slice_eq ha hb, List.drop_eq_nil_of_le]
  rw [List.length_take]
  omega

/-- A byte of the source is found again. -/
theorem Edits.getElem?_right {k : Nat} {b : UInt8} (h : source[k]? = some b) :
    (e.apply source)[(e.right k).toNat]? = some b := by
  have hlt := (List.getElem?_eq_some_iff.mp h).1
  have hquiet : e.Quiet k (k + 1) := fun p _ hp => by omega
  have hslice : (e.apply source).slice (e.right k) (e.left (k + 1)) = source.slice k (k + 1) :=
    Edits.slice_apply (by omega) (by omega) (by omega) hquiet
  have hbyte : (source.slice k (k + 1))[0]? = some b := by
    rw [Bytes.slice_eq (by omega) (by omega), List.getElem?_drop, List.getElem?_take, if_pos (by omega)]
    exact h
  rw [← hslice] at hbyte
  exact Bytes.getElem?_of_slice Edits.right_nonneg Edits.left_nonneg hbyte

end

namespace Offered

open Insertion

variable {source : Bytes} {n : Node} {g : Invocation → Option Entry} {entries : List Entry}
  {v : Invocation} {start : Nat} {t u : Token}

theorem untouched (h : Offered source n g entries) (hv : v ∈ n.sortedInvocations source)
    (hnone : ∀ entry ∈ pending entries, g v ≠ some entry) : v.Untouched (numbering start entries) := by
  intro p hlevel
  refine Decidable.byContradiction fun htext => ?_
  obtain ⟨entry, he, hg, _⟩ := h.of_text_atLevel hv hlevel htext
  exact hnone entry he hg

/-- Only a call with a new argument gets the tokens of one. -/
theorem argument_eq_nil (h : Offered source n g entries) (hv : v ∈ n.sortedInvocations source)
    (hsite : ∀ entry ∈ pending entries, g v = some entry → entry.site ≠ .newArgument) :
    (numbering start entries).argument true v.start v.tokens = [] := by
  rw [Edits.argument, if_pos rfl]
  cases hplace : argumentPlace v.start v.tokens with
  | none => rfl
  | some p =>
    have hlevel := (h.fits.laid hv).atLevel_of_argumentPlace hplace
    have h0 := (h.fits.laid hv).nonneg
    obtain ⟨k, rfl⟩ := Int.eq_ofNat_of_zero_le (show 0 ≤ p by have := hlevel.1; omega)
    refine numbering_tokens_of_message fun entry he hp => ?_
    rw [Int.toNat_natCast] at hp
    exact hsite entry he (h.eq_of_atLevel he hv (hp ▸ hlevel))

/-- A text inside of a token is in a call with a message, and that in a tree. -/
theorem quote_of_text (h : Offered source n g entries) (hv : v ∈ n.sortedInvocations source)
    (hfree : v.Untouched (numbering start entries)) (ht : t ∈ v.tokens) {p : Nat}
    (htext : (numbering start entries).text p ≠ []) (hlo : t.start < p) (hhi : p < t.stop) :
    t.kind = .tree ∧ ∃ k : Nat, t.start ≤ k ∧ k < t.stop ∧ source[k]? = some quoteByte := by
  have hl := h.fits.laid hv
  have hkind : t.kind = .tree := by
    refine Decidable.byContradiction fun hk => ?_
    exact htext (hfree p (hl.atLevel ht hk hlo hhi))
  refine ⟨hkind, ?_⟩
  obtain ⟨entry, he, rfl⟩ := exists_of_text htext
  obtain ⟨w, hw, hg, hoffers⟩ := h.exists_of_pending he
  have hlw := h.fits.laid hw
  have hlevel := (hoffers.atLevel hlw).2
  rw [← hoffers.place_eq hlw] at hlevel
  have hne : v ≠ w := by
    rintro rfl
    exact htext (hfree _ hlevel)
  have hin := hl.ordered.mem ht
  have hapart := (Node.invocations_apart h.fits.wellFormed h.fits.nonneg h.fits.within).forall
    (Node.mem_sortedInvocations.mp hv) (Node.mem_sortedInvocations.mp hw) hne
  rcases hapart with hbefore | hbehind | ⟨x, hx, hxk, hxlo, hxhi⟩ | ⟨x, hx, hxk, hxlo, hxhi⟩
  · have := hlevel.1
    omega
  · have := hlevel.2.1
    omega
  · obtain rfl : t = x := by
      have hw1 := hlevel.1
      have hw2 := hlevel.2.1
      rcases hl.ordered.apart ht hx with heq | hle | hle
      · exact heq
      · omega
      · omega
    obtain ⟨m, ⟨a, b⟩, hm, hrange, _⟩ := hoffers
    have hmem := (mem_of_messageToken hm).1
    have hcovers := hlw.covers m hmem
    have hwithin := hcovers.contentRange_within hrange
    have hmin := hlw.ordered.mem hmem
    obtain ⟨a, rfl⟩ := Int.eq_ofNat_of_zero_le (show 0 ≤ a by have := hcovers.nonneg; omega)
    obtain ⟨k, rfl, hquote⟩ := hcovers.quote_before hrange
    exact ⟨k, by omega, by omega, hquote⟩
  · rcases hlevel.2.2 x hx hxk with hle | hle <;> omega

/-- From one token of an untouched call to another, nothing is put in, or there is a quote. -/
theorem quiet_or_quote (h : Offered source n g entries) (hv : v ∈ n.sortedInvocations source)
    (hfree : v.Untouched (numbering start entries)) (ht : t ∈ v.tokens) (hu : u ∈ v.tokens) :
    (numbering start entries).Quiet t.start u.stop ∨
      ∃ k : Nat, t.start ≤ k ∧ k < u.stop ∧ source[k]? = some quoteByte := by
  refine Classical.or_iff_not_imp_left.mpr fun hloud => ?_
  obtain ⟨p, htext, hlo, hhi⟩ : ∃ p : Nat, (numbering start entries).text p ≠ [] ∧ t.start < p ∧ p < u.stop := by
    refine Classical.byContradiction fun hnone => hloud fun p htext hlo => Int.not_lt.mp fun hhi => ?_
    exact hnone ⟨p, htext, hlo, hhi⟩
  have hl := h.fits.laid hv
  have htin := hl.ordered.mem ht
  have huin := hl.ordered.mem hu
  -- the text is not at the level of the call, so it is in a tree
  obtain ⟨x, hx, hxlo, hxhi⟩ : ∃ x ∈ v.tokens, x.start < p ∧ p < x.stop := by
    refine Classical.byContradiction fun hnone => htext (hfree p ⟨by omega, by omega, fun x hx _ => ?_⟩)
    refine Classical.byContradiction fun hin => hnone ⟨x, hx, by omega, by omega⟩
  obtain ⟨_, k, hklo, hkhi, hquote⟩ := h.quote_of_text hv hfree hx htext hxlo hxhi
  refine ⟨k, ?_, ?_, hquote⟩
  · rcases hl.ordered.apart ht hx with rfl | hle | hle <;> omega
  · rcases hl.ordered.apart hu hx with rfl | hle | hle <;> omega

/-- The bytes from one token of an untouched call to another: as they were, or with a quote in them before
and after. -/
theorem slice_or_quote (h : Offered source n g entries) (hv : v ∈ n.sortedInvocations source)
    (hfree : v.Untouched (numbering start entries)) (ht : t ∈ v.tokens) (hu : u ∈ v.tokens) :
    ((numbering start entries).apply source).slice ((numbering start entries).right t.start)
        ((numbering start entries).left u.stop) = source.slice t.start u.stop ∨
      (quoteByte ∈ source.slice t.start u.stop ∧
        quoteByte ∈ ((numbering start entries).apply source).slice ((numbering start entries).right t.start)
          ((numbering start entries).left u.stop)) := by
  have hl := h.fits.laid hv
  have h0 := (hl.covers t ht).nonneg
  have h1 := (hl.covers u hu).within
  have hu0 := (hl.covers u hu).nonneg
  have hulen := (hl.covers u hu).nonempty
  rcases h.quiet_or_quote hv hfree ht hu with hquiet | ⟨k, hlo, hhi, hquote⟩
  · rcases Int.lt_or_le u.stop t.start with hlt | hle
    · have hmono := Edits.left_mono (e := numbering start entries) (Int.le_of_lt hlt)
      rw [Bytes.slice_of_le h0 (by omega) (Int.le_of_lt hlt), Bytes.slice_of_le Edits.right_nonneg
        Edits.left_nonneg (Int.le_trans hmono Edits.left_le_right)]
      exact Or.inl rfl
    · exact Or.inl (Edits.slice_apply h0 hle h1 hquiet)
  · have hright := Edits.getElem?_right (e := numbering start entries) hquote
    have hnat := Int.toNat_of_nonneg (Edits.right_nonneg (e := numbering start entries) (p := k))
    refine Or.inr ⟨Bytes.mem_slice hquote h0 hlo hhi, Bytes.mem_slice hright Edits.right_nonneg ?_ ?_⟩
    · rw [hnat]
      exact (Edits.right_le_right_iff h0 (by omega)).mpr hlo
    · rw [hnat]
      exact Edits.right_lt_left (by omega) hhi

/-- A key is the one of a reference if it was before. -/
theorem keyText_moved (h : Offered source n g entries) (hv : v ∈ n.sortedInvocations source)
    (hfree : v.Untouched (numbering start entries)) (ht : t ∈ v.tokens) :
    (t.moved (numbering start entries) ((numbering start entries).apply source)).keyText = referenceKey ↔
      t.keyText = referenceKey := by
  have hcovers := (h.fits.laid hv).covers t ht
  have hsame (heq : ((numbering start entries).apply source).slice ((numbering start entries).right t.start)
      ((numbering start entries).left t.stop) = source.slice t.start t.stop) :
      (t.moved (numbering start entries) ((numbering start entries).apply source)).keyText = t.keyText := by
    rw [Token.keyText, Token.keyText, Token.moved, heq, hcovers.text]
  by_cases hk : t.kind = .tree
  · rcases h.slice_or_quote hv hfree ht ht with heq | ⟨hold, hnew⟩
    · rw [hsame heq]
    · have hne {bytes : Bytes} (hq : quoteByte ∈ bytes) :
          String.ofList (Utf8.decodeLossy bytes) ≠ referenceKey := by
        intro heq
        have hmem : '"' ∈ Utf8.decodeLossy bytes := Utf8.mem_decodeLossy (by decide) hq
        have htext := congrArg String.toList heq
        rw [String.toList_ofList] at htext
        rw [htext] at hmem
        revert hmem
        decide
      rw [← hcovers.text] at hold
      simp only [Token.keyText, Token.moved, hk, reduceCtorEq, if_false, hne hold, hne hnew]
  · have hquiet : (numbering start entries).Quiet t.start t.stop := by
      intro p htext hlo
      refine Int.not_lt.mp fun hhi => hk (h.quote_of_text hv hfree ht htext hlo hhi).1
    rw [hsame (Edits.slice_apply hcovers.nonneg (Int.le_of_lt hcovers.nonempty) hcovers.within hquiet)]

/-- Tokens of an untouched call stand side by side if they did before. -/
theorem adjacent_moved (h : Offered source n g entries) (hv : v ∈ n.sortedInvocations source)
    (hfree : v.Untouched (numbering start entries)) (ht : t ∈ v.tokens) (hu : u ∈ v.tokens) :
    ((numbering start entries).left t.stop == (numbering start entries).right u.start) =
      (t.stop == u.start) := by
  have hl := h.fits.laid hv
  have htin := hl.ordered.mem ht
  have huin := hl.ordered.mem hu
  have ht0 := (hl.covers t ht).nonneg
  obtain ⟨k, hk⟩ := Int.eq_ofNat_of_zero_le (hl.covers u hu).nonneg
  have hlevel : v.AtLevel (k : Int) := by
    refine ⟨by omega, by omega, fun x hx _ => ?_⟩
    have hxin := hl.ordered.mem hx
    rcases hl.ordered.apart hu hx with rfl | hle | hle <;> omega
  have hright : (numbering start entries).right u.start = (numbering start entries).left u.start := by
    rw [hk]
    exact Edits.right_eq_left (hfree k hlevel)
  rw [hright, Bool.eq_iff_iff, beq_iff_eq, beq_iff_eq]
  refine ⟨fun heq => ?_, fun heq => by rw [heq]⟩
  rcases Int.lt_trichotomy t.stop u.start with hlt | heq' | hlt
  · have := Edits.left_lt_left (e := numbering start entries) (by omega) hlt
    omega
  · exact heq'
  · have := Edits.left_lt_left (e := numbering start entries) (by omega) hlt
    omega

theorem assignment_moved (h : Offered source n g entries) (hs : (numbering start entries).Suits source n)
    (hv : v ∈ n.sortedInvocations source) (hfree : v.Untouched (numbering start entries)) {ts : List Token}
    (hts : ∀ t ∈ ts, t ∈ v.tokens) :
    assignment (ts.map (Token.moved (numbering start entries) ((numbering start entries).apply source))) =
      assignment ts := by
  have hpunct (t : Token) (ht : t ∈ v.tokens) :=
    funext (hs.steady h.fits (Node.mem_sortedInvocations.mp hv) ht).isPunct
  have hnone : ∀ b ∈ (none : Option Token), b ∈ v.tokens := fun _ hb => by cases hb
  exact assignmentFrom_map hpunct (fun _ _ ht hu => h.adjacent_moved hv hfree ht hu) hnone hts

/-- A key-value argument of an untouched call. -/
theorem keyValue_moved (h : Offered source n g entries) (hs : (numbering start entries).Suits source n)
    (hv : v ∈ n.sortedInvocations source) (hfree : v.Untouched (numbering start entries)) {s : Segment}
    (hts : ∀ t ∈ s.tokens, t ∈ v.tokens) (lines' lines : List Nat) :
    Option.Rel KeyValue.Matches
      ((s.mapTokens (Token.moved (numbering start entries)
        ((numbering start entries).apply source))).keyValue ((numbering start entries).apply source) lines')
      (s.keyValue source lines) := by
  obtain ⟨tokens, terminator⟩ := s
  cases tokens with
  | nil => exact .none
  | cons first rest =>
    obtain ⟨last, hlast⟩ : ∃ last, (first :: rest).getLast? = some last := ⟨_, List.getLast?_cons⟩
    have hlastv := hts last (List.mem_of_getLast? hlast)
    have hassignment := h.assignment_moved hs hv hfree hts
    unfold Segment.keyValue
    simp only [Segment.mapTokens, List.map_cons] at hassignment ⊢
    rw [hassignment, List.getLastD_eq_getLast?, List.getLastD_eq_getLast?, ← List.map_cons, List.getLast?_map,
      hlast, Option.map_some, Option.getD_some, Option.getD_some]
    simp only [List.getElem?_map]
    have hfirst := h.keyText_moved hv hfree (hts first List.mem_cons_self)
    cases assignment (first :: rest) with
    | none => exact .some ⟨hfirst, .inl rfl⟩
    | some i =>
      simp only [Option.bind_some]
      cases hvalue : (first :: rest)[i + 1]? with
      | none => exact .some ⟨hfirst, .inl rfl⟩
      | some u =>
        have hu := hts u (List.mem_of_getElem? hvalue)
        have hquoted {bytes : Bytes} (hquote : quoteByte ∈ bytes) : '"' ∈ (Bytes.lossyText bytes).toList := by
          rw [Bytes.lossyText, String.toList_ofList]
          exact Utf8.mem_decodeLossy (by decide) hquote
        refine .some ⟨hfirst, ?_⟩
        rcases h.slice_or_quote hv hfree hu hlastv with heq | ⟨hold, hnew⟩
        · exact .inl (congrArg Bytes.lossyText heq)
        · exact .inr ⟨hquoted hold, hquoted hnew⟩

theorem argument_of_untouched (h : Offered source n g entries) (hs : (numbering start entries).Suits source n)
    (hv : v ∈ n.sortedInvocations source) (hfree : v.Untouched (numbering start entries)) :
    (numbering start entries).argument true v.start v.tokens = [] := by
  rw [Edits.argument, if_pos rfl]
  cases hplace : argumentPlace v.start v.tokens with
  | none => rfl
  | some p =>
    have hlevel := (h.fits.laid hv).atLevel_of_argumentPlace hplace
    have h0 := (h.fits.laid hv).nonneg
    obtain ⟨k, rfl⟩ := Int.eq_ofNat_of_zero_le (show 0 ≤ p by have := hlevel.1; omega)
    exact Decidable.byContradiction fun htokens => hs.written k htokens (hfree k hlevel)

/-- The key-value arguments of an untouched call. -/
theorem keyValues_moved (h : Offered source n g entries) (hs : (numbering start entries).Suits source n)
    (hv : v ∈ n.sortedInvocations source) (hfree : v.Untouched (numbering start entries))
    (lines' lines : List Nat) :
    List.Forall₂ KeyValue.Matches
      ((v.grown (numbering start entries) ((numbering start entries).apply source)).call
        ((numbering start entries).apply source) lines').keyValues (v.call source lines).keyValues := by
  have hsteady : ∀ t ∈ v.tokens, t.Steady (numbering start entries) _ :=
    fun t ht => hs.steady h.fits (Node.mem_sortedInvocations.mp hv) ht
  have hinside : ∀ s ∈ (splitArguments v.tokens).1, ∀ t ∈ s.tokens, t ∈ v.tokens := fun s hmem t ht =>
    mem_of_mem_argumentsOf (by rw [← splitArguments_append]; exact List.mem_append_left _ hmem) ht
  rw [Invocation.call_keyValues, Invocation.call_keyValues, Invocation.grown,
    grownTokens_of_nil (h.argument_of_untouched hs hv hfree), splitArguments_map fun t ht => (hsteady t ht).alike,
    List.filterMap_map]
  refine List.rel_filterMap (R := fun s r => s = r ∧ s ∈ (splitArguments v.tokens).1) ?_ ?_
  · rintro s r ⟨rfl, hmem⟩
    exact h.keyValue_moved hs hv hfree (hinside s hmem) lines' lines
  · exact List.forall₂_same.mpr fun s hmem => ⟨rfl, hmem⟩

end Offered

end LogRef
