import Mathlib.Data.List.Pairwise
import LogRef.Proofs.Syntax.GrownCalls
import LogRef.Proofs.Text.Encoding

/-!
# Messages of an edited source

The message of a call is the contents of a string literal. A text put in at the head of the contents becomes
the head of the message, and all else stays.
-/
namespace LogRef

/-- What may stand before the first quote of a string literal. -/
def isLiteralLead (lead : Bytes) : Bool :=
  let mark := (lead.reverse.dropWhile (· == asciiByte '#')).reverse
  mark == [] || mark == [asciiByte 'r']

/-- The arguments behind a leading target. -/
def argumentsOf (tokens : List Token) : List Segment :=
  match segmentsOf tokens with
  | [] => []
  | s :: rest => if s.isTarget then rest else s :: rest

/-- The key-value arguments and those behind them. -/
def splitArguments (tokens : List Token) : List Segment × List Segment :=
  (splitAtSemicolon (argumentsOf tokens)).getD ([], argumentsOf tokens)

/-- The string literal that a message is read from. -/
def messageToken (tokens : List Token) : Option Token := do
  let segment ← (splitArguments tokens).2.head?
  let first ← segment.tokens.head?
  if first.kind = .string then some first else none

section

theorem targetSpan_isSome (lines : List Nat) (s : Segment) (ss : List Segment) :
    (targetSpan lines (s :: ss)).isSome = s.isTarget := by
  rw [targetSpan]
  cases ht : s.isTarget with
  | false => rfl
  | true =>
    cases hs : s.tokens with
    | nil => rw [Segment.isTarget, hs] at ht; cases ht
    | cons t ts => rfl

theorem argumentsOf_eq (lines : List Nat) (tokens : List Token) : argumentsOf tokens =
    if (targetSpan lines (segmentsOf tokens)).isSome then (segmentsOf tokens).drop 1
    else segmentsOf tokens := by
  unfold argumentsOf
  cases segmentsOf tokens with
  | nil => rfl
  | cons s ss => rw [targetSpan_isSome]; rfl

/-- The message of a call is the contents of its message token. -/
theorem Invocation.call_message (source : Bytes) (lines : List Nat) (v : Invocation) :
    (v.call source lines).message = (messageToken v.tokens).bind fun t => t.contentRange.map fun r =>
      ⟨Span.ofRange lines r.1 r.2, (source.slice r.1 r.2).lossyText⟩ := by
  simp only [Invocation.call, ← argumentsOf_eq, messageToken, messageOf]
  change messageOf source lines (splitArguments v.tokens).2 = _
  unfold messageOf
  cases (splitArguments v.tokens).2.head? with
  | none => rfl
  | some s =>
    simp only [bind, Option.bind_some]
    cases s.tokens.head? with
    | none => rfl
    | some t =>
      simp only [Option.bind_some]
      split
      · rw [Option.bind_some]
        cases t.contentRange <;> rfl
      · rfl

theorem Invocation.call_keyValues (source : Bytes) (lines : List Nat) (v : Invocation) :
    (v.call source lines).keyValues =
      (splitArguments v.tokens).1.filterMap (Segment.keyValue source lines) := by
  simp only [Invocation.call, ← argumentsOf_eq]
  rfl

theorem Invocation.call_insertAt (source : Bytes) (lines : List Nat) (v : Invocation) :
    (v.call source lines).insertAt.start =
      match targetSpan lines (segmentsOf v.tokens) with
      | none => v.start + 1
      | some t => (((argumentsOf v.tokens).head?.bind fun s => s.tokens.head?).map Token.start).getD t.stop := by
  simp only [Invocation.call, ← argumentsOf_eq]
  rfl

theorem splitAtSemicolon_eq_some {ss a b : List Segment} (h : splitAtSemicolon ss = some (a, b)) :
    ss = a ++ b := by
  induction ss generalizing a b with
  | nil => cases h
  | cons s ss ih =>
    rw [splitAtSemicolon] at h
    split at h
    · obtain ⟨rfl, rfl⟩ := Prod.mk.inj (Option.some.inj h)
      rfl
    · obtain ⟨⟨front, back⟩, hr, heq⟩ := Option.map_eq_some_iff.mp h
      obtain ⟨rfl, rfl⟩ := Prod.mk.inj heq
      rw [ih hr, List.cons_append]

theorem splitArguments_append (tokens : List Token) :
    (splitArguments tokens).1 ++ (splitArguments tokens).2 = argumentsOf tokens := by
  unfold splitArguments
  cases hs : splitAtSemicolon (argumentsOf tokens) with
  | none => rfl
  | some r => exact (splitAtSemicolon_eq_some hs).symm

theorem mem_of_mem_argumentsOf {tokens : List Token} {s : Segment} {t : Token}
    (hs : s ∈ argumentsOf tokens) (ht : t ∈ s.tokens) : t ∈ tokens := by
  refine mem_of_mem_segmentsOf (s := s) ?_ ht
  unfold argumentsOf at hs
  cases hseg : segmentsOf tokens with
  | nil => rw [hseg] at hs; cases hs
  | cons r rs =>
    rw [hseg] at hs
    simp only at hs
    split at hs
    · exact List.mem_cons_of_mem r hs
    · exact hs

/-- The message token is at the head of the first argument behind the key-value ones. -/
theorem messageToken_head {tokens : List Token} {t : Token} (h : messageToken tokens = some t) :
    ∃ s rest, (splitArguments tokens).2 = s :: rest ∧ t ∈ s.tokens ∧ t.kind = .string := by
  simp only [messageToken, bind, Option.bind_eq_some_iff] at h
  obtain ⟨s, hs, first, hfirst, h⟩ := h
  obtain ⟨rest, hrest⟩ := List.head?_eq_some_iff.mp hs
  split at h
  · next hk =>
    obtain rfl := Option.some.inj h
    exact ⟨s, rest, hrest, List.mem_of_mem_head? hfirst, hk⟩
  · cases h

theorem mem_of_messageToken {tokens : List Token} {t : Token} (h : messageToken tokens = some t) :
    t ∈ tokens ∧ t.kind = .string := by
  obtain ⟨s, rest, hrest, ht, hk⟩ := messageToken_head h
  refine ⟨mem_of_mem_argumentsOf (s := s) ?_ ht, hk⟩
  rw [← splitArguments_append, hrest]
  exact List.mem_append_right _ List.mem_cons_self

section Mapped

variable {f : Token → Token} {ts : List Token}

theorem splitAtSemicolon_map (f : Token → Token) (ss : List Segment) :
    splitAtSemicolon (ss.map (Segment.mapTokens f)) = (splitAtSemicolon ss).map fun r =>
      (r.1.map (Segment.mapTokens f), r.2.map (Segment.mapTokens f)) := by
  induction ss with
  | nil => rfl
  | cons s ss ih =>
    simp only [List.map_cons, splitAtSemicolon, ih, Segment.mapTokens]
    split
    · rfl
    · cases splitAtSemicolon ss <;> rfl

theorem argumentsOf_map (h : ∀ t ∈ ts, t.Alike (f t)) :
    argumentsOf (ts.map f) = (argumentsOf ts).map (Segment.mapTokens f) := by
  unfold argumentsOf
  rw [segmentsOf_map fun t ht => (h t ht).separator?]
  cases hseg : segmentsOf ts with
  | nil => rfl
  | cons s ss =>
    simp only [List.map_cons]
    rw [Segment.isTarget_map fun t ht =>
      h t (mem_of_mem_segmentsOf (hseg ▸ List.mem_cons_self) ht)]
    split <;> rfl

theorem splitArguments_map (h : ∀ t ∈ ts, t.Alike (f t)) :
    splitArguments (ts.map f) = ((splitArguments ts).1.map (Segment.mapTokens f),
      (splitArguments ts).2.map (Segment.mapTokens f)) := by
  unfold splitArguments
  rw [argumentsOf_map h, splitAtSemicolon_map]
  cases splitAtSemicolon (argumentsOf ts) <;> rfl

end Mapped

section Moved

variable {e : Edits} {edited : Bytes} {ts : List Token}

/-- The message is where it was if the arguments behind the key-value ones are what they were, moved. -/
theorem messageToken_of_arguments {ts' : List Token} (h : (splitArguments ts').2 =
      (splitArguments ts).2.map (Segment.mapTokens (Token.moved e edited))) :
    messageToken ts' = (messageToken ts).map (Token.moved e edited) := by
  unfold messageToken
  rw [h, List.head?_map]
  cases (splitArguments ts).2.head? with
  | none => rfl
  | some s =>
    simp only [Option.map_some, bind, Option.bind_some, Segment.mapTokens, List.head?_map]
    cases s.tokens.head? with
    | none => rfl
    | some t =>
      simp only [Option.map_some, Option.bind_some,
        show (t.moved e edited).kind = t.kind from rfl]
      split <;> rfl

theorem messageToken_moved (h : ∀ t ∈ ts, t.Steady e edited) :
    messageToken (ts.map (Token.moved e edited)) = (messageToken ts).map (Token.moved e edited) :=
  messageToken_of_arguments (by rw [splitArguments_map fun t ht => (h t ht).alike])

end Moved

theorem split_of_findIdx?_quote {bytes : Bytes} {i : Nat}
    (h : bytes.findIdx? (· == quoteByte) = some i) :
    ∃ a b, bytes = a ++ quoteByte :: b ∧ a.length = i ∧ quoteByte ∉ a := by
  induction bytes generalizing i with
  | nil => cases h
  | cons x bytes ih =>
    rw [List.findIdx?_cons] at h
    split at h
    · next hx =>
      obtain rfl : 0 = i := Option.some.inj h
      obtain rfl : x = quoteByte := by simpa using hx
      exact ⟨[], bytes, rfl, rfl, List.not_mem_nil⟩
    · next hx =>
      obtain ⟨j, hj, rfl⟩ := Option.map_eq_some_iff.mp h
      obtain ⟨a, b, rfl, rfl, ha⟩ := ih hj
      refine ⟨x :: a, b, rfl, rfl, ?_⟩
      rw [List.mem_cons, not_or]
      exact ⟨fun hq => hx (by rw [← hq]; rfl), ha⟩

theorem findIdx?_quote {a : Bytes} (h : quoteByte ∉ a) (b : Bytes) :
    (a ++ quoteByte :: b).findIdx? (· == quoteByte) = some a.length := by
  induction a with
  | nil => rfl
  | cons x a ih =>
    rw [List.mem_cons, not_or] at h
    have hx : (x == quoteByte) = false := beq_eq_false_iff_ne.mpr fun hq => h.1 hq.symm
    rw [List.cons_append, List.findIdx?_cons, hx, ih h.2]
    rfl

/-- A text with two quotes is cut at the first and at the last one. -/
theorem split_of_quotes {bytes : Bytes} {i j : Nat} (hfirst : bytes.findIdx? (· == quoteByte) = some i)
    (hlast : bytes.reverse.findIdx? (· == quoteByte) = some j) (hlt : i < bytes.length - 1 - j) :
    ∃ lead inner trail : Bytes, bytes = lead ++ quoteByte :: (inner ++ quoteByte :: trail) ∧
      quoteByte ∉ lead ∧ quoteByte ∉ trail ∧ lead.length = i ∧ trail.length = j := by
  obtain ⟨lead, rest, hrest, rfl, hlead⟩ := split_of_findIdx?_quote hfirst
  obtain ⟨trail, front, hfront, rfl, htrail⟩ := split_of_findIdx?_quote hlast
  have hbytes : bytes = front.reverse ++ quoteByte :: trail.reverse := by
    rw [← List.reverse_reverse bytes, hfront, List.reverse_append, List.reverse_cons, List.append_assoc,
      List.singleton_append]
  have hlen : bytes.length = front.length + 1 + trail.length := by
    rw [hbytes]
    simp only [List.length_append, List.length_reverse, List.length_cons]
    omega
  -- the last quote is behind the first one
  have hprefix : lead ++ [quoteByte] <+: front.reverse := by
    refine List.prefix_of_prefix_length_le ⟨rest, ?_⟩ ⟨_, hbytes.symm⟩ ?_
    · rw [hrest, List.append_assoc, List.singleton_append]
    · rw [List.length_append, List.length_reverse, List.length_singleton]
      omega
  obtain ⟨inner, hinner⟩ := hprefix
  rw [List.append_assoc, List.singleton_append] at hinner
  refine ⟨lead, inner, trail.reverse, ?_, hlead, by rwa [List.mem_reverse], rfl, List.length_reverse⟩
  rw [hbytes, ← hinner, List.append_assoc, List.cons_append]

section Quoted

variable {lead inner trail : Bytes}

theorem length_quoted (lead inner trail : Bytes) : (lead ++ quoteByte :: (inner ++ quoteByte :: trail)).length =
    lead.length + inner.length + trail.length + 2 := by
  simp only [List.length_append, List.length_cons]
  omega

theorem findIdx?_quote_reverse (lead inner : Bytes) (h : quoteByte ∉ trail) :
    (lead ++ quoteByte :: (inner ++ quoteByte :: trail)).reverse.findIdx? (· == quoteByte) = some trail.length := by
  have hreverse : (lead ++ quoteByte :: (inner ++ quoteByte :: trail)).reverse =
      trail.reverse ++ quoteByte :: (inner.reverse ++ quoteByte :: lead.reverse) := by simp
  rw [hreverse, findIdx?_quote (by rwa [List.mem_reverse]), List.length_reverse]

end Quoted

/-- The contents of a string literal are between its first quote and its last. -/
theorem Token.contentRange_iff {t : Token} {p q : Int} : t.contentRange = some (p, q) ↔
    ∃ lead inner trail : Bytes, t.text = lead ++ quoteByte :: (inner ++ quoteByte :: trail) ∧
      quoteByte ∉ lead ∧ quoteByte ∉ trail ∧ isLiteralLead lead = true ∧
        p = t.start + lead.length + 1 ∧ q = p + inner.length := by
  constructor
  · intro h
    simp only [Token.contentRange, bind, Option.bind_eq_some_iff] at h
    obtain ⟨first, hfirst, last, hlast, h⟩ := h
    obtain ⟨j, hj, rfl⟩ := Option.map_eq_some_iff.mp hlast
    split at h
    · next hc =>
      obtain ⟨lead, inner, trail, htext, hlead, htrail, rfl, rfl⟩ := split_of_quotes hfirst hj hc.1
      simp only [Option.some.injEq, Prod.mk.injEq] at h
      rw [htext, List.take_left' rfl, length_quoted] at hc
      rw [htext, length_quoted] at h
      exact ⟨lead, inner, trail, htext, hlead, htrail, by simpa [isLiteralLead] using hc.2, h.1.symm, by omega⟩
    · cases h
  · rintro ⟨lead, inner, trail, htext, hlead, htrail, hmark, rfl, rfl⟩
    simp only [Token.contentRange, htext, findIdx?_quote hlead, findIdx?_quote_reverse lead inner htrail, bind,
      Option.bind_some, Option.map_some, List.take_left, length_quoted]
    rw [if_pos ⟨by omega, by simpa [isLiteralLead] using hmark⟩]
    simp only [Option.some.injEq, Prod.mk.injEq, true_and]
    omega

/-- Punctuation that the source has is one byte of it. -/
theorem Token.Covers.punct {source : Bytes} {t : Token} (hc : t.Covers source) {c : Char}
    (h : t.isPunct c = true) : t.stop = t.start + 1 ∧ source[t.start.toNat]? = some (asciiByte c) := by
  have htext : t.text = [asciiByte c] := by
    rw [Token.isPunct, Bool.and_eq_true, beq_iff_eq] at h
    exact h.2
  have h0 := hc.nonneg
  have hlt := hc.nonempty
  have hlen := Bytes.length_slice source h0 (Int.le_of_lt hlt) hc.within
  rw [← hc.text, htext, List.length_singleton] at hlen
  refine ⟨by omega, Bytes.getElem?_of_slice (k := 0) (b := t.stop) h0 (by omega) ?_⟩
  rw [← hc.text, htext]
  rfl

/-- The source of a string literal: what is up to the first quote, the contents, and the rest. -/
theorem Token.Covers.slices {source : Bytes} {t : Token} (hc : t.Covers source) {lead inner trail : Bytes}
    (htext : t.text = lead ++ quoteByte :: (inner ++ quoteByte :: trail)) {p q : Int}
    (hp : p = t.start + lead.length + 1) (hq : q = p + inner.length) :
    source.slice t.start p = lead ++ [quoteByte] ∧ source.slice p q = inner ∧
      source.slice q t.stop = quoteByte :: trail ∧ t.stop = q + trail.length + 1 := by
  have h0 := hc.nonneg
  have hle := Int.le_of_lt hc.nonempty
  have hsize := Bytes.length_slice source h0 hle hc.within
  rw [← hc.text, htext, length_quoted] at hsize
  have hsplit : source.slice t.start t.stop = (lead ++ [quoteByte]) ++ (inner ++ quoteByte :: trail) := by
    rw [← hc.text, htext, List.append_assoc, List.singleton_append]
  obtain ⟨hfront, hback⟩ := Bytes.slice_split source h0 hle hc.within hsplit
  rw [show t.start + ((lead ++ [quoteByte]).length : Int) = p by
    rw [List.length_append, List.length_singleton]; omega] at hfront hback
  obtain ⟨hinner, hrest⟩ := Bytes.slice_split source (show 0 ≤ p by omega) (by omega) hc.within hback
  rw [← hq] at hinner hrest
  exact ⟨hfront, hinner, hrest, by omega⟩

/-- The contents of a string literal are inside of it, between two quotes. -/
theorem Token.Covers.quotes {source : Bytes} {t : Token} (hc : t.Covers source) {p q : Int}
    (h : t.contentRange = some (p, q)) : t.start < p ∧ p ≤ q ∧ q < t.stop ∧
      source[(p - 1).toNat]? = some quoteByte ∧ source[q.toNat]? = some quoteByte := by
  obtain ⟨lead, inner, trail, htext, _, _, _, hp, hq⟩ := contentRange_iff.mp h
  obtain ⟨hfront, _, hrest, hstop⟩ := hc.slices htext hp hq
  have h0 := hc.nonneg
  refine ⟨by omega, by omega, by omega, ?_, ?_⟩
  · rw [show (p - 1).toNat = t.start.toNat + lead.length by omega]
    refine Bytes.getElem?_of_slice h0 (show 0 ≤ p by omega) ?_
    rw [hfront, List.getElem?_concat_length]
  · refine Bytes.getElem?_of_slice (k := 0) (show 0 ≤ q by omega) (show 0 ≤ t.stop by omega) ?_
    rw [hrest, List.getElem?_cons_zero]

/-- A text at the head of the contents of a string literal becomes the head of its contents. -/
theorem Token.contentRange_moved {e : Edits} {source : Bytes} {t : Token} (hc : t.Covers source)
    {p : Nat} {q : Int} (hrange : t.contentRange = some ((p : Int), q))
    (honly : ∀ r : Nat, e.text r ≠ [] → t.start < r → r < t.stop → r = p) :
    (t.moved e (e.apply source)).contentRange = some (e.left p, e.right q) ∧
      (e.apply source).slice (e.left p) (e.right q) = e.mark p ++ source.slice p q := by
  obtain ⟨lead, inner, trail, htext, hlead, htrail, hmark, hp, hq⟩ := contentRange_iff.mp hrange
  obtain ⟨hfront, hinner, hrest, hstop⟩ := hc.slices htext hp hq
  have h0 := hc.nonneg
  have hwithin := hc.within
  have hp0 : (0 : Int) ≤ p := Int.natCast_nonneg p
  -- nothing is put in before the contents begin, and nothing behind their head
  have hquietFront : e.Quiet t.start p := by
    intro r htext hgt
    refine Int.not_lt.mp fun hlt => ?_
    have := honly r htext hgt (by omega)
    omega
  have hquietBack : e.Quiet p t.stop := by
    intro r htext hgt
    refine Int.not_lt.mp fun hlt => ?_
    have := honly r htext (by omega) hlt
    omega
  have hleft : e.left p = e.right t.start + lead.length + 1 := by
    have := Edits.left_add h0 hquietFront (n := lead.length + 1) (by omega) (by omega)
    rw [show t.start + ((lead.length : Int) + 1) = p by omega] at this
    omega
  have hright : e.right q = e.right p + inner.length := by
    rw [hq]
    exact Edits.right_add hp0 hquietBack (by omega) (by omega)
  have hlen : e.right p = e.left p + (e.mark p).length := rfl
  have hmoved : (t.moved e (e.apply source)).text =
      lead ++ quoteByte :: ((e.mark p ++ inner) ++ quoteByte :: trail) := by
    rw [Token.moved, Edits.slice_apply_around h0 (by omega) (by omega) hwithin hquietFront hquietBack, hfront,
      ← Bytes.slice_append source hp0 (show (p : Int) ≤ q by omega) (by omega), hinner, hrest]
    simp only [List.append_assoc, List.singleton_append]
  refine ⟨contentRange_iff.mpr ⟨lead, e.mark p ++ inner, trail, hmoved, hlead, htrail, hmark, hleft, ?_⟩, ?_⟩
  · rw [List.length_append, hright, hlen]
    omega
  · rw [← Bytes.slice_append (e.apply source) Edits.left_nonneg (Edits.left_le_right (p := p)) (by omega),
      Edits.slice_mark (by omega), Edits.slice_apply_right hp0 (by omega) (by omega) hwithin hquietBack]

end

section

variable {e : Edits} {source : Bytes} {n : Node} {v w : Invocation}

theorem Node.Fits.eq_of_atLevel (hf : n.Fits source) (hv : v ∈ n.invocations source)
    (hw : w ∈ n.invocations source) {p : Int} (hvp : v.AtLevel p) (hwp : w.AtLevel p) : v = w := by
  refine Classical.byContradiction fun hne => ?_
  have happart := Node.invocations_apart hf.wellFormed hf.nonneg hf.within
  exact (happart.forall hv hw hne).atLevel hvp hwp

/-- A text inside of a token that is no tree is at the head of a string literal. -/
theorem Edits.Suits.head_of_text (hs : e.Suits source n) (hf : n.Fits source)
    (hv : v ∈ n.invocations source) {t : Token} (ht : t ∈ v.tokens) (hk : t.kind ≠ .tree) {p : Nat}
    (htext : e.text p ≠ []) (hlo : t.start < p) (hhi : p < t.stop) :
    t.kind = .string ∧ e.tokens p = [] ∧ ∃ q, t.contentRange = some ((p : Int), q) := by
  have hlaid := (Node.invocations_laid hf.wellFormed hf.nonneg hf.within hv).1
  obtain ⟨w, hw, hhosts⟩ := hs.hosted p htext
  have hwlaid := (Node.invocations_laid hf.wellFormed hf.nonneg hf.within hw).1
  obtain rfl := hf.eq_of_atLevel hv hw (hlaid.atLevel ht hk hlo hhi) (hwlaid.atLevel_of_hosts hhosts)
  rcases hhosts with ⟨u, hu, huk, hulo, huhi, hnone, hrange⟩ | ⟨_, hplace, _⟩
  · rcases hlaid.ordered.apart ht hu with rfl | hapart
    · exact ⟨huk, hnone, hrange⟩
    · omega
  · obtain ⟨_, _, _, hbefore, hbehind, _⟩ := argumentPlace_spec hlaid.ordered hplace
    rw [← List.take_append_drop (argumentIndex v.tokens) v.tokens, List.mem_append] at ht
    rcases ht with ht | ht
    · have := hbefore t ht
      omega
    · have := hbehind t ht
      omega

theorem Edits.Suits.steady (hs : e.Suits source n) (hf : n.Fits source)
    (hv : v ∈ n.invocations source) {t : Token} (ht : t ∈ v.tokens) :
    t.Steady e (e.apply source) := by
  intro hstring htree
  have hlaid := (Node.invocations_laid hf.wellFormed hf.nonneg hf.within hv).1
  have hc := hlaid.covers t ht
  rw [Token.moved, hc.text]
  refine Edits.slice_apply hc.nonneg (Int.le_of_lt hc.nonempty) hc.within fun p htext hgt => ?_
  refine Int.not_lt.mp fun hlt => ?_
  exact hstring (hs.head_of_text hf hv ht htree htext hgt hlt).1

/-- The message behind the edits: the text put in at its head, and the old message. -/
theorem Edits.Suits.message (hs : e.Suits source n) (hf : n.Fits source)
    (hv : v ∈ n.invocations source)
    (htoken : messageToken (v.grown e (e.apply source)).tokens =
      (messageToken v.tokens).map (Token.moved e (e.apply source))) (lines : List Nat) :
    ((v.grown e (e.apply source)).call (e.apply source) lines).message =
      (messageToken v.tokens).bind fun t => t.contentRange.map fun r =>
        ⟨Span.ofRange lines (e.left r.1) (e.right r.2),
          String.ofList (e.text r.1.toNat ++ Utf8.decodeLossy (source.slice r.1 r.2))⟩ := by
  have hlaid := (Node.invocations_laid hf.wellFormed hf.nonneg hf.within hv).1
  rw [Invocation.call_message, htoken]
  cases hm : messageToken v.tokens with
  | none => rfl
  | some t =>
    obtain ⟨ht, hk⟩ := mem_of_messageToken hm
    have hc := hlaid.covers t ht
    have htree : t.kind ≠ .tree := by rw [hk]; decide
    simp only [Option.map_some, Option.bind_some]
    cases hr : t.contentRange with
    | none =>
      -- no text is inside of the literal, so it is what it was
      have hsame : (t.moved e (e.apply source)).text = t.text := by
        rw [Token.moved, hc.text]
        refine Edits.slice_apply hc.nonneg (Int.le_of_lt hc.nonempty) hc.within fun p htext hgt => ?_
        refine Int.not_lt.mp fun hlt => ?_
        obtain ⟨_, _, q, hq⟩ := hs.head_of_text hf hv ht htree htext hgt hlt
        rw [hr] at hq
        cases hq
      have hnone : (t.moved e (e.apply source)).contentRange = none := by
        refine Option.eq_none_iff_forall_ne_some.mpr fun r hr' => ?_
        obtain ⟨lead, inner, trail, htext, hlead, htrail, hmark, _⟩ :=
          (Token.contentRange_iff (p := r.1) (q := r.2)).mp hr'
        have hback := (Token.contentRange_iff (t := t)).mpr
          ⟨lead, inner, trail, hsame ▸ htext, hlead, htrail, hmark, rfl, rfl⟩
        rw [hr] at hback
        cases hback
      rw [hnone]
      rfl
    | some r =>
      obtain ⟨p, q⟩ := r
      obtain ⟨lead, inner, trail, _, _, _, _, hp, hq⟩ := Token.contentRange_iff.mp hr
      have h0 := hc.nonneg
      obtain ⟨p, rfl⟩ := Int.eq_ofNat_of_zero_le (show 0 ≤ p by omega)
      obtain ⟨hrange, hslice⟩ := Token.contentRange_moved (e := e) hc hr fun r htext hgt hlt => by
        obtain ⟨_, _, q', hq'⟩ := hs.head_of_text hf hv ht htree htext hgt hlt
        rw [hr, Option.some.injEq, Prod.mk.injEq] at hq'
        exact Int.ofNat_inj.mp hq'.1.symm
      simp only [hrange, Option.map_some, hslice, Bytes.lossyText, Edits.mark,
        Utf8.decodeLossy_encode_append, Int.toNat_natCast]

end

end LogRef
