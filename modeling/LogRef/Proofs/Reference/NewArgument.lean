import LogRef.Proofs.Reference.Numbering

/-!
# Reading a new argument

A new argument comes first among the arguments of its call, behind a target. The other arguments follow it as
they were, and so does the message, if the separator of the new argument goes with them.
-/
namespace LogRef

/-- The separator behind a new argument, as one. -/
def Entry.closing (e : Entry) : Separator := if e.after = some "; " then .semicolon else .comma

/-- The new argument of an entry. -/
def argumentSegment (start : Int) (id : Nat) (e : Entry) : Segment :=
  ⟨(argumentTokens start id e.separator).take 3, some e.closing⟩

section

variable {e : Edits} {edited : Bytes} {start place : Int} {tokens : List Token} {entry : Entry} {id : Nat}

theorem segmentsOf_argumentTokens (start : Int) (id : Nat) (entry : Entry) (rest : List Token) :
    segmentsOf (argumentTokens start id entry.separator ++ rest) =
      argumentSegment start id entry :: segmentsOf rest := by
  simp only [argumentTokens, List.cons_append, List.nil_append]
  rw [segmentsOf_cons_of_none rfl, segmentsOf_cons_of_none rfl, segmentsOf_cons_of_none rfl]
  have hsep (a b : Int) : (⟨.punct, a, b, [asciiByte entry.separator]⟩ : Token).separator? =
      some entry.closing := by
    unfold Entry.separator Entry.closing
    split <;> rfl
  rw [segmentsOf_cons_of_separator (hsep _ _)]
  rfl

theorem isTarget_argumentSegment (start : Int) (id : Nat) (entry : Entry) :
    (argumentSegment start id entry).isTarget = false := by
  have hword : (Bytes.ofString referenceKey == Bytes.ofString "target") = false := by decide
  simp [argumentSegment, argumentTokens, Segment.isTarget, hword]

theorem argumentsOf_of_target {s : Segment} {ss : List Segment} (h : segmentsOf tokens = s :: ss)
    (ht : s.isTarget = true) : argumentsOf tokens = ss := by
  rw [argumentsOf, h]
  exact if_pos ht

theorem argumentsOf_of_no_target {s : Segment} {ss : List Segment} (h : segmentsOf tokens = s :: ss)
    (ht : s.isTarget = false) : argumentsOf tokens = s :: ss := by
  rw [argumentsOf, h]
  exact if_neg (by rw [ht]; decide)

/-- The tokens before the arguments are none, or those of a target and its comma. -/
theorem argumentIndex_cases (tokens : List Token) :
    (argumentIndex tokens = 0 ∧ argumentsOf tokens = segmentsOf tokens) ∨
    ∃ s comma rest, tokens = s.tokens ++ [comma] ++ rest ∧ s.isTarget = true ∧
      comma.separator? = some .comma ∧ argumentIndex tokens = (s.tokens ++ [comma]).length ∧
      segmentsOf (s.tokens ++ [comma]) = [s] ∧ argumentsOf tokens = segmentsOf rest := by
  cases hseg : segmentsOf tokens with
  | nil => exact Or.inl ⟨by rw [argumentIndex, hseg], by rw [argumentsOf, hseg]⟩
  | cons s ss =>
    cases ht : s.isTarget with
    | false =>
      exact Or.inl ⟨by rw [argumentIndex, hseg]; exact if_neg (by rw [ht]; decide),
        argumentsOf_of_no_target hseg ht⟩
    | true =>
      obtain ⟨comma, rest, htokens, hsep, hrest⟩ := segmentsOf_head hseg (s.terminator_of_isTarget ht)
      have hassoc : tokens = s.tokens ++ [comma] ++ rest := by rw [htokens]; simp
      refine Or.inr ⟨s, comma, rest, hassoc, ht, hsep, ?_, ?_, ?_⟩
      · rw [argumentIndex, hseg, List.length_append]
        exact if_pos ht
      · have hclosed : EndsClosed (s.tokens ++ [comma]) := by
          intro u hu
          obtain rfl : comma = u := by simpa using hu
          rw [hsep]
          rfl
        rw [hassoc, segmentsOf_append hclosed, hrest, ← List.singleton_append] at hseg
        exact List.append_cancel_right hseg
      · rw [argumentsOf_of_target hseg ht, hrest]

/-- A new argument comes before the arguments there are. -/
theorem argumentsOf_grown (hsteady : ∀ t ∈ tokens, t.Steady e edited)
    (hargument : e.argument true start tokens = argumentTokens place id entry.separator) :
    argumentsOf (grownTokens e edited start tokens) = argumentSegment place id entry ::
      (argumentsOf tokens).map (Segment.mapTokens (Token.moved e edited)) := by
  rw [grownTokens, hargument]
  rcases argumentIndex_cases tokens with ⟨hindex, harguments⟩ |
    ⟨s, comma, rest, htokens, ht, hsep, hindex, hsingle, harguments⟩
  · rw [hindex, harguments, List.take_zero, List.drop_zero, List.map_nil, List.nil_append,
      ← segmentsOf_map fun t h => (hsteady t h).separator?]
    exact argumentsOf_of_no_target (segmentsOf_argumentTokens _ _ _ _) (isTarget_argumentSegment _ _ _)
  · have hfront : ∀ t ∈ s.tokens ++ [comma], t.Steady e edited := fun t h =>
      hsteady t (htokens ▸ List.mem_append_left _ h)
    have hback : ∀ t ∈ rest, t.Steady e edited := fun t h =>
      hsteady t (htokens ▸ List.mem_append_right _ h)
    have htake : tokens.take (argumentIndex tokens) = s.tokens ++ [comma] := by
      rw [hindex, htokens, List.take_left']
      rfl
    have hdrop : tokens.drop (argumentIndex tokens) = rest := by
      rw [hindex, htokens, List.drop_left']
      rfl
    have hclosed := (endsClosed_take_argumentIndex tokens).moved
      (fun t h => hsteady t (List.mem_of_mem_take h))
    rw [htake] at hclosed
    rw [htake, hdrop, harguments, ← segmentsOf_map fun t h => (hback t h).separator?]
    refine argumentsOf_of_target (s := s.mapTokens (Token.moved e edited)) ?_ ?_
    · rw [segmentsOf_append hclosed, segmentsOf_map fun t h => (hfront t h).separator?, hsingle,
        segmentsOf_argumentTokens]
      rfl
    · rw [Segment.isTarget_map fun t h => (hfront t (List.mem_append_left _ h)).alike, ht]

/-- The separator of the new argument goes with the arguments: a semicolon ends the key-value ones where
nothing did so yet. -/
def Entry.Agrees (entry : Entry) (tokens : List Token) : Prop :=
  entry.closing = .semicolon ↔ splitAtSemicolon (argumentsOf tokens) = none

theorem splitArguments_grown (hsteady : ∀ t ∈ tokens, t.Steady e edited)
    (hargument : e.argument true start tokens = argumentTokens place id entry.separator)
    (hagrees : entry.Agrees tokens) :
    splitArguments (grownTokens e edited start tokens) =
      (argumentSegment place id entry ::
          (splitArguments tokens).1.map (Segment.mapTokens (Token.moved e edited)),
        (splitArguments tokens).2.map (Segment.mapTokens (Token.moved e edited))) := by
  unfold splitArguments
  rw [argumentsOf_grown hsteady hargument, splitAtSemicolon, splitAtSemicolon_map]
  cases hsplit : splitAtSemicolon (argumentsOf tokens) with
  | none =>
    have hclosing := hagrees.mpr hsplit
    rw [if_pos (show (argumentSegment place id entry).terminator = some .semicolon from
      congrArg some hclosing)]
    rfl
  | some r =>
    have hclosing : (argumentSegment place id entry).terminator ≠ some .semicolon := by
      intro heq
      rw [hagrees.mp (Option.some.inj heq)] at hsplit
      cases hsplit
    rw [if_neg hclosing]
    rfl

theorem messageToken_grown (hsteady : ∀ t ∈ tokens, t.Steady e edited)
    (hargument : e.argument true start tokens = argumentTokens place id entry.separator)
    (hagrees : entry.Agrees tokens) :
    messageToken (grownTokens e edited start tokens) =
      (messageToken tokens).map (Token.moved e edited) :=
  messageToken_of_arguments (by rw [splitArguments_grown hsteady hargument hagrees])

theorem keyValue_argumentSegment (source : Bytes) (lines : List Nat) (place : Int) (id : Nat) (entry : Entry) :
    ∃ span value, (argumentSegment place id entry).keyValue source lines = some ⟨referenceKey, span, value,
      (source.slice (place + 6) (place + 6 + (Utf8.encode (digitsOf id)).length)).lossyText⟩ := by
  have hassignment : assignment (argumentSegment place id entry).tokens = some 1 := by
    have hleft : (place + 3 == place + 4) = false := beq_eq_false_iff_ne.mpr (by omega)
    have hright : (place + 5 == place + 6) = false := beq_eq_false_iff_ne.mpr (by omega)
    simp [argumentSegment, argumentTokens, assignment, assignmentFrom, Token.isPunct, hleft, hright]
  have hkey : Token.keyText ⟨.word, place, place + 3, Bytes.ofString referenceKey⟩ = referenceKey := by
    rfl
  unfold Segment.keyValue
  simp only [hassignment]
  exact ⟨_, _, by rw [← hkey]; rfl⟩

/-- The digits of a new argument are where they are read. -/
theorem slice_digits {source : Bytes} {p : Nat} (hp : p < source.length)
    (htext : e.text p = (entry.markFor id).toList) (hb : entry.before = some "ref = ")
    {after : String} (ha : entry.after = some after) :
    (e.apply source).slice (e.left p + 6) (e.left p + 6 + (Utf8.encode (digitsOf id)).length) =
      Utf8.encode (digitsOf id) := by
  have hmark : (e.apply source).slice (e.left p) (e.right p) =
      Utf8.encode "ref = ".toList ++ (Utf8.encode (digitsOf id) ++ Utf8.encode after.toList) := by
    rw [Edits.slice_mark hp, Edits.mark, htext, Entry.markFor_argument hb ha, Utf8.encode_append,
      Utf8.encode_append]
  have hright : e.right p ≤ (e.apply source).length := by
    have hnext : e.left (p + 1) ≤ (e.apply source).length := Edits.left_le_length (by omega)
    rw [Edits.left_succ (by omega)] at hnext
    omega
  have hlen := Bytes.length_slice (e.apply source) (a := e.left p) Edits.left_nonneg Edits.left_le_right hright
  have hback := (Bytes.slice_split _ Edits.left_nonneg Edits.left_le_right hright hmark).2
  have h0 := Edits.left_nonneg (e := e) (p := p)
  have hsix : (Utf8.encode "ref = ".toList).length = 6 := rfl
  rw [hmark, List.length_append, hsix] at hlen
  rw [hsix] at hback
  exact (Bytes.slice_split _ (by omega) (by omega) hright hback).1

end

end LogRef
