import LogRef.Proofs.Syntax.Forest

/-!
# Arguments of token lists

Cutting tokens into arguments goes together with changing tokens that are no separators, and with putting
lists together behind a separator.
-/
namespace LogRef

/-- An argument with every token changed. -/
def Segment.mapTokens (f : Token → Token) (s : Segment) : Segment := ⟨s.tokens.map f, s.terminator⟩

/-- A token, of which only the separator is left if it is one. -/
def Token.mark (t : Token) : Token ⊕ Separator :=
  match t.separator? with
  | some sep => .inr sep
  | none => .inl t

/-- The tokens of an argument and the separator after it. -/
def Segment.marks (s : Segment) : List (Token ⊕ Separator) :=
  s.tokens.map .inl ++ s.terminator.toList.map .inr

/-- The list is empty or ends with a separator. -/
def EndsClosed (ts : List Token) : Prop := ∀ t ∈ ts.getLast?, t.separator?.isSome = true

/-- Tokens of one kind. They have one text, too, unless they are strings or trees. -/
structure Token.Alike (t u : Token) : Prop where
  kind : u.kind = t.kind
  text : t.kind ≠ .string → t.kind ≠ .tree → u.text = t.text

section

variable {ts a b : List Token} {t : Token} {s : Segment} {ss : List Segment}

theorem segmentsOf_cons_of_separator {sep : Separator} (h : t.separator? = some sep) :
    segmentsOf (t :: ts) = ⟨[], some sep⟩ :: segmentsOf ts := by
  rw [segmentsOf, h]

theorem segmentsOf_cons_of_none (h : t.separator? = none) :
    segmentsOf (t :: ts) = match segmentsOf ts with
      | [] => [⟨[t], none⟩]
      | s :: ss => ⟨t :: s.tokens, s.terminator⟩ :: ss := by
  have hcons := segmentsOf.eq_2 t ts
  rw [h] at hcons
  exact hcons

theorem segmentsOf_eq_nil (h : segmentsOf ts = []) : ts = [] := by
  cases ts with
  | nil => rfl
  | cons t ts =>
    cases hs : t.separator? with
    | some sep => rw [segmentsOf_cons_of_separator hs] at h; cases h
    | none =>
      rw [segmentsOf_cons_of_none hs] at h
      split at h <;> cases h

theorem segmentsOf_map {f : Token → Token} (h : ∀ t ∈ ts, (f t).separator? = t.separator?) :
    segmentsOf (ts.map f) = (segmentsOf ts).map (Segment.mapTokens f) := by
  induction ts with
  | nil => rfl
  | cons t ts ih =>
    have ht := h t List.mem_cons_self
    have hrest := ih fun u hu => h u (List.mem_cons_of_mem t hu)
    rw [List.map_cons]
    cases hs : t.separator? with
    | some sep =>
      rw [segmentsOf_cons_of_separator (ht.trans hs), segmentsOf_cons_of_separator hs, hrest]
      rfl
    | none =>
      rw [segmentsOf_cons_of_none (ht.trans hs), segmentsOf_cons_of_none hs, hrest]
      cases segmentsOf ts <;> rfl

theorem Token.Alike.isPunct {u : Token} (h : t.Alike u) (c : Char) : u.isPunct c = t.isPunct c := by
  unfold Token.isPunct
  rw [h.kind]
  by_cases hk : t.kind = .punct
  · rw [h.text (by rw [hk]; decide) (by rw [hk]; decide)]
  · rw [decide_eq_false hk, Bool.false_and, Bool.false_and]

theorem Token.Alike.separator? {u : Token} (h : t.Alike u) : u.separator? = t.separator? := by
  unfold Token.separator?
  rw [h.isPunct, h.isPunct]

theorem Token.isPunct_of_separator {sep : Separator} (h : t.separator? = some sep) :
    sep = .comma ∧ t.isPunct ',' = true ∨ sep = .semicolon ∧ t.isPunct ';' = true := by
  unfold Token.separator? at h
  split at h
  · next hp => exact Or.inl ⟨(Option.some.inj h).symm, hp⟩
  · split at h
    · next hp => exact Or.inr ⟨(Option.some.inj h).symm, hp⟩
    · cases h

/-- A target is one by tokens that are no strings and no trees. -/
theorem Segment.isTarget_map {f : Token → Token} (h : ∀ t ∈ s.tokens, t.Alike (f t)) :
    (s.mapTokens f).isTarget = s.isTarget := by
  obtain ⟨tokens, terminator⟩ := s
  match tokens, h with
  | [], _ | [_], _ | [_, _], _ => rfl
  | word :: colon :: next :: more, h =>
    have hword := h word (by simp)
    have hcolon := h colon (by simp)
    have hnext := h next (by simp)
    simp only [Segment.isTarget, Segment.mapTokens, List.map_cons, hcolon.isPunct, hnext.isPunct, hword.kind]
    by_cases hk : word.kind = .word
    · rw [hword.text (by rw [hk]; decide) (by rw [hk]; decide)]
    · simp [hk]

/-- The `=` of an assignment stays where it is as long as the tokens around it are what they were. -/
theorem assignmentFrom_map {f : Token → Token} {P : Token → Prop}
    (hpunct : ∀ t, P t → (f t).isPunct = t.isPunct)
    (hadjacent : ∀ t u, P t → P u → ((f t).stop == (f u).start) = (t.stop == u.start)) {index : Nat}
    {before : Option Token} {ts : List Token} (hbefore : ∀ b ∈ before, P b) (hts : ∀ t ∈ ts, P t) :
    assignmentFrom index (before.map f) (ts.map f) = assignmentFrom index before ts := by
  induction ts generalizing index before with
  | nil => rfl
  | cons t ts ih =>
    have ht := hts t List.mem_cons_self
    have hleft : (before.map f).any (fun b => b.stop == (f t).start && ['=', '!', '<', '>'].any b.isPunct) =
        before.any fun b => b.stop == t.start && ['=', '!', '<', '>'].any b.isPunct := by
      cases before with
      | none => rfl
      | some b =>
        have hb := hbefore b rfl
        simp only [Option.map_some, Option.any_some, hadjacent b t hb ht, hpunct b hb]
    have hright : (ts.map f).head?.any (fun u => (f t).stop == u.start && ['=', '>'].any u.isPunct) =
        ts.head?.any fun u => t.stop == u.start && ['=', '>'].any u.isPunct := by
      cases ts with
      | nil => rfl
      | cons u ts =>
        have hu := hts u (List.mem_cons_of_mem t List.mem_cons_self)
        simp only [List.map_cons, List.head?_cons, Option.any_some, hadjacent t u ht hu, hpunct u hu]
    have hrest := @ih (index + 1) (some t) (fun b hb => Option.some.inj hb ▸ ht)
      fun u hu => hts u (List.mem_cons_of_mem t hu)
    rw [List.map_cons, assignmentFrom, assignmentFrom]
    simp only [hleft, hright, hpunct t ht]
    split
    · rfl
    · exact hrest

theorem endsClosed_nil : EndsClosed [] := fun _ h => nomatch h

theorem EndsClosed.tail (h : EndsClosed (t :: ts)) : EndsClosed ts := by
  intro u hu
  refine h u ?_
  rw [List.getLast?_cons, Option.mem_def.mp hu]
  rfl

theorem segmentsOf_append (h : EndsClosed a) (b : List Token) :
    segmentsOf (a ++ b) = segmentsOf a ++ segmentsOf b := by
  induction a with
  | nil => rfl
  | cons t a ih =>
    rw [List.cons_append]
    cases hs : t.separator? with
    | some sep =>
      rw [segmentsOf_cons_of_separator hs, segmentsOf_cons_of_separator hs, ih h.tail,
        List.cons_append]
    | none =>
      rw [segmentsOf_cons_of_none hs, segmentsOf_cons_of_none hs, ih h.tail]
      cases ha : segmentsOf a with
      | nil =>
        rw [segmentsOf_eq_nil ha] at h
        have := h t rfl
        rw [hs] at this
        cases this
      | cons s ss => rfl

theorem mem_of_mem_segmentsOf (hs : s ∈ segmentsOf ts) (ht : t ∈ s.tokens) : t ∈ ts := by
  induction ts generalizing s with
  | nil => cases hs
  | cons u ts ih =>
    cases hu : u.separator? with
    | some sep =>
      rw [segmentsOf_cons_of_separator hu] at hs
      rcases List.mem_cons.mp hs with rfl | hs
      · cases ht
      · exact List.mem_cons_of_mem u (ih hs ht)
    | none =>
      rw [segmentsOf_cons_of_none hu] at hs
      cases hrest : segmentsOf ts with
      | nil =>
        rw [hrest] at hs
        rw [List.mem_singleton.mp hs, List.mem_singleton] at ht
        exact ht ▸ List.mem_cons_self
      | cons r rs =>
        rw [hrest] at hs ih
        rcases List.mem_cons.mp hs with rfl | hs
        · rcases List.mem_cons.mp ht with rfl | ht
          · exact List.mem_cons_self
          · exact List.mem_cons_of_mem u (ih List.mem_cons_self ht)
        · exact List.mem_cons_of_mem u (ih (List.mem_cons_of_mem r hs) ht)

/-- An argument that has a separator ends with it. -/
theorem segmentsOf_head (h : segmentsOf ts = s :: ss) {sep : Separator}
    (hsep : s.terminator = some sep) :
    ∃ t rest, ts = s.tokens ++ t :: rest ∧ t.separator? = some sep ∧ segmentsOf rest = ss := by
  induction ts generalizing s with
  | nil => cases h
  | cons u ts ih =>
    cases hu : u.separator? with
    | some sep' =>
      rw [segmentsOf_cons_of_separator hu] at h
      obtain ⟨rfl, rfl⟩ := List.cons.inj h
      exact ⟨u, ts, rfl, hu.trans hsep, rfl⟩
    | none =>
      rw [segmentsOf_cons_of_none hu] at h
      cases hrest : segmentsOf ts with
      | nil =>
        rw [hrest] at h
        obtain ⟨rfl, _⟩ := List.cons.inj h
        cases hsep
      | cons r rs =>
        rw [hrest] at h
        obtain ⟨rfl, rfl⟩ := List.cons.inj h
        obtain ⟨t, rest, hts, ht, hseg⟩ := ih hrest hsep
        exact ⟨t, rest, by rw [hts]; rfl, ht, hseg⟩

/-- The first argument is everything if it has no separator. -/
theorem segmentsOf_open (h : segmentsOf ts = s :: ss) (hopen : s.terminator = none) :
    ss = [] ∧ s.tokens = ts ∧ ts ≠ [] := by
  induction ts generalizing s with
  | nil => cases h
  | cons u ts ih =>
    cases hu : u.separator? with
    | some sep =>
      rw [segmentsOf_cons_of_separator hu] at h
      obtain ⟨rfl, _⟩ := List.cons.inj h
      cases hopen
    | none =>
      rw [segmentsOf_cons_of_none hu] at h
      cases hrest : segmentsOf ts with
      | nil =>
        rw [hrest] at h
        obtain ⟨rfl, rfl⟩ := List.cons.inj h
        exact ⟨rfl, by rw [segmentsOf_eq_nil hrest], List.cons_ne_nil u ts⟩
      | cons r rs =>
        rw [hrest] at h
        obtain ⟨rfl, rfl⟩ := List.cons.inj h
        obtain ⟨hnil, htokens, _⟩ := ih hrest hopen
        exact ⟨hnil, by rw [← htokens], List.cons_ne_nil u ts⟩

/-- What comes before an argument is nothing or ends with a separator. -/
theorem segmentsOf_behind {front back : List Segment} (h : segmentsOf ts = front ++ s :: back) :
    ∃ a rest, ts = a ++ rest ∧ EndsClosed a ∧ segmentsOf rest = s :: back := by
  induction front generalizing ts with
  | nil => exact ⟨[], ts, rfl, endsClosed_nil, h⟩
  | cons r front ih =>
    cases hr : r.terminator with
    | none =>
      have hnil := (segmentsOf_open h hr).1
      simp at hnil
    | some sep =>
      obtain ⟨t, rest, rfl, ht, hrest⟩ := segmentsOf_head h hr
      obtain ⟨a, rest, rfl, ha, hseg⟩ := ih hrest
      refine ⟨r.tokens ++ t :: a, rest, by simp, fun u hu => ?_, hseg⟩
      rw [List.getLast?_append, List.getLast?_cons] at hu
      cases hlast : a.getLast? with
      | none =>
        rw [hlast] at hu
        obtain rfl : t = u := by simpa using hu
        rw [ht]
        rfl
      | some w =>
        rw [hlast] at hu
        obtain rfl : w = u := by simpa using hu
        exact ha w hlast

/-- Only the last argument can be without a separator, and then there is something in it. -/
theorem segmentsOf_last {front back : List Segment} (h : segmentsOf ts = front ++ s :: back)
    (hopen : s.terminator = none) : back = [] ∧ s.tokens ≠ [] := by
  obtain ⟨a, rest, _, _, hseg⟩ := segmentsOf_behind h
  obtain ⟨hback, htokens, hne⟩ := segmentsOf_open hseg hopen
  exact ⟨hback, htokens ▸ hne⟩

/-- Behind an argument comes its own separator. -/
theorem segmentsOf_split {front back : List Segment} (h : segmentsOf ts = front ++ s :: back) :
    ∃ a b, ts = a ++ (s.tokens ++ b) ∧ EndsClosed a ∧ b.head?.bind Token.separator? = s.terminator := by
  obtain ⟨a, rest, rfl, ha, hseg⟩ := segmentsOf_behind h
  cases hs : s.terminator with
  | none =>
    obtain ⟨_, htokens, _⟩ := segmentsOf_open hseg hs
    exact ⟨a, [], by rw [htokens, List.append_nil], ha, rfl⟩
  | some sep =>
    obtain ⟨t, more, rfl, ht, _⟩ := segmentsOf_head hseg hs
    exact ⟨a, t :: more, rfl, ha, ht⟩

/-- The arguments with their separators are the tokens again. -/
theorem flatMap_marks_segmentsOf (ts : List Token) :
    (segmentsOf ts).flatMap Segment.marks = ts.map Token.mark := by
  induction ts with
  | nil => rfl
  | cons t ts ih =>
    rw [List.map_cons, ← ih]
    cases ht : t.separator? with
    | some sep =>
      rw [segmentsOf_cons_of_separator ht, List.flatMap_cons, Token.mark, ht]
      rfl
    | none =>
      rw [segmentsOf_cons_of_none ht, Token.mark, ht]
      cases segmentsOf ts <;> rfl

/-- The tokens of the arguments are those that are no separators. -/
theorem flatMap_tokens_segmentsOf (ts : List Token) :
    (segmentsOf ts).flatMap Segment.tokens = ts.filter (·.separator?.isNone) := by
  have hmarks := congrArg (List.filterMap Sum.getLeft?) (flatMap_marks_segmentsOf ts)
  have hown (s : Segment) : s.marks.filterMap Sum.getLeft? = s.tokens := by
    rw [Segment.marks, List.filterMap_append, List.filterMap_map, List.filterMap_map]
    simp [Function.comp_def]
  have hmark : Sum.getLeft? ∘ Token.mark = Option.guard (·.separator?.isNone) := by
    funext t
    cases ht : t.separator? <;> simp [Token.mark, Option.guard, ht]
  rw [List.filterMap_flatMap, List.filterMap_map, hmark, List.filterMap_eq_filter] at hmarks
  simpa only [hown] using hmarks

theorem Segment.terminator_of_isTarget (h : s.isTarget = true) : s.terminator = some .comma := by
  unfold Segment.isTarget at h
  split at h
  · simp only [Bool.and_eq_true, decide_eq_true_eq] at h
    exact h.1.1.1.1
  · cases h

/-- What stands before a new argument is nothing, or ends with a comma. -/
theorem endsClosed_take_argumentIndex (ts : List Token) :
    EndsClosed (ts.take (argumentIndex ts)) := by
  unfold argumentIndex
  split
  · next s ss hseg =>
    split
    · next ht =>
      obtain ⟨t, rest, rfl, hsep, _⟩ := segmentsOf_head hseg (s.terminator_of_isTarget ht)
      intro u hu
      rw [List.take_length_add_append, List.take_succ_cons, List.take_zero,
        List.getLast?_append] at hu
      obtain rfl : t = u := by simpa using hu
      rw [hsep]
      rfl
    · exact endsClosed_nil
  · exact endsClosed_nil

end

end LogRef
