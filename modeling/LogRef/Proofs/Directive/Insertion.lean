import Mathlib.Data.List.TakeWhile
import LogRef.Directive.Scope

/-!
# Directives and inserted text

Whether a line is a directive does not change when a text without slashes and stars is put into it behind a
character that no directive has in it. What a comment captures either ends before that character and stays as
it is, or has the character in it, with the text or without.
-/
namespace LogRef

/-- Characters that no directive has in it. -/
def isForeign (c : Char) : Bool := ['"', '(', '[', '{', ',', '/'].contains c

theorem isForeign_cases {c : Char} (h : isForeign c = true) :
    c = '"' ∨ c = '(' ∨ c = '[' ∨ c = '{' ∨ c = ',' ∨ c = '/' := by
  simpa [isForeign] using h

/-- A text that neither opens nor ends a comment. -/
def Uncommented (text : List Char) : Prop := '/' ∉ text ∧ '*' ∉ text

/-- The captured texts of a comment that begins right here. -/
def commentAt (line : List Char) : Option (List (Option (List Char))) :=
  match CommentPattern.restAfter "//" line with
  | some text => some [some text, none]
  | none =>
    match (CommentPattern.restAfter "/*" line).bind CommentPattern.beforeLastEnd with
    | some (c :: text) => some [none, some (c :: text)]
    | _ => none

/-- Whether one of the captured texts is the directive. -/
def hits (name : List Char) (groups : List (Option (List Char))) : Bool :=
  groups.any fun group => group.any fun text => Text.trim (Text.lower text) == Text.lower name

namespace CommentPattern

theorem restAfter_of_ne {a b c : Char} {rest : List Char} {opening : String}
    (ho : opening.toList = [a, b]) (h : c ≠ a) : restAfter opening (c :: rest) = none := by
  rw [restAfter, ho]
  simp [List.isPrefixOf, Ne.symm h]

theorem restAfter_two {a b c d : Char} {rest : List Char} {opening : String}
    (ho : opening.toList = [a, b]) : restAfter opening (c :: d :: rest) =
      if c = a ∧ d = b ∧ rest ≠ [] then some rest else none := by
  rw [restAfter, ho]
  by_cases hc : c = a
  · by_cases hd : d = b
    · cases rest <;> simp [hc, hd]
    · simp [hc, hd, Ne.symm hd]
  · simp [hc, Ne.symm hc]

theorem restAfter_line (c d : Char) (rest : List Char) : restAfter "//" (c :: d :: rest) =
    if c = '/' ∧ d = '/' ∧ rest ≠ [] then some rest else none := restAfter_two rfl

theorem restAfter_block (c d : Char) (rest : List Char) : restAfter "/*" (c :: d :: rest) =
    if c = '/' ∧ d = '*' ∧ rest ≠ [] then some rest else none := restAfter_two rfl

/-- What ends last in the second piece ends last in the whole. -/
theorem beforeLastEnd_append_of_some {b t : List Char} (h : beforeLastEnd b = some t) (a : List Char) :
    beforeLastEnd (a ++ b) = some (a ++ t) := by
  induction a with
  | nil => exact h
  | cons c a ih => rw [List.cons_append, beforeLastEnd, ih, List.cons_append]

/-- Without an end in the second piece, only the first character of it can matter. -/
theorem beforeLastEnd_append_of_none {c : Char} {b : List Char} (h : beforeLastEnd (c :: b) = none)
    (a : List Char) : beforeLastEnd (a ++ c :: b) = beforeLastEnd (a ++ [c]) := by
  have hsingle (x : Char) : beforeLastEnd [x] = none := by
    simp [beforeLastEnd, List.isPrefixOf]
  induction a with
  | nil => rw [List.nil_append, List.nil_append, h, hsingle]
  | cons x a ih =>
    rw [List.cons_append, List.cons_append, beforeLastEnd, beforeLastEnd, ih]
    have hfirst : ['*', '/'].isPrefixOf (x :: (a ++ c :: b)) = ['*', '/'].isPrefixOf (x :: (a ++ [c])) := by
      cases a <;> simp [List.isPrefixOf]
    rw [hfirst]

theorem beforeLastEnd_of_not_mem {a : List Char} (h : '*' ∉ a) (b : List Char) :
    beforeLastEnd (a ++ b) = (beforeLastEnd b).map (a ++ ·) := by
  induction a with
  | nil => simp
  | cons c a ih =>
    rw [List.mem_cons, not_or] at h
    rw [List.cons_append, beforeLastEnd, ih h.2]
    cases beforeLastEnd b with
    | some t => rfl
    | none => simp [List.isPrefixOf, h.1]

end CommentPattern

section

open CommentPattern

variable {name : List Char}

theorem slashes_eq (line : List Char) : slashes line = leftmost commentAt line := rfl

theorem isDirectiveLine_cons (c : Char) (rest : List Char) : isDirectiveLine slashes name (c :: rest) =
    ((commentAt (c :: rest)).map (hits name)).getD (isDirectiveLine slashes name rest) := by
  unfold isDirectiveLine
  rw [slashes_eq, slashes_eq, leftmost]
  cases commentAt (c :: rest) <;> rfl

theorem commentAt_of_ne {c : Char} (h : c ≠ '/') (rest : List Char) : commentAt (c :: rest) = none := by
  have hline : restAfter "//" (c :: rest) = none := restAfter_of_ne (b := '/') rfl h
  have hblock : restAfter "/*" (c :: rest) = none := restAfter_of_ne (b := '*') rfl h
  rw [commentAt, hline, hblock]
  rfl

theorem commentAt_line {rest : List Char} (h : rest ≠ []) :
    commentAt ('/' :: '/' :: rest) = some [some rest, none] := by
  rw [commentAt, restAfter_line, if_pos ⟨rfl, rfl, h⟩]

theorem commentAt_block (rest : List Char) : commentAt ('/' :: '*' :: rest) =
    match beforeLastEnd rest with
    | some (c :: text) => some [none, some (c :: text)]
    | _ => none := by
  rw [commentAt, restAfter_line, if_neg (by simp), restAfter_block]
  cases rest <;> rfl

theorem commentAt_block_of_some {rest text : List Char} (h : beforeLastEnd rest = some text)
    (hne : text ≠ []) : commentAt ('/' :: '*' :: rest) = some [none, some text] := by
  rw [commentAt_block, h]
  cases text with
  | nil => exact absurd rfl hne
  | cons c text => rfl

theorem commentAt_other {d : Char} (h1 : d ≠ '/') (h2 : d ≠ '*') (rest : List Char) :
    commentAt ('/' :: d :: rest) = none := by
  rw [commentAt, restAfter_line, if_neg (by simp [h1]), restAfter_block, if_neg (by simp [h2])]
  rfl

theorem commentAt_single (c : Char) : commentAt [c] = none := by
  by_cases h : c = '/'
  · subst h
    rfl
  · exact commentAt_of_ne h []

/-- What has no slash in it is passed over. -/
theorem isDirectiveLine_append {a : List Char} (h : '/' ∉ a) (b : List Char) :
    isDirectiveLine slashes name (a ++ b) = isDirectiveLine slashes name b := by
  induction a with
  | nil => rfl
  | cons c a ih =>
    rw [List.mem_cons, not_or] at h
    rw [List.cons_append, isDirectiveLine_cons, commentAt_of_ne (Ne.symm h.1), ih h.2]
    rfl

/-- The directive has no foreign character in it. -/
def Excludes (name : List Char) : Prop := ∀ c, isForeign c = true → c ∉ Text.lower name

theorem excludes_ignore : Excludes ignoreDirective := by
  intro c hc
  rcases isForeign_cases hc with rfl | rfl | rfl | rfl | rfl | rfl <;> decide +kernel

theorem excludes_messageOnly : Excludes messageOnlyDirective := by
  intro c hc
  rcases isForeign_cases hc with rfl | rfl | rfl | rfl | rfl | rfl <;> decide +kernel

theorem isBlank_of_isForeign {c : Char} (h : isForeign c = true) : Text.isBlank c = false := by
  rcases isForeign_cases h with rfl | rfl | rfl | rfl | rfl | rfl <;> decide

theorem mem_lower_of_isForeign {c : Char} (hc : isForeign c = true) {text : List Char} (h : c ∈ text) :
    c ∈ Text.lower text := by
  have hsame : Text.lowerChar c = c ∧ c.toNat ≠ 0x130 ∧ c.toNat ≠ 0x3A3 := by
    rcases isForeign_cases hc with rfl | rfl | rfl | rfl | rfl | rfl <;> decide +kernel
  have hall : ∀ before : List Char, c ∈ Text.lowerFrom before text := by
    induction text with
    | nil => cases h
    | cons d text ih =>
      intro before
      rw [Text.lowerFrom, List.mem_append]
      rcases List.mem_cons.mp h with rfl | h
      · rw [if_neg hsame.2.1, if_neg hsame.2.2, hsame.1]
        exact Or.inl List.mem_cons_self
      · exact Or.inr (ih h _)
  exact hall []

theorem mem_dropWhile {α : Type} {p : α → Bool} {x : α} {xs : List α} (h : x ∈ xs) (hx : p x = false) :
    x ∈ xs.dropWhile p := by
  rw [← List.takeWhile_append_dropWhile (p := p) (l := xs), List.mem_append] at h
  rcases h with h | h
  · rw [List.mem_takeWhile_imp h] at hx
    cases hx
  · exact h

theorem mem_trim {c : Char} {text : List Char} (h : c ∈ text) (hc : Text.isBlank c = false) :
    c ∈ Text.trim text := by
  rw [Text.trim, List.mem_reverse]
  exact mem_dropWhile (List.mem_reverse.mpr (mem_dropWhile h hc)) hc

theorem hits_of_foreign {c : Char} (hn : Excludes name) (hc : isForeign c = true) {text : List Char}
    (h : c ∈ text) : (Text.trim (Text.lower text) == Text.lower name) = false := by
  refine beq_eq_false_iff_ne.mpr fun heq => hn c hc ?_
  rw [← heq]
  exact mem_trim (mem_lower_of_isForeign hc h) (isBlank_of_isForeign hc)

variable {f : Char}

theorem hits_line_of_foreign (hn : Excludes name) (hf : isForeign f = true) (a b : List Char) :
    hits name [some (a ++ f :: b), none] = false := by
  simp [hits, hits_of_foreign hn hf (show f ∈ a ++ f :: b by simp)]

theorem hits_block_of_foreign (hn : Excludes name) (hf : isForeign f = true) (a b : List Char) :
    hits name [none, some (a ++ f :: b)] = false := by
  simp [hits, hits_of_foreign hn hf (show f ∈ a ++ f :: b by simp)]

theorem ne_star_of_isForeign (hf : isForeign f = true) : f ≠ '*' := by
  rintro rfl
  cases hf

section Behind

/-! Two rests of a line behind a foreign character, with an end of a comment in both or in none. -/

variable (hn : Excludes name) (hf : isForeign f = true) {u v : List Char}
  (hends : beforeLastEnd u = none ↔ beforeLastEnd v = none)

include hn hf hends

/-- A block comment before the character captures it, or ends before it. -/
theorem hits_block_behind_foreign (before : List Char) :
    (commentAt ('/' :: '*' :: (before ++ f :: u))).map (hits name) =
      (commentAt ('/' :: '*' :: (before ++ f :: v))).map (hits name) := by
  have hstep (w : List Char) : beforeLastEnd (f :: w) = (beforeLastEnd w).map (f :: ·) :=
    beforeLastEnd_of_not_mem (a := [f]) (by simpa using Ne.symm (ne_star_of_isForeign hf)) w
  cases hv : beforeLastEnd v with
  | some t =>
    obtain ⟨s, hu⟩ := Option.ne_none_iff_exists'.mp fun h => Option.some_ne_none t (hv.symm.trans (hends.mp h))
    have hu' : beforeLastEnd (f :: u) = some (f :: s) := by rw [hstep, hu]; rfl
    have hv' : beforeLastEnd (f :: v) = some (f :: t) := by rw [hstep, hv]; rfl
    rw [commentAt_block_of_some (beforeLastEnd_append_of_some hu' before) (by simp),
      commentAt_block_of_some (beforeLastEnd_append_of_some hv' before) (by simp), Option.map_some, Option.map_some,
      hits_block_of_foreign hn hf, hits_block_of_foreign hn hf]
  | none =>
    have hu' : beforeLastEnd (f :: u) = none := by rw [hstep, hends.mpr hv]; rfl
    have hv' : beforeLastEnd (f :: v) = none := by rw [hstep, hv]; rfl
    rw [commentAt_block, commentAt_block, beforeLastEnd_append_of_none hu', beforeLastEnd_append_of_none hv']

/-- What a comment that begins before the character says does not depend on the rest. -/
theorem hits_behind_foreign (c : Char) {before : List Char}
    (hslash : f = '/' → ∀ d ∈ (c :: before).getLast?, d = '*') :
    (commentAt (c :: (before ++ f :: u))).map (hits name) = (commentAt (c :: (before ++ f :: v))).map (hits name) := by
  by_cases hc : c = '/'
  · subst hc
    cases before with
    | nil =>
      have hne : f ≠ '/' := fun h => absurd (hslash h '/' rfl) (by decide)
      have hstar := ne_star_of_isForeign hf
      rw [List.nil_append, List.nil_append, commentAt_other hne hstar, commentAt_other hne hstar]
    | cons d before =>
      rw [List.cons_append, List.cons_append]
      by_cases hline : d = '/'
      · subst hline
        rw [commentAt_line (by simp), commentAt_line (by simp), Option.map_some, Option.map_some,
          hits_line_of_foreign hn hf, hits_line_of_foreign hn hf]
      · by_cases hblock : d = '*'
        · subst hblock
          exact hits_block_behind_foreign hn hf hends before
        · rw [commentAt_other hline hblock, commentAt_other hline hblock]
  · rw [commentAt_of_ne hc, commentAt_of_ne hc]

/-- Before a foreign character, what stands behind it makes no difference as long as it begins no comment of
its own and has an end of a comment or has none. -/
theorem isDirectiveLine_behind_foreign (hu : commentAt (f :: u) = none) (hv : commentAt (f :: v) = none)
    (hsame : isDirectiveLine slashes name u = isDirectiveLine slashes name v) {before : List Char}
    (hslash : f = '/' → ∀ c ∈ before.getLast?, c = '*') :
    isDirectiveLine slashes name (before ++ f :: u) = isDirectiveLine slashes name (before ++ f :: v) := by
  induction before with
  | nil => rw [List.nil_append, List.nil_append, isDirectiveLine_cons, isDirectiveLine_cons, hu, hv, hsame]
  | cons c before ih =>
    have hslash' : f = '/' → ∀ d ∈ before.getLast?, d = '*' := by
      intro h d hd
      refine hslash h d ?_
      rw [List.getLast?_cons, Option.mem_def.mp hd]
      rfl
    rw [List.cons_append, List.cons_append, isDirectiveLine_cons, isDirectiveLine_cons, ih hslash',
      hits_behind_foreign hn hf hends c hslash]

end Behind

end

namespace Text

/-- A text without the blanks at its end. -/
def trimRight (text : List Char) : List Char := (text.reverse.dropWhile isBlank).reverse

theorem trim_eq (text : List Char) : trim text = trimRight (text.dropWhile isBlank) := rfl

theorem trimRight_eq_nil {text : List Char} : trimRight text = [] ↔ ∀ c ∈ text, isBlank c = true := by
  simp [trimRight, List.dropWhile_eq_nil_iff]

theorem trimRight_append (a b : List Char) :
    trimRight (a ++ b) = if trimRight b = [] then trimRight a else a ++ trimRight b := by
  unfold trimRight
  rw [List.reverse_append, List.dropWhile_append]
  cases h : b.reverse.dropWhile isBlank with
  | nil => simp
  | cons c rest => simp

theorem trimRight_append_of_ne {b : List Char} (h : trimRight b ≠ []) (a : List Char) :
    trimRight (a ++ b) = a ++ trimRight b := by rw [trimRight_append, if_neg h]

theorem trimRight_prefix (text : List Char) : trimRight text <+: text := by
  refine ⟨(text.reverse.takeWhile isBlank).reverse, ?_⟩
  rw [trimRight, ← List.reverse_append, List.takeWhile_append_dropWhile, List.reverse_reverse]

theorem trimRight_cons_of_not_blank {c : Char} (h : isBlank c = false) (text : List Char) :
    trimRight (c :: text) = c :: trimRight text := by
  rw [← List.singleton_append, trimRight_append]
  split
  · next hnil =>
    rw [hnil]
    simp [trimRight, h]
  · rfl

theorem isBlank_of_mem_takeWhile {c : Char} {text : List Char} (h : c ∈ text.takeWhile isBlank) :
    isBlank c = true := List.mem_takeWhile_imp h

theorem trim_eq_nil {text : List Char} : trim text = [] ↔ ∀ c ∈ text, isBlank c = true := by
  rw [trim_eq, trimRight_eq_nil]
  constructor
  · intro h c hc
    refine Bool.eq_false_or_eq_true (isBlank c) |>.elim id fun hf => ?_
    exact absurd (h c (mem_dropWhile hc hf)) (by rw [hf]; decide)
  · exact fun h c hc => h c ((List.dropWhile_suffix _).subset hc)

end Text

section

open CommentPattern

variable {name : List Char}

theorem not_slash_of_blank {text : List Char} (h : ∀ c ∈ text, Text.isBlank c = true) :
    Uncommented text := by
  constructor <;> intro hc <;> exact absurd (h _ hc) (by decide)

/-- Blanks at the beginning of a line make no difference. -/
theorem isDirectiveLine_trim (line : List Char) : isDirectiveLine slashes name (Text.trim line) =
    isDirectiveLine slashes name (Text.trimRight line) := by
  have hblank : ∀ c ∈ line.takeWhile Text.isBlank, Text.isBlank c = true :=
    fun c hc => Text.isBlank_of_mem_takeWhile hc
  rw [Text.trim_eq]
  conv => rhs; rw [← List.takeWhile_append_dropWhile (p := Text.isBlank) (l := line)]
  rw [Text.trimRight_append]
  split
  · next h => rw [h, Text.trimRight_eq_nil.mpr hblank]
  · rw [isDirectiveLine_append (not_slash_of_blank hblank).1]

/-- What stands in a line before a text put into it: blanks alone, with something behind, or a foreign
character and blanks. -/
def Guards (front : List Char) (next : Option Char) : Prop :=
  ((∀ c ∈ front, Text.isBlank c = true) ∧ ∃ c ∈ next, Text.isBlank c = false) ∨
  ∃ before f blanks, front = before ++ f :: blanks ∧ isForeign f = true ∧
    (∀ c ∈ blanks, Text.isBlank c = true) ∧
    (f = '/' → (∀ c ∈ before.getLast?, c = '*') ∧ (blanks = [] → ∀ c ∈ next, c ≠ '/' ∧ c ≠ '*'))

/-- A text to put into lines. -/
structure Insertable (text : List Char) : Prop where
  uncommented : Uncommented text
  shown : ∃ c rest, text = c :: rest ∧ Text.isBlank c = false

theorem Uncommented.append {a b : List Char} (ha : Uncommented a) (hb : Uncommented b) :
    Uncommented (a ++ b) := by
  simp only [Uncommented, List.mem_append, not_or]
  exact ⟨⟨ha.1, hb.1⟩, ha.2, hb.2⟩

theorem Uncommented.sublist {a b : List Char} (hb : Uncommented b) (h : a.Sublist b) : Uncommented a :=
  ⟨fun hc => hb.1 (h.subset hc), fun hc => hb.2 (h.subset hc)⟩

/-- Of a plain text before the rest of a line, something plain is left. -/
theorem Uncommented.exists_trimRight {a : List Char} (h : Uncommented a) (rest : List Char) :
    ∃ shown, Uncommented shown ∧ Text.trimRight (a ++ rest) = shown ++ Text.trimRight rest := by
  rw [Text.trimRight_append]
  split
  · next hr =>
    exact ⟨Text.trimRight a, h.sublist (Text.trimRight_prefix a).sublist, by rw [hr, List.append_nil]⟩
  · exact ⟨a, h, rfl⟩

theorem commentAt_behind_blanks {f : Char} {blanks rest : List Char}
    (hblanks : ∀ c ∈ blanks, Text.isBlank c = true)
    (hedge : f = '/' → blanks = [] → ∀ c ∈ rest.head?, c ≠ '/' ∧ c ≠ '*') :
    commentAt (f :: Text.trimRight (blanks ++ rest)) = none := by
  by_cases hf : f = '/'
  · obtain ⟨tail, htail⟩ := Text.trimRight_prefix (blanks ++ rest)
    cases hline : Text.trimRight (blanks ++ rest) with
    | nil => exact commentAt_single f
    | cons d line =>
      have hd : d ∈ (blanks ++ rest).head? := by rw [← htail, hline]; rfl
      obtain ⟨h1, h2⟩ : d ≠ '/' ∧ d ≠ '*' := by
        cases blanks with
        | nil => exact hedge hf rfl d hd
        | cons b blanks =>
          obtain rfl : b = d := Option.some.inj hd
          have hb := hblanks b List.mem_cons_self
          constructor <;> rintro rfl <;> exact absurd hb (by decide)
      rw [hf]
      exact commentAt_other h1 h2 line
  · exact commentAt_of_ne hf _

/-- A text put into a line, well guarded, does not make or unmake a directive. -/
theorem isDirectiveLine_insert (hn : Excludes name) {front text rest : List Char}
    (ht : Insertable text) (hg : Guards front rest.head?) :
    isDirectiveLine slashes name (Text.trim (front ++ (text ++ rest))) =
      isDirectiveLine slashes name (Text.trim (front ++ rest)) := by
  have hplain := ht.uncommented
  rw [isDirectiveLine_trim, isDirectiveLine_trim]
  rcases hg with ⟨hfront, d, hd, hblank⟩ | ⟨before, f, blanks, rfl, hf, hblanks, hslash⟩
  · -- both lines are blanks before what follows
    have hrest : Text.trimRight rest ≠ [] := fun h => by
      rw [Text.trimRight_eq_nil.mp h d (List.mem_of_mem_head? hd)] at hblank
      cases hblank
    rw [Text.trimRight_append_of_ne hrest front, ← List.append_assoc,
      Text.trimRight_append_of_ne hrest, isDirectiveLine_append (not_slash_of_blank hfront).1,
      isDirectiveLine_append ((not_slash_of_blank hfront).append hplain).1]
  · have hkeep (w : List Char) : Text.trimRight (before ++ f :: blanks ++ w) =
        before ++ f :: Text.trimRight (blanks ++ w) := by
      rw [List.append_assoc, List.cons_append, Text.trimRight_append,
        Text.trimRight_cons_of_not_blank (isBlank_of_isForeign hf), if_neg (List.cons_ne_nil _ _)]
    have hspaces := not_slash_of_blank hblanks
    have hnew : commentAt (f :: Text.trimRight (blanks ++ (text ++ rest))) = none := by
      refine commentAt_behind_blanks hblanks fun _ _ c hc => ?_
      obtain ⟨d, more, rfl, _⟩ := ht.shown
      obtain rfl : d = c := Option.some.inj hc
      simp only [Uncommented, List.mem_cons, not_or] at hplain
      exact ⟨Ne.symm hplain.1.1, Ne.symm hplain.2.1⟩
    have hold := commentAt_behind_blanks hblanks fun h => (hslash h).2
    rw [hkeep, hkeep]
    -- the two lines differ in something plain before the rest
    obtain ⟨added, hadded, hwith⟩ := (hspaces.append hplain).exists_trimRight rest
    obtain ⟨kept, hkept, hwithout⟩ := hspaces.exists_trimRight rest
    rw [List.append_assoc] at hwith
    refine isDirectiveLine_behind_foreign hn hf ?_ hnew hold ?_ fun h => (hslash h).1
    · rw [hwith, hwithout, beforeLastEnd_of_not_mem hadded.2, beforeLastEnd_of_not_mem hkept.2,
        Option.map_eq_none_iff, Option.map_eq_none_iff]
    · rw [hwith, hwithout, isDirectiveLine_append hadded.1, isDirectiveLine_append hkept.1]

theorem Insertable.trim_ne_nil {text : List Char} (h : Insertable text) (front rest : List Char) :
    Text.trim (front ++ (text ++ rest)) ≠ [] := by
  obtain ⟨_, c, more, rfl, hc⟩ := h
  intro hnil
  rw [Text.trim_eq_nil.mp hnil c (by simp)] at hc
  cases hc

theorem Guards.trim_ne_nil {front rest : List Char} (h : Guards front rest.head?) :
    Text.trim (front ++ rest) ≠ [] := by
  intro hnil
  rw [Text.trim_eq_nil] at hnil
  rcases h with ⟨_, c, hc, hblank⟩ | ⟨before, f, blanks, rfl, hf, _⟩
  · rw [hnil c (List.mem_append_right _ (List.mem_of_mem_head? hc))] at hblank
    cases hblank
  · have := hnil f (by simp)
    rw [isBlank_of_isForeign hf] at this
    cases this

end

end LogRef
