import LogRef.Proofs.Syntax.GrownForest
import LogRef.Proofs.Syntax.Segments

/-!
# Invocations of a moved tree

A moved tree has the invocations of the old one, in the same order, with every boundary moved and the tokens
of new arguments put in.
-/
namespace LogRef

/-- The tokens between the brackets of an invocation in the edited source. -/
def grownTokens (e : Edits) (edited : Bytes) (start : Int) (tokens : List Token) : List Token :=
  (tokens.take (argumentIndex tokens)).map (Token.moved e edited) ++
    (e.argument true start tokens ++
      (tokens.drop (argumentIndex tokens)).map (Token.moved e edited))

def Invocation.grown (e : Edits) (edited : Bytes) (v : Invocation) : Invocation :=
  ⟨v.name, e.right v.nameStart, e.left v.nameStop, e.right v.start, e.left v.stop,
    grownTokens e edited v.start v.tokens⟩

/-- The texts put in inside of a token are where it lets them be. -/
def Part.Held (e : Edits) (x : Part) : Prop :=
  ∀ p : Nat, e.text p ≠ [] → x.token.start < p → p < x.token.stop → x.Hosts e p

/-- A token that is no string and no tree keeps its text. -/
def Token.Steady (e : Edits) (edited : Bytes) (t : Token) : Prop :=
  t.kind ≠ .string → t.kind ≠ .tree → (t.moved e edited).text = t.text

/-- New arguments end with a separator. -/
def Edits.Closed (e : Edits) : Prop := ∀ p : Nat, EndsClosed (e.tokens p)

section

variable {e : Edits} {source edited : Bytes}

theorem Part.Held.steady {x : Part} (h : x.Held e) (hp : x.Placed source) :
    x.token.Steady e (e.apply source) := by
  intro hstring htree
  have hc := hp.covers
  have hle := Int.le_of_lt hc.nonempty
  have hq : e.Quiet x.token.start x.token.stop := by
    intro p htext hgt
    refine Int.not_lt.mp fun hlt => ?_
    have hhosts := h p htext hgt hlt
    cases x with
    | leaf t => exact hstring hhosts.1
    | tree t isBracketed hasError inside => exact htree hp.2.1
  rw [Token.moved, hc.text]
  exact Edits.slice_apply hc.nonneg hle hc.within hq

theorem Part.Held.inside {t : Token} {isBracketed hasError : Bool} {inside : List Part}
    (h : (Part.tree t isBracketed hasError inside).Held e)
    (hp : (Part.tree t isBracketed hasError inside).Placed source) {y : Part} (hy : y ∈ inside) :
    y.Held e := by
  intro p htext hgt hlt
  rw [Part.Placed] at hp
  obtain ⟨_, _, horder, _⟩ := hp
  have hb := horder.mem (List.mem_map_of_mem hy)
  have hd : (0 : Int) ≤ if isBracketed = true then 1 else 0 := by split <;> decide
  have hhosts := h p htext (by simp only [Part.token]; omega) (by simp only [Part.token]; omega)
  rw [Part.Hosts] at hhosts
  rcases hhosts with ⟨rfl, _, hplace, _⟩ | hhosts
  · rw [if_pos rfl] at horder
    obtain ⟨_, _, _, hbefore, hbehind, _⟩ := argumentPlace_spec horder hplace
    have hmem : y.token ∈ inside.map Part.token := List.mem_map_of_mem hy
    rw [← List.take_append_drop (argumentIndex (inside.map Part.token)) (inside.map Part.token),
      List.mem_append] at hmem
    rcases hmem with hmem | hmem
    · have := hbefore _ hmem
      omega
    · have := hbehind _ hmem
      omega
  · obtain ⟨z, hz, hzlo, hzhi, hzh⟩ := hostsAmong_iff.mp hhosts
    rwa [horder.part_unique hy hz ⟨hgt, hlt⟩ ⟨hzlo, hzhi⟩]

theorem Token.Steady.alike {t : Token} (h : t.Steady e edited) : t.Alike (t.moved e edited) := ⟨rfl, h⟩

theorem Token.Steady.isPunct {t : Token} (h : t.Steady e edited) (c : Char) :
    (t.moved e edited).isPunct c = t.isPunct c := h.alike.isPunct c

theorem Token.Steady.separator? {t : Token} (h : t.Steady e edited) :
    (t.moved e edited).separator? = t.separator? := h.alike.separator?

theorem pathBefore_moved {before : List Token} (h : ∀ t ∈ before, t.Steady e edited) :
    pathBefore (before.map (Token.moved e edited)) =
      (pathBefore before).map (Token.moved e edited) := by
  fun_induction pathBefore before with
  | case1 second first word rest hc ih =>
    have hsecond := h second (by simp)
    have hfirst := h first (by simp)
    simp only [List.map_cons, pathBefore, hsecond.isPunct, hfirst.isPunct]
    rw [show (word.moved e edited).kind = word.kind from rfl, if_pos hc, ih fun t ht => h t (by simp [ht])]
  | case2 second first word rest hc =>
    have hsecond := h second (by simp)
    have hfirst := h first (by simp)
    simp only [List.map_cons, pathBefore, hsecond.isPunct, hfirst.isPunct]
    rw [show (word.moved e edited).kind = word.kind from rfl, if_neg hc]
    rfl
  | case3 before hne =>
    match before with
    | [] | [_] | [_, _] => rfl
    | second :: first :: word :: rest => exact absurd rfl (hne second first word rest)

theorem mem_of_mem_pathBefore {before : List Token} {t : Token} (h : t ∈ pathBefore before) :
    t ∈ before ∧ (t.kind = .punct ∨ t.kind = .word) := by
  fun_induction pathBefore before with
  | case1 second first word rest hc ih =>
    simp only [Bool.and_eq_true, Token.isPunct, decide_eq_true_eq] at hc
    simp only [List.mem_cons] at h ⊢
    rcases h with rfl | rfl | rfl | h
    · exact ⟨by simp, Or.inl hc.1.1.1⟩
    · exact ⟨by simp, Or.inl hc.1.2.1⟩
    · exact ⟨by simp, Or.inr hc.2⟩
    · exact ⟨by simp [(ih h).1], (ih h).2⟩
  | case2 => cases h
  | case3 => cases h

/-- The invocation that a tree completes keeps its name. -/
theorem invocationBefore_moved {before : List Token} (h : ∀ t ∈ before, t.Steady e edited) (t : Token)
    (isBracketed hasError : Bool) (tokens : List Token) :
    invocationBefore (before.map (Token.moved e edited)) (t.moved e edited) isBracketed hasError
        (grownTokens e edited t.start tokens) =
      (invocationBefore before t isBracketed hasError tokens).map (Invocation.grown e edited) := by
  match before with
  | [] | [_] => rfl
  | bang :: last :: more =>
    have hbang := h bang (by simp)
    have hmore : ∀ u ∈ more, u.Steady e edited := fun u hu => h u (by simp [hu])
    simp only [List.map_cons, invocationBefore, hbang.isPunct, pathBefore_moved hmore,
      show (last.moved e edited).kind = last.kind from rfl]
    split
    · next hc =>
      simp only [Bool.and_eq_true, decide_eq_true_eq] at hc
      -- the words and colons of the path keep their texts
      have htext : ∀ u ∈ (last :: pathBefore more).reverse, (u.moved e edited).text = u.text := by
        intro u hu
        rw [List.mem_reverse, List.mem_cons] at hu
        have hkind : u.kind = .punct ∨ u.kind = .word := by
          rcases hu with rfl | hu
          · exact Or.inr hc.1.2
          · exact (mem_of_mem_pathBefore hu).2
        have hsteady : u.Steady e edited := by
          rcases hu with rfl | hu
          · exact h u (by simp)
          · exact hmore u (mem_of_mem_pathBefore hu).1
        refine hsteady ?_ ?_ <;> rcases hkind with hk | hk <;> rw [hk] <;> decide
      have hpath : (last.moved e edited :: (pathBefore more).map (Token.moved e edited)).reverse =
          ((last :: pathBefore more).reverse).map (Token.moved e edited) := by
        rw [List.map_reverse, List.map_cons]
      rw [hpath]
      generalize hrev : (last :: pathBefore more).reverse = path at htext
      have hname : (path.map (Token.moved e edited)).map (fun u => u.text.lossyText) =
          path.map fun u => u.text.lossyText := by
        rw [List.map_map]
        exact List.map_congr_left fun u hu => by rw [Function.comp_apply, htext u hu]
      cases path with
      | nil => simp at hrev
      | cons u us =>
        simp only [List.map_cons, List.map_nil, Invocation.grown, List.cons.injEq, and_true,
          Invocation.mk.injEq] at hname ⊢
        exact ⟨by rw [hname.1, hname.2], rfl, rfl, rfl, rfl⟩
    · rfl

theorem invocationsAmong_append (before : List Token) (a b : List Part) :
    invocationsAmong before (a ++ b) =
      invocationsAmong before a ++ invocationsAmong ((a.map Part.token).reverse ++ before) b := by
  induction a generalizing before with
  | nil => rfl
  | cons x a ih =>
    rw [List.cons_append, invocationsAmong, invocationsAmong, ih, List.append_assoc, List.map_cons,
      List.reverse_cons, List.append_assoc, List.singleton_append]

/-- A separator is neither a word nor part of what completes an invocation. -/
theorem Token.of_separator {s : Token} (h : s.separator?.isSome = true) :
    s.kind = .punct ∧ s.isPunct ':' = false ∧ s.isPunct '!' = false := by
  have hsep : s.isPunct ',' = true ∨ s.isPunct ';' = true := by
    unfold Token.separator? at h
    split at h
    · exact Or.inl ‹_›
    · split at h
      · exact Or.inr ‹_›
      · cases h
  simp only [Token.isPunct, Bool.and_eq_true, decide_eq_true_eq, beq_iff_eq] at hsep
  rcases hsep with ⟨hk, ht⟩ | ⟨hk, ht⟩ <;>
    exact ⟨hk, by rw [Token.isPunct, ht]; simp [asciiByte], by rw [Token.isPunct, ht]; simp [asciiByte]⟩

section Closed

variable {s : Token} (h : s.separator?.isSome = true)
include h

theorem pathBefore_closed (front back : List Token) :
    pathBefore (front ++ s :: back) = pathBefore front := by
  obtain ⟨hk, hcolon, _⟩ := Token.of_separator h
  fun_induction pathBefore front with
  | case1 second first word rest hc ih =>
    simp only [List.cons_append, pathBefore]
    rw [if_pos hc, ih]
  | case2 second first word rest hc =>
    simp only [List.cons_append, pathBefore]
    rw [if_neg hc]
  | case3 front hne =>
    match front with
    | [] =>
      match back with
      | [] | [_] => rfl
      | first :: word :: rest => simp [pathBefore, hcolon]
    | [second] =>
      match back with
      | [] => rfl
      | word :: rest => simp [pathBefore, hcolon]
    | [second, first] => simp [pathBefore, hk]
    | second :: first :: word :: rest => exact absurd rfl (hne second first word rest)

theorem invocationBefore_closed (front back : List Token) (t : Token) (isBracketed hasError : Bool)
    (tokens : List Token) :
    invocationBefore (front ++ s :: back) t isBracketed hasError tokens =
      invocationBefore front t isBracketed hasError tokens := by
  obtain ⟨hk, _, hbang⟩ := Token.of_separator h
  match front with
  | [] =>
    match back with
    | [] => rfl
    | last :: more => simp [invocationBefore, hbang]
  | [bang] => simp [invocationBefore, hk]
  | bang :: last :: more => simp only [List.cons_append, invocationBefore, pathBefore_closed h]

/-- What stands before a separator completes no invocation behind it. -/
theorem invocationsAmong_closed (front back : List Token) (xs : List Part) :
    invocationsAmong (front ++ s :: back) xs = invocationsAmong front xs := by
  induction xs generalizing front with
  | nil => rfl
  | cons x xs ih =>
    have hown : x.invocations (front ++ s :: back) = x.invocations front := by
      cases x with
      | leaf t => rfl
      | tree t isBracketed hasError inside =>
        rw [Part.invocations, Part.invocations, invocationBefore_closed h]
    have hrest := ih (x.token :: front)
    rw [List.cons_append] at hrest
    rw [invocationsAmong, invocationsAmong, hown, hrest]

end Closed

theorem invocationsAmong_of_endsClosed {ts : List Token} (h : EndsClosed ts) (xs : List Part) :
    invocationsAmong ts.reverse xs = invocationsAmong [] xs := by
  cases hlast : ts.getLast? with
  | none =>
    rw [List.getLast?_eq_none_iff.mp hlast]
    rfl
  | some s =>
    obtain ⟨front, rfl⟩ := List.getLast?_eq_some_iff.mp hlast
    rw [List.reverse_append]
    exact invocationsAmong_closed (h s hlast) [] front.reverse xs

theorem allGrown_take (k : Nat) (xs : List Part) :
    (allGrown e edited xs).take k = allGrown e edited (xs.take k) := by
  induction xs generalizing k with
  | nil => simp [allGrown]
  | cons x xs ih =>
    cases k with
    | zero => rfl
    | succ k => rw [allGrown, List.take_succ_cons, ih, List.take_succ_cons, allGrown]

theorem allGrown_drop (k : Nat) (xs : List Part) :
    (allGrown e edited xs).drop k = allGrown e edited (xs.drop k) := by
  induction xs generalizing k with
  | nil => simp [allGrown]
  | cons x xs ih =>
    cases k with
    | zero => rfl
    | succ k => rw [allGrown, List.drop_succ_cons, ih, List.drop_succ_cons]

theorem map_token_withArgument (start : Int) (inside : List Part) :
    (withArgument (inside.map Part.token) (e.argument true start (inside.map Part.token))
        (allGrown e edited inside)).map Part.token =
      grownTokens e edited start (inside.map Part.token) := by
  simp only [withArgument, grownTokens, List.map_append, allGrown_take, allGrown_drop,
    map_token_allGrown, map_token_leaf, List.map_take, List.map_drop]

theorem Edits.Closed.argument (h : e.Closed) (isBracketed : Bool) (start : Int) (tokens : List Token) :
    EndsClosed (e.argument isBracketed start tokens) := by
  unfold Edits.argument
  split
  · cases argumentPlace start tokens with
    | none => intro t ht; cases ht
    | some p => exact h p.toNat
  · intro t ht
    cases ht

theorem EndsClosed.append {a b : List Token} (ha : EndsClosed a) (hb : EndsClosed b) :
    EndsClosed (a ++ b) := by
  intro t ht
  rw [List.getLast?_append] at ht
  cases hlast : b.getLast? with
  | none =>
    rw [hlast] at ht
    exact ha t ht
  | some u =>
    rw [hlast] at ht
    exact hb t (hlast.trans ht)

theorem EndsClosed.moved {ts : List Token} (h : EndsClosed ts) (hs : ∀ t ∈ ts, t.Steady e edited) :
    EndsClosed (ts.map (Token.moved e edited)) := by
  intro t ht
  rw [List.getLast?_map] at ht
  obtain ⟨u, hu, rfl⟩ := Option.map_eq_some_iff.mp ht
  rw [(hs u (List.mem_of_getLast? hu)).separator?]
  exact h u hu

/-- The invocations of a list of tokens, given those of each. -/
theorem invocationsAmong_grown {xs : List Part} (hs : ∀ x ∈ xs, x.token.Steady e edited)
    (hx : ∀ x ∈ xs, ∀ before : List Token, (∀ t ∈ before, t.Steady e edited) →
      (x.grown e edited).invocations (before.map (Token.moved e edited)) =
        (x.invocations before).map (Invocation.grown e edited))
    {before : List Token} (hbefore : ∀ t ∈ before, t.Steady e edited) :
    invocationsAmong (before.map (Token.moved e edited)) (allGrown e edited xs) =
      (invocationsAmong before xs).map (Invocation.grown e edited) := by
  induction xs generalizing before with
  | nil => rfl
  | cons x xs ih =>
    have hnext : ∀ t ∈ x.token :: before, t.Steady e edited := by
      intro t ht
      rcases List.mem_cons.mp ht with rfl | ht
      · exact hs x List.mem_cons_self
      · exact hbefore t ht
    have hrest := ih (fun y hy => hs y (List.mem_cons_of_mem x hy))
      (fun y hy => hx y (List.mem_cons_of_mem x hy)) hnext
    rw [List.map_cons] at hrest
    rw [allGrown, invocationsAmong, invocationsAmong, List.map_append, token_grown, hrest,
      hx x List.mem_cons_self before hbefore]

/-- The invocations at and inside a token of the edited source. -/
theorem Part.invocations_grown (hclosed : e.Closed) (x : Part) (hp : x.Placed source) (hh : x.Held e)
    {before : List Token} (hbefore : ∀ t ∈ before, t.Steady e (e.apply source)) :
    (x.grown e (e.apply source)).invocations (before.map (Token.moved e (e.apply source))) =
      (x.invocations before).map (Invocation.grown e (e.apply source)) := by
  induction x using Part.ind generalizing before with
  | leaf t => rfl
  | tree t isBracketed hasError inside ih =>
    have hplaced : AllPlaced source inside := hp.2.2.2
    have hheld : ∀ y ∈ inside, y.Held e := fun y hy => hh.inside hp hy
    have hsteady : ∀ y ∈ inside, y.token.Steady e (e.apply source) := fun y hy =>
      (hheld y hy).steady (hplaced.mem hy)
    have hall {ys : List Part} (hys : ∀ y ∈ ys, y ∈ inside) :
        invocationsAmong [] (allGrown e (e.apply source) ys) =
          (invocationsAmong [] ys).map (Invocation.grown e (e.apply source)) := by
      have hnone : ∀ t ∈ ([] : List Token), t.Steady e (e.apply source) := fun t ht => by cases ht
      exact invocationsAmong_grown (fun y hy => hsteady y (hys y hy))
        (fun y hy b hb => ih y (hys y hy) (hplaced.mem (hys y hy)) (hheld y (hys y hy)) hb) hnone
    rw [Part.grown, Part.invocations, Part.invocations, List.map_append]
    congr 1
    · cases isBracketed with
      | true => rw [map_token_withArgument, invocationBefore_moved hbefore]
      | false =>
        cases before with
        | nil => rfl
        | cons u us => cases us <;> rfl
    · -- a new argument is closed off on both sides
      generalize hk : argumentIndex (inside.map Part.token) = k
      have hfront : EndsClosed ((inside.take k).map Part.token) := by
        rw [List.map_take, ← hk]
        exact endsClosed_take_argumentIndex _
      have hfront' : EndsClosed (((allGrown e (e.apply source) inside).take k).map Part.token) := by
        rw [allGrown_take, map_token_allGrown]
        refine hfront.moved fun u hu => ?_
        obtain ⟨y, hy, rfl⟩ := List.mem_map.mp hu
        exact hsteady y (List.mem_of_mem_take hy)
      have hback := invocationsAmong_of_endsClosed
        (hfront'.append (hclosed.argument isBracketed t.start (inside.map Part.token)))
        ((allGrown e (e.apply source) inside).drop k)
      rw [List.reverse_append] at hback
      rw [withArgument, hk, invocationsAmong_append, invocationsAmong_leaves, List.append_nil, hback,
        allGrown_take, allGrown_drop, hall fun y hy => List.mem_of_mem_take hy,
        hall fun y hy => List.mem_of_mem_drop hy]
      conv => rhs; rw [← List.take_append_drop k inside]
      rw [invocationsAmong_append, List.append_nil, invocationsAmong_of_endsClosed hfront,
        List.map_append]

end

namespace Node

mutual

/-- The offset is inside of a bracketed tree that lets a text be there. -/
def Holds (e : Edits) (source : Bytes) (p : Nat) : Node → Prop
  | mk kind start stop isNamed hasError isMacroName children =>
    if kind = .tokenTree then
      (Part.tree (token source (mk kind start stop isNamed hasError isMacroName children)) true hasError
        (forest source (mk kind start stop isNamed hasError isMacroName children))).Hosts e p
    else HoldsAmong e source p children

def HoldsAmong (e : Edits) (source : Bytes) (p : Nat) : List Node → Prop
  | [] => False
  | c :: rest => (c.start < p ∧ p < c.stop ∧ c.Holds e source p) ∨ HoldsAmong e source p rest

end

/-- The texts put in inside of a node are where bracketed trees let them be, and none is at its ends. -/
structure Held (e : Edits) (source : Bytes) (n : Node) : Prop where
  inside : ∀ p : Nat, e.text p ≠ [] → n.start < p → p < n.stop → n.Holds e source p
  atStart : e.text n.start.toNat = []
  atStop : e.text n.stop.toNat = []

section

variable {e : Edits} {source : Bytes} {n n' c c' : Node} {p : Nat}

theorem holds_of_tokenTree (h : n.kind = .tokenTree) : n.Holds e source p ↔
    (Part.tree (n.token source) (n.kind = .tokenTree) n.hasError (n.forest source)).Hosts e p := by
  cases n with
  | mk kind start stop isNamed hasError isMacroName children =>
    obtain rfl : kind = .tokenTree := h
    rw [Holds, if_pos rfl]
    rfl

theorem holds_of_ne_tokenTree (h : n.kind ≠ .tokenTree) :
    n.Holds e source p ↔ ∃ c ∈ n.children, c.start < p ∧ p < c.stop ∧ c.Holds e source p := by
  have hall : ∀ ns : List Node, HoldsAmong e source p ns ↔
      ∃ c ∈ ns, c.start < p ∧ p < c.stop ∧ c.Holds e source p := by
    intro ns
    induction ns with
    | nil => simp [HoldsAmong]
    | cons c ns ih => simp [HoldsAmong, ih]
  cases n with
  | mk kind start stop isNamed hasError isMacroName children =>
    have hk : kind ≠ .tokenTree := h
    rw [Holds, if_neg hk]
    exact hall children

theorem Held.child (h : n.Held e source) (hk : n.kind ≠ .tokenTree) (hf : n.Fits source)
    (hc : c ∈ n.children) : c.Held e source := by
  have hb := hf.wellFormed.ordered.mem hc
  have hcover (q : Nat) (htext : e.text q ≠ []) (hlo : n.start < q) (hhi : q < n.stop) :
      ∃ d ∈ n.children, d.start < q ∧ q < d.stop ∧ d.Holds e source q :=
    (holds_of_ne_tokenTree hk).mp (h.inside q htext hlo hhi)
  -- no text is at a boundary of a child: the child around it would not be apart from this one
  have hedge (q : Int) (hq : q = c.start ∨ q = c.stop) : e.text q.toNat = [] := by
    have h0 := hf.nonneg
    by_cases hs : q = n.start
    · rw [hs]
      exact h.atStart
    · by_cases ht : q = n.stop
      · rw [ht]
        exact h.atStop
      · refine Decidable.byContradiction fun hne => ?_
        obtain ⟨d, hd, hdlo, hdhi, _⟩ := hcover q.toNat hne (by omega) (by omega)
        rcases hf.wellFormed.ordered.apart hc hd with rfl | hapart
        · omega
        · omega
  refine ⟨fun q htext hlo hhi => ?_, hedge c.start (Or.inl rfl), hedge c.stop (Or.inr rfl)⟩
  obtain ⟨d, hd, hdlo, hdhi, hdh⟩ := hcover q htext (by omega) (by omega)
  rcases hf.wellFormed.ordered.apart hc hd with rfl | hapart
  · exact hdh
  · omega

theorem Held.hostedIn (h : n.Held e source) (hk : n.kind = .tokenTree) : n.HostedIn e source :=
  fun p htext hlo hhi => (holds_of_tokenTree hk).mp (h.inside p htext hlo hhi)

/-- Without texts at its ends, a node is moved exactly. -/
theorem Held.bounds (h : n.Held e source) {inTree : Bool} (hm : n.Moves e inTree n') :
    n'.start = e.right n.start ∧ n'.stop = e.left n.stop := by
  by_cases hne : n.start = n.stop
  · have hempty := hm.empty hne
    have hwithin := hm.empty_within hne
    have hstart := Edits.right_eq_left h.atStart
    rw [← hne]
    omega
  · exact hm.bounds hne

theorem mem_forestAmong {cs : List Node} {cursor stop : Int} {x : Part}
    (h : x ∈ forestAmong source stop cursor cs) :
    (x.token.kind ≠ .string ∧ ∃ t, x = .leaf t) ∨ ∃ c ∈ cs, x ∈ c.ownParts source := by
  have hgap {a b : Int} (h : x ∈ (gapTokens source a b).map .leaf) :
      x.token.kind ≠ .string ∧ ∃ t, x = .leaf t := by
    obtain ⟨t, ht, rfl⟩ := List.mem_map.mp h
    obtain ⟨q, hq, rfl⟩ := List.mem_map.mp ht
    exact ⟨(kind_of_mem_piecesOf hq).1, _, rfl⟩
  induction cs generalizing cursor with
  | nil =>
    rw [forestAmong] at h
    exact Or.inl (hgap h)
  | cons c cs ih =>
    have hbehind {a : Int} (h : x ∈ forestAmong source stop a cs) :
        (x.token.kind ≠ .string ∧ ∃ t, x = .leaf t) ∨ ∃ d ∈ c :: cs, x ∈ d.ownParts source := by
      rcases ih h with h | ⟨d, hd, h⟩
      · exact Or.inl h
      · exact Or.inr ⟨d, List.mem_cons_of_mem c hd, h⟩
    cases hp : c.isPassedOver cursor stop with
    | true =>
      rw [forestAmong_of_passed hp] at h
      exact hbehind h
    | false =>
      rw [forestAmong_of_kept hp, List.mem_append, List.mem_append] at h
      rcases h with h | h | h
      · exact Or.inl (hgap h)
      · exact Or.inr ⟨c, List.mem_cons_self, h⟩
      · exact hbehind h

theorem kind_of_tokenKind_string (h : c.tokenKind = .string) : c.kind = .stringLiteral := by
  unfold tokenKind at h
  split at h
  · assumption
  all_goals cases h

/-- A string among the tokens of a tree is a string literal below it. -/
theorem hasString_of_mem_forest {x : Part} (h : x ∈ n.forest source)
    (hs : x.token.kind = .string) : n.hasString = true := by
  rw [forest_eq] at h
  rcases mem_forestAmong h with h | ⟨c, hc, h⟩
  · exact absurd hs h.1
  · have hk : c.kind = .stringLiteral := by
      refine kind_of_tokenKind_string ?_
      unfold ownParts at h
      split at h
      · cases h
      · split at h <;> (rw [List.mem_singleton] at h; subst h; exact hs)
    exact hasString_of_mem hc (hasString_of_kind hk)

theorem hasString_of_hostsAmong (hw : n.WellFormed source) (h : HostsAmong e p (n.forest source)) :
    n.hasString = true := by
  induction hw with
  | @mk kind start stop isNamed hasError isMacroName children _ _ _ _ ih =>
    obtain ⟨x, hx, _, _, hhosts⟩ := hostsAmong_iff.mp h
    cases x with
    | leaf t => exact hasString_of_mem_forest hx hhosts.1
    | tree t isBracketed hasError' inside =>
      rw [forest_eq] at hx
      rcases mem_forestAmong hx with hx | ⟨c, hc, hx⟩
      · obtain ⟨_, t', ht'⟩ := hx
        cases ht'
      · have hin : inside = c.forest source := by
          unfold ownParts at hx
          split at hx
          · cases hx
          · split at hx <;> (rw [List.mem_singleton] at hx; cases hx; try rfl)
        refine hasString_of_mem hc ?_
        rw [Part.Hosts, hin] at hhosts
        rcases hhosts with ⟨_, _, _, y, hy, hs⟩ | hhosts
        · exact hasString_of_mem_forest hy hs
        · exact ih c hc hhosts

theorem hasString_of_holds (hw : n.WellFormed source) (h : n.Holds e source p) :
    n.hasString = true := by
  induction hw with
  | @mk kind start stop isNamed hasError isMacroName children ho hb hp hbelow ih =>
    by_cases hk : (mk kind start stop isNamed hasError isMacroName children).kind = .tokenTree
    · rw [holds_of_tokenTree hk, Part.Hosts] at h
      rcases h with ⟨_, _, _, y, hy, hs⟩ | h
      · exact hasString_of_mem_forest hy hs
      · exact hasString_of_hostsAmong (.mk ho hb hp hbelow) h
    · obtain ⟨c, hc, _, _, hch⟩ := (holds_of_ne_tokenTree hk).mp h
      exact hasString_of_mem hc (ih c hc hch)

/-- What is found first among moved nodes is the moved node of what was found. -/
theorem MovesAll.find? {inTree : Bool} {cs cs' : List Node} (h : MovesAll e inTree cs cs')
    {f : Node → Bool} (hf : ∀ c c', c.Moves e inTree c' → f c' = f c) :
    (cs.find? f = none ∧ cs'.find? f = none) ∨
      ∃ c c', cs.find? f = some c ∧ cs'.find? f = some c' ∧ c.Moves e inTree c' := by
  induction cs generalizing cs' with
  | nil =>
    rw [MovesAll] at h
    subst h
    exact Or.inl ⟨rfl, rfl⟩
  | cons d cs ih =>
    rw [MovesAll] at h
    obtain ⟨d', rest', rfl, hd', hrest'⟩ := h
    cases hfd : f d with
    | true =>
      have hfd' : f d' = true := (hf d d' hd').trans hfd
      exact Or.inr ⟨d, d', List.find?_cons_of_pos hfd, List.find?_cons_of_pos hfd', hd'⟩
    | false =>
      have hfd' : ¬ f d' = true := by rw [hf d d' hd', hfd]; decide
      rw [List.find?_cons_of_neg (by rw [hfd]; decide), List.find?_cons_of_neg hfd']
      exact ih hrest'

theorem Moves.childrenOutside (h : n.Moves e false n') (hk : n.kind ≠ .tokenTree) :
    MovesAll e false n.children n'.children := by
  have hc := h.children rfl
  rwa [decide_eq_false hk, Bool.or_false, oldChildren_of_ne fun h' => hk (h.kind.symm.trans h')] at hc

/-- The bracketed tree, as a part of its own. -/
theorem Fits.placed (hf : n.Fits source) (hk : n.kind = .tokenTree) :
    (Part.tree (n.token source) (n.kind = .tokenTree) n.hasError (n.forest source)).Placed source := by
  have hroom := (hf.wellFormed.bracketed hk).room
  obtain ⟨horder, hall⟩ := forest_placed n hf
  rw [Part.Placed]
  simp only [decide_eq_true_eq]
  exact ⟨hf.covers (by omega), tokenKind_of_isTree (isTree_of_tokenTree hk), horder, hall⟩

section Growth

variable (hclosed : e.Closed)
  (hbreak : ∀ p : Nat, e.tokens p ≠ [] → IsBreak source p ∧ IsBreak (e.apply source) (e.right p))

include hbreak in
theorem Held.forest_eq (hh : n.Held e source) (hk : n.kind = .tokenTree) {inTree : Bool}
    (hm : n.Moves e inTree n') (hf : n.Fits source) (hr : n'.ReadsArguments e (e.apply source)) :
    n'.forest (e.apply source) = n.grownForest e source := by
  have hroom := (hf.wellFormed.bracketed hk).room
  exact forest_grown hm (Or.inr hk) hf (isTree_of_tokenTree hk) (by omega) hr hbreak (hh.hostedIn hk)

include hclosed hbreak in
theorem invocations_grown_tree (hh : n.Held e source) (hk : n.kind = .tokenTree)
    (hm : n.Moves e false n') (hf : n.Fits source) (hr : n'.ReadsArguments e (e.apply source)) :
    n'.invocations (e.apply source) =
      (n.invocations source).map (Invocation.grown e (e.apply source)) := by
  have hpart := Part.invocations_grown hclosed _ (hf.placed hk) (fun p => hh.hostedIn hk p)
    (fun t (ht : t ∈ []) => (List.not_mem_nil ht).elim)
  rw [Part.grown, Part.invocations, Part.invocations] at hpart
  rw [invocations_of_tokenTree hk, invocations_of_tokenTree (hm.kind.trans hk),
    hh.forest_eq hbreak hk hm hf hr]
  exact hpart

include hbreak in
theorem ownInvocations_grown (hh : n.Held e source) (hk : n.kind ≠ .tokenTree)
    (hm : n.Moves e false n') (hf : n.Fits source) (hr : n'.ReadsArguments e (e.apply source)) :
    n'.ownInvocations (e.apply source) =
      (n.ownInvocations source).map (Invocation.grown e (e.apply source)) := by
  have hchildren := hm.childrenOutside hk
  unfold ownInvocations
  rw [hm.kind, hm.hasError]
  rcases hchildren.find? (f := Node.isMacroName) fun c c' h => h.isMacroName with
    ⟨h, h'⟩ | ⟨name, name', h, h', hname⟩
  · rw [h, h']
    rfl
  · rw [h, h']
    rcases hchildren.find? (f := fun c => c.kind = .tokenTree) fun c c' h => by rw [h.kind] with
      ⟨ht, ht'⟩ | ⟨tree, tree', ht, ht', htree⟩
    · rw [ht, ht']
      rfl
    · rw [ht, ht']
      have hnamec := List.mem_of_find?_eq_some h
      have htreec := List.mem_of_find?_eq_some ht
      have htreek : tree.kind = .tokenTree := by simpa using List.find?_some ht
      have hnameh := hh.child hk hf hnamec
      have htreeh := hh.child hk hf htreec
      have hnamef := hf.child hnamec
      have htreef := hf.child htreec
      have hquiet : e.Quiet name.start name.stop := by
        intro p htext hgt
        refine Int.not_lt.mp fun hlt => ?_
        have hstring := hasString_of_holds hnamef.wellFormed (hnameh.inside p htext hgt hlt)
        rw [hnamef.wellFormed.plainName (by simpa using List.find?_some h)] at hstring
        cases hstring
      obtain ⟨hns, hne⟩ := hnameh.bounds hname
      obtain ⟨hts, hte⟩ := htreeh.bounds htree
      have hslice : (e.apply source).slice name'.start name'.stop =
          source.slice name.start name.stop := by
        rw [hns, hne]
        exact Edits.slice_apply hnamef.nonneg hnamef.le hnamef.within hquiet
      have htokens : (tree'.forest (e.apply source)).map Part.token =
          grownTokens e (e.apply source) tree.start ((tree.forest source).map Part.token) := by
        rw [htreeh.forest_eq hbreak htreek htree htreef
          (hr.child (List.mem_of_find?_eq_some ht')), grownForest, htreek, decide_eq_true rfl,
          map_token_withArgument]
      simp only [hslice, htokens]
      rw [hns, hne, hts, hte]
      split <;> rfl

theorem allInvocations_grown {edited : Bytes} {cs cs' : List Node} (h : MovesAll e false cs cs')
    (hx : ∀ c ∈ cs, ∀ c' ∈ cs', c.Moves e false c' →
      c'.invocations edited = (c.invocations source).map (Invocation.grown e edited)) :
    allInvocations edited cs' = (allInvocations source cs).map (Invocation.grown e edited) := by
  induction cs generalizing cs' with
  | nil =>
    rw [MovesAll] at h
    subst h
    rfl
  | cons c rest ih =>
    rw [MovesAll] at h
    obtain ⟨c', rest', rfl, hc', hrest'⟩ := h
    rw [allInvocations, allInvocations, List.map_append,
      hx c List.mem_cons_self c' List.mem_cons_self hc',
      ih hrest' fun d hd d' hd' => hx d (List.mem_cons_of_mem c hd) d' (List.mem_cons_of_mem c' hd')]

include hclosed hbreak in
/-- A moved tree has the invocations of the old one, moved. -/
theorem invocations_grown (hw : n.WellFormed source) (h0 : 0 ≤ n.start) (h1 : n.stop ≤ source.length)
    (hh : n.Held e source) (hm : n.Moves e false n') (hr : n'.ReadsArguments e (e.apply source)) :
    n'.invocations (e.apply source) =
      (n.invocations source).map (Invocation.grown e (e.apply source)) := by
  induction hw generalizing n' with
  | @mk kind start stop isNamed hasError isMacroName children ho hb hp hbelow ih =>
    have hf : (mk kind start stop isNamed hasError isMacroName children).Fits source :=
      ⟨.mk ho hb hp hbelow, h0, h1⟩
    by_cases hk : (mk kind start stop isNamed hasError isMacroName children).kind = .tokenTree
    · exact invocations_grown_tree hclosed hbreak hh hk hm hf hr
    · rw [invocations_of_ne_tokenTree hk, invocations_of_ne_tokenTree (by rwa [hm.kind]),
        List.map_append, ownInvocations_grown hbreak hh hk hm hf hr,
        allInvocations_grown (hm.childrenOutside hk) fun c hc c' hc' hmoves =>
          ih c hc (hf.child hc).nonneg (hf.child hc).within (hh.child hk hf hc) hmoves (hr.child hc')]

end Growth

end

end Node

end LogRef
