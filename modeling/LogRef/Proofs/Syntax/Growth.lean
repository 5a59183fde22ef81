import LogRef.Proofs.Source.Edits
import LogRef.Proofs.Syntax.Cut

/-!
# Forests of an edited source

When texts are put into a source and a parser moves the boundaries of its tree along, the forest of the tree
is the old one with every token moved and the tokens of new arguments put in. The texts are at the head of
string literals or where a new argument of a bracketed tree goes; inside a token of any other kind there is
none.
-/
namespace LogRef

/-- A token in the edited source. -/
def Token.moved (e : Edits) (edited : Bytes) (t : Token) : Token :=
  ⟨t.kind, e.right t.start, e.left t.stop, edited.slice (e.right t.start) (e.left t.stop)⟩

/-- The tokens of a new argument in a tree. -/
def Edits.argument (e : Edits) (isBracketed : Bool) (start : Int) (tokens : List Token) : List Token :=
  if isBracketed then ((argumentPlace start tokens).map fun p => e.tokens p.toNat).getD [] else []

/-- Parts with the tokens of a new argument put in where it goes. -/
def withArgument (tokens new : List Token) (parts : List Part) : List Part :=
  parts.take (argumentIndex tokens) ++ (new.map .leaf ++ parts.drop (argumentIndex tokens))

mutual

/-- A token in the edited source, with the tokens inside of it. -/
def Part.grown (e : Edits) (edited : Bytes) : Part → Part
  | .leaf t => .leaf (t.moved e edited)
  | .tree t isBracketed hasError inside =>
    .tree (t.moved e edited) isBracketed hasError
      (withArgument (inside.map Part.token) (e.argument isBracketed t.start (inside.map Part.token))
        (allGrown e edited inside))

def allGrown (e : Edits) (edited : Bytes) : List Part → List Part
  | [] => []
  | p :: rest => p.grown e edited :: allGrown e edited rest

end

mutual

/-- The offset is one where a text may be: the head of a string literal, or the place of a new argument of a
tree with a string literal. -/
def Part.Hosts (e : Edits) (p : Nat) : Part → Prop
  | .leaf t => t.kind = .string ∧ e.tokens p = [] ∧ ∃ q, t.contentRange = some ((p : Int), q)
  | .tree t isBracketed _ inside =>
    (isBracketed = true ∧ e.tokens p ≠ [] ∧
      argumentPlace t.start (inside.map Part.token) = some (p : Int) ∧
      ∃ x ∈ inside, x.token.kind = .string) ∨ HostsAmong e p inside

def HostsAmong (e : Edits) (p : Nat) : List Part → Prop
  | [] => False
  | x :: rest => (x.token.start < p ∧ p < x.token.stop ∧ x.Hosts e p) ∨ HostsAmong e p rest

end

/-- Whether a node of the edited source is one inside of a new argument. -/
def Edits.isNew (e : Edits) (c : Node) : Bool :=
  !c.isTree && c.start < c.stop && (List.range (c.start.toNat + 1)).any fun p =>
    !(e.tokens p).isEmpty && e.left p ≤ c.start && c.stop ≤ e.right p

namespace Node

/-- The children of a node of the edited source, without those inside of a new argument. -/
def oldChildren (e : Edits) (n : Node) : List Node :=
  if n.kind = .tokenTree then n.children.filter (!e.isNew ·) else n.children

mutual

/-- The second node is the first one in the edited source: its boundaries are moved past the texts put in
before them, and nodes are added only inside of new arguments, in order. Inside of bracketed trees, only
what is looked at is compared. -/
def Moves (e : Edits) : (inTree : Bool) → Node → Node → Prop
  | inTree, mk kind start stop isNamed hasError isMacroName children, n =>
    n.kind = kind ∧ n.isNamed = isNamed ∧ n.hasError = hasError ∧ n.isMacroName = isMacroName ∧
      (if start = stop then n.start = n.stop ∧ e.left start ≤ n.start ∧ n.start ≤ e.right start
        else n.start = e.right start ∧ n.stop = e.left stop) ∧
      (n.oldChildren e = n.children ∨ InOrder n.start n.stop n.children) ∧
      (isOpened inTree (mk kind start stop isNamed hasError isMacroName children) →
        MovesAll e (inTree || kind = .tokenTree) children (n.oldChildren e))

def MovesAll (e : Edits) : (inTree : Bool) → List Node → List Node → Prop
  | _, [], ns => ns = []
  | inTree, c :: rest, ns =>
    ∃ c' rest', ns = c' :: rest' ∧ c.Moves e inTree c' ∧ MovesAll e inTree rest rest'

end

mutual

instance decidableMoves (e : Edits) : (inTree : Bool) → (n n' : Node) → Decidable (n.Moves e inTree n')
  | inTree, mk kind _ _ _ _ _ children, n' =>
    have := decidableMovesAll e (inTree || kind = .tokenTree) children (n'.oldChildren e)
    inferInstanceAs (Decidable (_ ∧ _ ∧ _ ∧ _ ∧ _ ∧ _ ∧ _))

instance decidableMovesAll (e : Edits) :
    (inTree : Bool) → (ns ns' : List Node) → Decidable (MovesAll e inTree ns ns')
  | _, [], ns' => inferInstanceAs (Decidable (ns' = []))
  | _, _ :: _, [] => isFalse fun ⟨_, _, h, _⟩ => by cases h
  | inTree, c :: rest, c' :: rest' =>
    have := decidableMoves e inTree c c'
    have := decidableMovesAll e inTree rest rest'
    decidable_of_iff (c.Moves e inTree c' ∧ MovesAll e inTree rest rest')
      ⟨fun h => ⟨c', rest', rfl, h⟩, fun ⟨_, _, h, hc⟩ => by cases h; exact hc⟩

end

mutual

/-- Every new argument reads as its tokens, in the innermost bracketed tree around it. -/
def ReadsArguments (e : Edits) (edited : Bytes) : Node → Prop
  | mk kind start stop _ _ _ children =>
    (kind = .tokenTree → ∀ p : Nat, e.tokens p ≠ [] → start < e.left p → e.right p < stop →
      (∀ c ∈ children, c.isPassedOver (start + 1) (stop - 1) = false → c.start < e.left p →
        c.stop ≤ e.right p) →
      forestAmong edited (e.right p) (e.left p) children = (e.tokens p).map .leaf) ∧
      AllReadArguments e edited children

def AllReadArguments (e : Edits) (edited : Bytes) : List Node → Prop
  | [] => True
  | n :: rest => n.ReadsArguments e edited ∧ AllReadArguments e edited rest

end

variable {e : Edits} {n n' : Node} {inTree : Bool}

/-- What it is for a node to be moved, by the fields of the node. -/
theorem moves_iff : n.Moves e inTree n' ↔
    n'.kind = n.kind ∧ n'.isNamed = n.isNamed ∧ n'.hasError = n.hasError ∧ n'.isMacroName = n.isMacroName ∧
      (if n.start = n.stop then n'.start = n'.stop ∧ e.left n.start ≤ n'.start ∧ n'.start ≤ e.right n.start
        else n'.start = e.right n.start ∧ n'.stop = e.left n.stop) ∧
      (n'.oldChildren e = n'.children ∨ InOrder n'.start n'.stop n'.children) ∧
      (n.isOpened inTree = true →
        MovesAll e (inTree || n.kind = .tokenTree) n.children (n'.oldChildren e)) := by
  cases n
  exact Iff.rfl

theorem Moves.kind (h : n.Moves e inTree n') : n'.kind = n.kind := (moves_iff.mp h).1

theorem Moves.isNamed (h : n.Moves e inTree n') : n'.isNamed = n.isNamed := (moves_iff.mp h).2.1

theorem Moves.hasError (h : n.Moves e inTree n') : n'.hasError = n.hasError := (moves_iff.mp h).2.2.1

theorem Moves.isMacroName (h : n.Moves e inTree n') : n'.isMacroName = n.isMacroName :=
  (moves_iff.mp h).2.2.2.1

theorem Moves.empty (h : n.Moves e inTree n') (hn : n.start = n.stop) : n'.start = n'.stop := by
  rw [moves_iff, if_pos hn] at h
  exact h.2.2.2.2.1.1

theorem Moves.empty_within (h : n.Moves e inTree n') (hn : n.start = n.stop) :
    e.left n.start ≤ n'.start ∧ n'.start ≤ e.right n.start := by
  rw [moves_iff, if_pos hn] at h
  exact h.2.2.2.2.1.2

theorem Moves.bounds (h : n.Moves e inTree n') (hn : n.start ≠ n.stop) :
    n'.start = e.right n.start ∧ n'.stop = e.left n.stop := by
  rw [moves_iff, if_neg hn] at h
  exact h.2.2.2.2.1

theorem Moves.ordered (h : n.Moves e inTree n') :
    n'.oldChildren e = n'.children ∨ InOrder n'.start n'.stop n'.children :=
  (moves_iff.mp h).2.2.2.2.2.1

theorem Moves.children (h : n.Moves e inTree n') (ho : n.isOpened inTree = true) :
    MovesAll e (inTree || n.kind = .tokenTree) n.children (n'.oldChildren e) :=
  (moves_iff.mp h).2.2.2.2.2.2 ho

theorem Moves.isTree (h : n.Moves e inTree n') : n'.isTree = n.isTree := by
  rw [Node.isTree, Node.isTree, h.kind]

theorem Moves.tokenKind (h : n.Moves e inTree n') : n'.tokenKind = n.tokenKind := by
  rw [Node.tokenKind, Node.tokenKind, h.kind]

theorem Moves.token (h : n.Moves e inTree n') (hn : n.start ≠ n.stop) (source edited : Bytes) :
    n'.token edited = (n.token source).moved e edited := by
  obtain ⟨hstart, hstop⟩ := h.bounds hn
  simp only [Node.token, Token.moved, h.tokenKind, hstart, hstop]

theorem oldChildren_of_ne (h : n.kind ≠ .tokenTree) : n.oldChildren e = n.children := if_neg h

theorem mem_of_mem_oldChildren {c : Node} (h : c ∈ n.oldChildren e) : c ∈ n.children := by
  unfold oldChildren at h
  split at h
  · exact (List.mem_filter.mp h).1
  · exact h

mutual

/-- Where there are no new arguments, there is nothing to read of them. -/
theorem readsArguments_of_none {edited : Bytes} (h : ∀ p, e.tokens p = []) :
    ∀ n : Node, n.ReadsArguments e edited
  | mk _ _ _ _ _ _ children =>
    ⟨fun _ p hp => absurd (h p) hp, allReadArguments_of_none h children⟩

theorem allReadArguments_of_none {edited : Bytes} (h : ∀ p, e.tokens p = []) :
    ∀ ns : List Node, AllReadArguments e edited ns
  | [] => trivial
  | n :: ns => ⟨readsArguments_of_none h n, allReadArguments_of_none h ns⟩

end

theorem AllReadArguments.mem {edited : Bytes} {ns : List Node} (h : AllReadArguments e edited ns)
    {c : Node} (hc : c ∈ ns) : c.ReadsArguments e edited := by
  induction ns with
  | nil => cases hc
  | cons d ns ih =>
    rcases List.mem_cons.mp hc with rfl | hc
    · exact h.1
    · exact ih h.2 hc

theorem ReadsArguments.child {edited : Bytes} {c : Node} (h : n.ReadsArguments e edited)
    (hc : c ∈ n.children) : c.ReadsArguments e edited := by
  cases n
  exact h.2.mem hc

theorem ReadsArguments.here {edited : Bytes} (h : n.ReadsArguments e edited)
    (hk : n.kind = .tokenTree) {p : Nat} (hp : e.tokens p ≠ []) (hlo : n.start < e.left p)
    (hhi : e.right p < n.stop)
    (hlevel : ∀ c ∈ n.children, c.isPassedOver (n.start + 1) (n.stop - 1) = false →
      c.start < e.left p → c.stop ≤ e.right p) :
    forestAmong edited (e.right p) (e.left p) n.children = (e.tokens p).map .leaf := by
  cases n
  exact h.1 hk p hp hlo hhi hlevel

end Node

section

variable {e : Edits} {source : Bytes}

theorem Edits.isNew_iff {c : Node} : e.isNew c = true ↔ c.isTree = false ∧ c.start < c.stop ∧
    ∃ p : Nat, e.tokens p ≠ [] ∧ e.left p ≤ c.start ∧ c.stop ≤ e.right p := by
  simp only [Edits.isNew, Bool.and_eq_true, decide_eq_true_eq, List.any_eq_true, List.mem_range,
    Bool.not_eq_true', List.isEmpty_eq_false_iff, ne_eq]
  constructor
  · rintro ⟨⟨htree, hlt⟩, p, _, ⟨ht, hlo⟩, hhi⟩
    exact ⟨htree, hlt, p, ht, hlo, hhi⟩
  · rintro ⟨htree, hlt, p, ht, hlo, hhi⟩
    have hp := Edits.le_left (e := e) (p := p) (Int.natCast_nonneg p)
    exact ⟨⟨htree, hlt⟩, p, by omega, ⟨ht, hlo⟩, hhi⟩

theorem withArgument_nil (tokens : List Token) (parts : List Part) :
    withArgument tokens [] parts = parts := List.take_append_drop _ _

theorem token_grown (edited : Bytes) (x : Part) :
    (x.grown e edited).token = x.token.moved e edited := by
  cases x <;> rfl

theorem allGrown_append (edited : Bytes) (a b : List Part) :
    allGrown e edited (a ++ b) = allGrown e edited a ++ allGrown e edited b := by
  induction a with
  | nil => rfl
  | cons x a ih => rw [List.cons_append, allGrown, allGrown, ih, List.cons_append]

theorem allGrown_leaves (edited : Bytes) (ts : List Token) :
    allGrown e edited (ts.map .leaf) = (ts.map (Token.moved e edited)).map .leaf := by
  induction ts with
  | nil => rfl
  | cons t ts ih => rw [List.map_cons, allGrown, ih, Part.grown, List.map_cons, List.map_cons]

theorem map_token_allGrown (edited : Bytes) (xs : List Part) :
    (allGrown e edited xs).map Part.token = (xs.map Part.token).map (Token.moved e edited) := by
  induction xs with
  | nil => rfl
  | cons x xs ih => simp only [allGrown, List.map_cons, token_grown, ih]

theorem hostsAmong_iff {xs : List Part} :
    HostsAmong e p xs ↔ ∃ x ∈ xs, x.token.start < p ∧ p < x.token.stop ∧ x.Hosts e p := by
  induction xs with
  | nil => simp [HostsAmong]
  | cons x xs ih => simp [HostsAmong, ih]

theorem hostsAmong_append {a b : List Part} :
    HostsAmong e p (a ++ b) ↔ HostsAmong e p a ∨ HostsAmong e p b := by
  simp only [hostsAmong_iff, List.mem_append, or_and_right, exists_or]

theorem HostsAmong.within {lo hi : Int} {xs : List Part} (h : HostsAmong e p xs)
    (ho : TokensInOrder lo hi (xs.map Part.token)) : lo < p ∧ p < hi := by
  obtain ⟨x, hx, hstart, hstop, _⟩ := hostsAmong_iff.mp h
  have := ho.mem (List.mem_map_of_mem hx)
  omega

/-- Between nodes there is no string literal. -/
theorem not_hostsAmong_gap {start stop : Int} :
    ¬ HostsAmong e p ((gapTokens source start stop).map .leaf) := by
  intro h
  obtain ⟨x, hx, _, _, hhosts⟩ := hostsAmong_iff.mp h
  obtain ⟨t, ht, rfl⟩ := List.mem_map.mp hx
  obtain ⟨q, hq, rfl⟩ := List.mem_map.mp ht
  exact (kind_of_mem_piecesOf hq).1 hhosts.1

theorem piecesOf_shift (position d : Int) (bytes : Bytes) :
    piecesOf (position + d) bytes =
      (piecesOf position bytes).map fun x => ⟨x.kind, x.start + d, x.stop + d⟩ := by
  induction bytes generalizing position with
  | nil => rfl
  | cons b rest ih =>
    have hpos : position + d + 1 = position + 1 + d := by omega
    simp only [piecesOf]
    rw [hpos, ih]
    cases hr : piecesOf (position + 1) rest with
    | nil =>
      simp only [List.map_nil]
      split
      · rfl
      · split <;> rfl
    | cons x more =>
      simp only [List.map_cons]
      split
      · rfl
      · split
        · by_cases hx : x.kind = .word ∧ x.start = position + 1
          · rw [if_pos hx, if_pos ⟨hx.1, by omega⟩]
            rfl
          · rw [if_neg hx, if_neg fun hc => hx ⟨hc.1, by omega⟩]
            rfl
        · rfl

theorem gapTokens_eq_nil {start stop : Int} (h0 : 0 ≤ start) (h : stop ≤ start) :
    gapTokens source start stop = [] := by
  have hlen : (source.take stop.toNat).length ≤ start.toNat := by
    rw [List.length_take]
    omega
  rw [gapTokens, bytesBetween_eq h0, List.drop_eq_nil_of_le hlen]
  rfl

/-- The tokens between two nodes, when no text is put in between. -/
theorem gapTokens_apply {a b : Int} (h0 : 0 ≤ a) (hab : a < b) (h1 : b ≤ source.length)
    (hq : e.Quiet a b) :
    gapTokens (e.apply source) (e.right a) (e.left b) =
      (gapTokens source a b).map (Token.moved e (e.apply source)) := by
  have hbytes : bytesBetween (e.apply source) (e.right a) (e.left b) = bytesBetween source a b := by
    have hslice := Edits.slice_apply h0 (Int.le_of_lt hab) h1 hq
    rw [Bytes.slice_eq Edits.right_nonneg Edits.left_nonneg, Bytes.slice_eq h0 (by omega)] at hslice
    rw [bytesBetween_eq Edits.right_nonneg, bytesBetween_eq h0, hslice]
  have hshift : e.right a = a + (e.right a - a) := by omega
  have horder := gapTokens_inOrder h0 (Int.le_of_lt hab) h1
  unfold gapTokens at horder ⊢
  rw [hbytes, hshift, piecesOf_shift, List.map_map, List.map_map]
  refine List.map_congr_left fun x hx => ?_
  have hb := horder.mem (List.mem_map_of_mem hx)
  simp only [Piece.token] at hb
  have hstart : e.right x.start = x.start + (e.right a - a) := by
    have h := Edits.right_add (n := x.start - a) h0 hq (by omega) (by omega)
    rw [show a + (x.start - a) = x.start by omega] at h
    omega
  have hstop : e.left x.stop = x.stop + (e.right a - a) := by
    have h := Edits.left_add (n := x.stop - a) h0 hq (by omega) (by omega)
    rw [show a + (x.stop - a) = x.stop by omega] at h
    omega
  simp only [Function.comp_apply, Piece.token, Token.moved, hstart, hstop]

namespace Node

/-- A node is passed over in the edited source if it is in the old one. -/
theorem Moves.isPassedOver {c c' : Node} (h : c.Moves e true c') (hc : c.Fits source)
    {cursor cursor' stop : Int} (h0 : 0 ≤ cursor) (h1 : 0 ≤ stop) (hlo : e.left cursor ≤ cursor')
    (hhi : cursor' ≤ e.right cursor) :
    c'.isPassedOver cursor' (e.left stop) = c.isPassedOver cursor stop := by
  unfold Node.isPassedOver
  rw [h.isNamed]
  by_cases hne : c.start = c.stop
  · rw [beq_iff_eq.mpr hne, beq_iff_eq.mpr (h.empty hne)]
    simp
  · obtain ⟨hstart, hstop⟩ := h.bounds hne
    have hle := hc.le
    have hnonneg := hc.nonneg
    have hlt := Edits.right_lt_left (e := e) hnonneg (Int.lt_iff_le_and_ne.mpr ⟨hle, hne⟩)
    have hcursor : (c'.start < cursor') = (c.start < cursor) := by
      rw [hstart, eq_iff_iff]
      constructor
      · intro hx
        refine Int.not_le.mp fun hy => ?_
        have := (Edits.right_le_right_iff (e := e) h0 hnonneg).mpr hy
        omega
      · intro hx
        have := Edits.right_lt_left (e := e) hnonneg hx
        omega
    have hend : (e.left stop < c'.stop) = (stop < c.stop) := by
      rw [hstop, eq_iff_iff]
      constructor
      · intro hx
        refine Int.not_le.mp fun hy => ?_
        have := Edits.left_mono (e := e) hy
        omega
      · intro hx
        have := Edits.right_lt_left (e := e) h1 hx
        have := Edits.left_le_right (e := e) (p := stop)
        omega
    rw [beq_eq_false_iff_ne.mpr hne, beq_eq_false_iff_ne.mpr (show c'.start ≠ c'.stop by omega)]
    simp only [hcursor, hend]

variable {c c' n n' : Node} {stop cursor cursor' : Int}

theorem ownParts_inOrder (h : c.Fits source) (hne : c.start ≠ c.stop) :
    TokensInOrder c.start c.stop ((c.ownParts source).map Part.token) := by
  have hlt := (h.covers hne).nonempty
  have hle := h.le
  unfold ownParts
  split
  · exact hle
  · split <;> exact ⟨Int.le_refl _, hlt, Int.le_refl _⟩

/-- Where a text can be, from a node on that is kept: inside of the node, or behind it. -/
theorem hosts_kept_cases {rest : List Node} (hc : c.Fits source)
    (hrest : ∀ d ∈ rest, d.Fits source) (hp : c.isPassedOver cursor stop = false)
    (h1 : stop ≤ source.length) (h : HostsAmong e p (forestAmong source stop cursor (c :: rest))) :
    (c.start < p ∧ p < c.stop ∧ HostsAmong e p (c.ownParts source)) ∨
      (c.stop < p ∧ p < stop ∧ HostsAmong e p (forestAmong source stop c.stop rest)) := by
  obtain ⟨_, hne, _, hstop⟩ := isPassedOver_eq_false_iff.mp hp
  have h0 := hc.nonneg
  have hle := hc.le
  have hmore := (forestAmong_placed rest hrest (by omega) hstop h1).1
  rw [forestAmong_of_kept hp, hostsAmong_append, hostsAmong_append] at h
  rcases h with h | h | h
  · exact absurd h not_hostsAmong_gap
  · have := h.within (ownParts_inOrder hc hne)
    exact Or.inl ⟨this.1, this.2, h⟩
  · have := h.within hmore
    exact Or.inr ⟨this.1, this.2, h⟩

/-- The brackets of a tree are found again. -/
theorem Moves.innerStart_eq {inTree : Bool} (h : n.Moves e inTree n') (hf : n.Fits source)
    (hne : n.start ≠ n.stop) : innerStart (e.apply source) n'.kind n'.start =
      e.right n.start + if n.kind = .tokenTree then 1 else 0 := by
  have h0 := hf.nonneg
  have h1 := hf.within
  have hle := hf.le
  have hslice : (e.apply source).slice n'.start (n'.start + 1) = source.slice n.start (n.start + 1) := by
    have hq : e.Quiet n.start (n.start + 1) := fun p _ hp => by omega
    rw [(h.bounds hne).1, ← Edits.left_succ h0, Edits.slice_apply h0 (by omega) (by omega) hq]
  unfold innerStart
  rw [h.kind, hslice, (h.bounds hne).1]
  by_cases hk : n.kind = .tokenTree
  · rw [if_pos ⟨hk, (hf.wellFormed.bracketed hk).opener⟩, if_pos hk]
  · rw [if_neg fun hc => hk hc.1, if_neg hk, Int.add_zero]

theorem Moves.innerStop_eq {inTree : Bool} (h : n.Moves e inTree n') (hf : n.Fits source)
    (hne : n.start ≠ n.stop) : innerStop (e.apply source) n'.kind n'.start n'.stop =
      e.left n.stop - if n.kind = .tokenTree then 1 else 0 := by
  have h0 := hf.nonneg
  have h1 := hf.within
  have hle := hf.le
  have hlast : e.left n.stop = e.right (n.stop - 1) + 1 := by
    rw [← Edits.left_succ (by omega), Int.sub_add_cancel]
  have hslice : (e.apply source).slice (n'.stop - 1) n'.stop = source.slice (n.stop - 1) n.stop := by
    have hq : e.Quiet (n.stop - 1) n.stop := fun p _ hp => by omega
    have hpred : n'.stop - 1 = e.right (n.stop - 1) := by
      rw [(h.bounds hne).2, hlast, Int.add_sub_cancel]
    rw [hpred, (h.bounds hne).2, Edits.slice_apply (by omega) (by omega) h1 hq]
  unfold innerStop
  rw [h.innerStart_eq hf hne, hslice, h.kind, (h.bounds hne).2]
  by_cases hk : n.kind = .tokenTree
  · have hb := hf.wellFormed.bracketed hk
    have hroom := hb.room
    have hlt := Edits.right_lt_left (e := e) (p := n.start + 1) (q := n.stop) (by omega) (by omega)
    have hmono := Edits.left_succ (e := e) h0
    have hlr := Edits.left_le_right (e := e) (p := n.start + 1)
    rw [if_pos hk, if_pos ⟨hk, by omega, hb.closer⟩]
  · rw [if_neg fun hc => hk hc.1, if_neg hk, Int.sub_zero]

/-- The texts put in strictly between two positions are where these tokens let them be. -/
def HostedAmong (e : Edits) (lo hi : Int) (xs : List Part) : Prop :=
  ∀ p : Nat, e.text p ≠ [] → lo < p → p < hi → HostsAmong e p xs

theorem HostedAmong.text_eq_nil {lo hi : Int} {xs : List Part} (h : HostedAmong e lo hi xs) {p : Int}
    (h0 : 0 ≤ p) (hlo : lo < p) (hhi : p < hi) (hn : ¬ HostsAmong e p.toNat xs) :
    e.text p.toNat = [] := by
  refine Decidable.byContradiction fun hne => hn ?_
  exact h p.toNat hne (by omega) (by omega)

end Node

end

end LogRef
